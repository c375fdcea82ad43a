/-
  Myos.Fat.OpenFiles — reading a file through an open file (vfs.rs: OpenFile::read).

  An open file is an inode with a position that every read moves on. The content of a file is
  the bytes of its chain up to its size; a file without a first cluster has none.

  Proved: `read_at` returns the slice of the content, and a reader that asks for bytes until it
  gets none has read the content and stands at its end, whatever amounts it asked for.
-/

import Myos.Fat.ReadBack

namespace Myos.Fat

open Lib Fat32Inner Fat32Inode

structure OpenFile where
  inode : Fat32Inode
  pos : Nat
  flags : Nat
  deriving DecidableEq, Repr

namespace OpenFile

def new (inode : Fat32Inode) (flags : Nat) : OpenFile := ⟨inode, 0, flags⟩

/-- The bytes put into a buffer of `len` bytes; the call returns how many. -/
def read (v : Fat32Inner) (d : Device) (f : OpenFile) (len : Nat) : List UInt8 × OpenFile :=
  let bytes := f.inode.readAt v d f.pos len
  (bytes, { f with pos := f.pos + bytes.length })

/-- Reads with buffers of these lengths until 0 is returned; `none` if that did not happen. -/
def readUntil (v : Fat32Inner) (d : Device) : List Nat → OpenFile → Option (List UInt8 × OpenFile)
  | [], _ => none
  | len :: lens, f =>
    let (bytes, f) := f.read v d len
    if bytes.length = 0 then some (bytes, f) else (readUntil v d lens f).map fun (rest, f) => (bytes ++ rest, f)

end OpenFile

/-- The chain `l` holds the bytes of the file. -/
def Covers (v : Fat32Inner) (d : Device) (ino : Fat32Inode) (l : List Nat) : Prop :=
  FatChain v d ino.firstCluster l ∧ ino.size ≤ l.length * v.clusBytes ∨ ino.firstCluster < 2 ∧ l = [] ∧ ino.size = 0

/-- The bytes of the file. -/
def content (v : Fat32Inner) (d : Device) (ino : Fat32Inode) (l : List Nat) : List UInt8 := fileBytes v d l 0 ino.size

variable {v : Fat32Inner} {d : Device} {ino : Fat32Inode} {l : List Nat} {f : OpenFile} {len : Nat} {lens : List Nat}

@[simp] theorem length_content : (content v d ino l).length = ino.size := by simp [content, fileBytes]

/-- A slice of the content. -/
theorem take_drop_content (off len : Nat) :
    ((content v d ino l).drop off).take len = fileBytes v d l off (min len (ino.size - off)) := by
  apply List.ext_getElem
  · simp [fileBytes]
  · intro k _ _
    simp [content, fileBytes]

theorem Covers.readAt (h : Covers v d ino l) (hv : v.WellFormed) (off len : Nat) :
    ino.readAt v d off len = ((content v d ino l).drop off).take len := by
  rw [take_drop_content]
  rcases h with ⟨hc, hs⟩ | ⟨-, -, h0⟩
  · rw [readAt_eq hc hv, Nat.min_eq_left hs]
  · rw [Fat32Inode.readAt, if_pos (by omega), h0, Nat.zero_sub, Nat.min_zero]
    rfl

namespace OpenFile

theorem read_fst (h : Covers v d f.inode l) (hv : v.WellFormed) :
    (f.read v d len).1 = ((content v d f.inode l).drop f.pos).take len := h.readAt hv ..

/-- A read with room in the buffer returns nothing at the end of the file only. -/
theorem read_eq_nil (h : Covers v d f.inode l) (hv : v.WellFormed) (h0 : 0 < len) :
    (f.read v d len).1.length = 0 ↔ f.inode.size ≤ f.pos := by
  rw [read_fst h hv, List.length_take, List.length_drop, length_content]
  omega

/-- One read after the other reads the rest of the content. -/
theorem readUntil_some (hv : v.WellFormed) (h : Covers v d f.inode l) (hp : f.pos ≤ f.inode.size) (h0 : ∀ n ∈ lens, 0 < n)
    {r : List UInt8 × OpenFile} (hr : f.readUntil v d lens = some r) :
    r.1 = (content v d f.inode l).drop f.pos ∧ r.2 = { f with pos := f.inode.size } := by
  induction lens generalizing f r with
  | nil => cases hr
  | cons n ns ih =>
    have hn := read_eq_nil h hv (h0 n (List.mem_cons_self ..))
    rw [readUntil] at hr
    dsimp only at hr
    split at hr
    · next he =>
      cases hr
      have hpos : f.pos = f.inode.size := Nat.le_antisymm hp (hn.mp he)
      refine ⟨?_, ?_⟩
      · rw [List.length_eq_zero_iff.mp he, List.drop_of_length_le (by rw [length_content, hpos])]
      · show { f with pos := f.pos + (f.read v d n).1.length } = _
        rw [he, Nat.add_zero, hpos]
    · next he =>
      obtain ⟨⟨rest, g⟩, hg, rfl⟩ := Option.map_eq_some_iff.mp hr
      have hbytes : (f.read v d n).1 = _ := read_fst h hv
      generalize hxs : (content v d f.inode l).drop f.pos = xs at hbytes
      have hlen : xs.length = f.inode.size - f.pos := by rw [← hxs, List.length_drop, length_content]
      have hpos : (f.read v d n).2.pos = f.pos + min n xs.length := by
        rw [← List.length_take, ← hbytes]
        rfl
      -- the next read starts where this one ended
      have hle : (f.read v d n).2.pos ≤ f.inode.size := by
        rw [hpos]
        omega
      obtain ⟨hrest, hend⟩ := ih (f := (f.read v d n).2) h hle (fun m hm => h0 m (List.mem_cons_of_mem _ hm)) hg
      refine ⟨?_, hend⟩
      have hdrop : rest = xs.drop (min n xs.length) := by
        rw [← hxs, List.drop_drop, hxs, ← hpos]
        exact hrest
      calc (f.read v d n).1 ++ rest = xs.take (min n xs.length) ++ xs.drop (min n xs.length) := by
            rw [hbytes, hdrop, ← List.take_eq_take_min]
        _ = xs := List.take_append_drop ..

/-- More buffers than bytes are enough. -/
theorem readUntil_isSome (hv : v.WellFormed) (h : Covers v d f.inode l) (h0 : ∀ n ∈ lens, 0 < n)
    (hn : f.inode.size - f.pos < lens.length) : (f.readUntil v d lens).isSome := by
  induction lens generalizing f with
  | nil => exact absurd hn (Nat.not_lt_zero _)
  | cons n ns ih =>
    have he := read_eq_nil h hv (h0 n (List.mem_cons_self ..))
    rw [readUntil]
    dsimp only
    split
    · rfl
    · next hne =>
      rw [Option.isSome_map]
      refine ih (f := (f.read v d n).2) h (fun m hm => h0 m (List.mem_cons_of_mem _ hm)) ?_
      have hpos : (f.read v d n).2.pos = f.pos + (f.read v d n).1.length := rfl
      rw [List.length_cons] at hn
      show f.inode.size - (f.read v d n).2.pos < ns.length
      omega

end OpenFile

/-- Reads refine the content of the file. -/
theorem reads_refine (hv : v.WellFormed) (h : Covers v d ino l) :
    (∀ off len, ino.readAt v d off len = ((content v d ino l).drop off).take len) ∧
      ∀ flags lens, (∀ n ∈ lens, 0 < n) →
        (∀ r, (OpenFile.new ino flags).readUntil v d lens = some r → r.1 = content v d ino l ∧ r.2 = ⟨ino, ino.size, flags⟩) ∧
        (ino.size < lens.length → ((OpenFile.new ino flags).readUntil v d lens).isSome) := by
  refine ⟨h.readAt hv, fun flags lens h0 => ⟨fun r hr => ?_, fun hn => ?_⟩⟩
  · have hcov : Covers v d (OpenFile.new ino flags).inode l := h
    obtain ⟨hb, hf⟩ := OpenFile.readUntil_some hv hcov (Nat.zero_le _) h0 hr
    exact ⟨hb, hf⟩
  · have hcov : Covers v d (OpenFile.new ino flags).inode l := h
    exact OpenFile.readUntil_isSome hv hcov h0 hn

/-- The file of two bytes in cluster 3, read with buffers of 1, 3 and 5 bytes. -/
theorem reads_refine_twoBytes : ∃ r, (OpenFile.new ⟨3, 2, false⟩ 0).readUntil small oneFile [1, 3, 5] = some r ∧
    r.1 = content small oneFile ⟨3, 2, false⟩ [3] ∧ r.2.pos = 2 := by
  have hcov : Covers small oneFile ⟨3, 2, false⟩ [3] := Or.inl ⟨oneFile_chain (by decide) (by decide), by decide⟩
  obtain ⟨hr, hsome⟩ := (reads_refine small_wf hcov).2 0 [1, 3, 5] (by decide)
  obtain ⟨r, he⟩ := Option.isSome_iff_exists.mp (hsome (by decide))
  exact ⟨r, he, (hr r he).1, congrArg OpenFile.pos (hr r he).2⟩

end Myos.Fat

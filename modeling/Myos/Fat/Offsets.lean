/-
  Myos.Fat.Offsets — the position of an open file (vfs.rs: OpenFile::read, write and seek;
  syscall.rs: SYS_READ, SYS_WRITE and SYS_LSEEK on a file).

  The kernel is built with overflow checks, so a sum that does not fit its type panics and the
  call does not return. Casts never panic: `as u64` of a negative offset is a position near
  2^64, and `as i64` of such a position is negative again.

  Proved: while every seek starts below 2^63 and its target is a position, and no write has its
  end, rounded up to clusters, behind 2^64, every call returns, a read or write moves the
  position by its count and a call that fails leaves it. For a seek the condition is exact.
-/

import Myos.Fat.OpenFiles
import Myos.Lib.Runs

namespace Myos.Fat

open Lib Fat32Inner Fat32Inode

/-! ## 64-bit integers -/

/-- `n as i64`. -/
def asI64 (n : Nat) : Int := (BitVec.ofNat 64 n).toInt

/-- `i as u64`. -/
def asU64 (i : Int) : Nat := (BitVec.ofInt 64 i).toNat

/-- `a + b` on `i64`, `none` where it panics. -/
def addI64 (a b : Int) : Option Int := if -2 ^ 63 ≤ a + b ∧ a + b < 2 ^ 63 then some (a + b) else none

theorem asI64_eq {n : Nat} (h : n < 2 ^ 64) : asI64 n = if n < 2 ^ 63 then (n : Int) else n - 2 ^ 64 := by
  rw [asI64, BitVec.toInt_eq_toNat_cond, BitVec.toNat_ofNat, Nat.mod_eq_of_lt h]
  refine if_congr ?_ rfl rfl
  omega

theorem asU64_eq (i : Int) : (asU64 i : Int) = i % 2 ^ 64 := by
  rw [asU64, BitVec.toNat_ofInt]
  omega

theorem asU64_lt (i : Int) : asU64 i < 2 ^ 64 := (BitVec.ofInt 64 i).isLt

namespace Fat32Inode

variable (v : Fat32Inner)

/-- `current + clus_bytes` fits in every round of `extend`. -/
def extendFits (endNeeded : Nat) : Nat → Device → Nat → Nat → Bool
  | 0, _, _, _ => true
  | n + 1, d, current, last =>
    if current + v.clusBytes < 2 ^ 64 then
      if current + v.clusBytes < endNeeded then
        let next := v.readFatEntry d last
        if next ≥ fatEoc then
          match v.allocCluster d with
          | .error _ => true
          | .ok (newc, d) => extendFits endNeeded n (v.writeFatEntry d last newc) (current + v.clusBytes) newc
        else extendFits endNeeded n d (current + v.clusBytes) next
      else true
    else false

/-- No sum of `write_at` overflows. -/
def writeFits (d : Device) (ino : Fat32Inode) (offset : Nat) (buf : List UInt8) : Bool :=
  buf.isEmpty || decide (offset + buf.length < 2 ^ 64) &&
    (decide (offset + buf.length ≤ ino.size) || decide (ino.firstCluster < 2) ||
      extendFits v (offset + buf.length) (offset + buf.length + 1) d ino.size ino.firstCluster)

end Fat32Inode

namespace OpenFile

variable (v : Fat32Inner)

def readChecked (d : Device) (f : OpenFile) (len : Nat) : Option (List UInt8 × OpenFile) :=
  let r := f.read v d len
  if r.2.pos < 2 ^ 64 then some r else none

def write (d : Device) (f : OpenFile) (buf : List UInt8) : Option (Except String Nat × Device × OpenFile) :=
  if f.inode.writeFits v d f.pos buf then
    (f.inode.writeAt v d f.pos buf).bind fun
      | (.error e, d, ino) => some (.error e, d, { f with inode := ino })
      | (.ok n, d, ino) => if f.pos + n < 2 ^ 64 then some (.ok n, d, { f with inode := ino, pos := f.pos + n }) else none
  else none

def seek (f : OpenFile) (offset : Int) (whence : Nat) : Option (Except String Nat × OpenFile) :=
  let moved := fun i : Int => (.ok (asU64 i), { f with pos := asU64 i })
  match whence with
  | 0 => some (moved offset)
  | 1 => (addI64 (asI64 f.pos) offset).map moved
  | 2 => (addI64 (asI64 f.inode.size) offset).map moved
  | _ => some (.error "invalid whence", f)

end OpenFile

/-! ## System calls on one descriptor -/

inductive FileCall where
  | lseek (x1 x2 : BitVec 64)
  | read (len : Nat)
  | write (buf : List UInt8)
  deriving DecidableEq, Repr

structure Descriptor where
  dev : Device
  file : OpenFile

/-- `len == 0 || len > 4096`. -/
def refused (len : Nat) : Bool := len = 0 ∨ len > 4096

/-- What the file operation returns, and what it leaves; `none` is a panic. -/
def call (v : Fat32Inner) (s : Descriptor) : FileCall → Option (Except String Nat × Descriptor)
  | .lseek x1 x2 => (s.file.seek x1.toInt (x2.setWidth 32).toNat).map fun (r, f) => (r, { s with file := f })
  | .read len =>
    if refused len then some (.ok 0, s)
    else (s.file.readChecked v s.dev len).map fun (bytes, f) => (.ok bytes.length, { s with file := f })
  | .write buf =>
    if refused buf.length then some (.ok 0, s)
    else (s.file.write v s.dev buf).map fun (r, d, f) => (r, ⟨d, f⟩)

def step (v : Fat32Inner) (s : Descriptor) (c : FileCall) : Option Descriptor := (call v s c).map Prod.snd

/-- A file just opened; its size came from a directory entry. -/
structure Opened (v : Fat32Inner) (s : Descriptor) : Prop where
  file : ∃ l lr, IsFile v s.dev s.file.inode l lr
  size : s.file.inode.size < 2 ^ 32
  pos : s.file.pos = 0

/-- Where a seek counts from. -/
def OpenFile.base (f : OpenFile) : Nat → Option Nat
  | 0 => some 0
  | 1 => some f.pos
  | 2 => some f.inode.size
  | _ => none

/-- What the calls are for. -/
def Safe (s : Descriptor) : FileCall → Option (Except String Nat × Descriptor) → Prop
  | _, none => False
  | .lseek x1 x2, some (r, s') =>
    match s.file.base (x2.setWidth 32).toNat with
    | none => (∃ e, r = .error e) ∧ s'.file.pos = s.file.pos
    | some b =>
      if 0 ≤ b + x1.toInt ∧ b + x1.toInt < 2 ^ 63 then
        ∃ n : Nat, r = .ok n ∧ n = b + x1.toInt ∧ s'.file.pos = n
      else (∃ e, r = .error e) ∧ s'.file.pos = s.file.pos
  | _, some (.ok n, s') => s'.file.pos = s.file.pos + n
  | _, some (.error _, s') => s'.file.pos = s.file.pos

/-- A seek to a position from a base that is one; a write that ends, in whole clusters behind the
    old end, below 2^64. -/
def InRange (v : Fat32Inner) (s : Descriptor) : FileCall → Prop
  | .lseek x1 x2 => ∀ b ∈ s.file.base (x2.setWidth 32).toNat, b < 2 ^ 63 ∧ 0 ≤ b + x1.toInt ∧ b + x1.toInt < 2 ^ 63
  | .read _ => True
  | .write buf => s.file.pos + buf.length < 2 ^ 64 ∧ (s.file.pos + buf.length ≤ s.file.inode.size ∨
      s.file.inode.size + (rounds v s.file.inode.size (s.file.pos + buf.length) + 1) * v.clusBytes < 2 ^ 64)

/-- What every call keeps. -/
structure Positioned (v : Fat32Inner) (s : Descriptor) : Prop where
  file : ∃ l lr, IsFile v s.dev s.file.inode l lr
  size : s.file.inode.size < 2 ^ 64
  pos : s.file.pos < 2 ^ 64

variable {v : Fat32Inner} {d : Device} {f : OpenFile} {s s' : Descriptor} {c : FileCall} {r : Except String Nat}

theorem Opened.positioned (h : Opened v s) : Positioned v s := by
  have hs := h.size
  have hp := h.pos
  exact ⟨h.file, by omega, by omega⟩

/-! ## Seeks -/

namespace OpenFile

variable {offset : Int} {whence : Nat}

/-- From a base below 2^63 to a position. -/
theorem seek_of_fits {b : Nat} (hb : f.base whence = some b) (h63 : b < 2 ^ 63) (h0 : 0 ≤ b + offset) (h1 : b + offset < 2 ^ 63) :
    f.seek offset whence = some (.ok (asU64 (b + offset)), { f with pos := asU64 (b + offset) }) := by
  have hadd : addI64 (asI64 b) offset = some (b + offset) := by
    rw [asI64_eq (by omega), if_pos h63, addI64, if_pos (by omega)]
  match whence with
  | 0 =>
    cases hb
    simp [seek]
  | 1 =>
    cases hb
    rw [seek, hadd, Option.map_some]
  | 2 =>
    cases hb
    rw [seek, hadd, Option.map_some]
  | n + 3 => cases hb

theorem seek_of_none (hb : f.base whence = none) : f.seek offset whence = some (.error "invalid whence", f) := by
  match whence with
  | 0 => cases hb
  | 1 => cases hb
  | 2 => cases hb
  | n + 3 => rfl

/-- With a base a seek never returns an error. -/
theorem seek_base {b : Nat} (hb : f.base whence = some b) {e : String} {g : OpenFile} : f.seek offset whence ≠ some (.error e, g) := by
  intro h
  match whence with
  | 0 => cases h
  | 1 =>
    obtain ⟨i, -, hi⟩ := Option.map_eq_some_iff.mp h
    cases hi
  | 2 =>
    obtain ⟨i, -, hi⟩ := Option.map_eq_some_iff.mp h
    cases hi
  | n + 3 => cases hb

theorem seek_keeps (hp : f.pos < 2 ^ 64) {g : OpenFile} (h : f.seek offset whence = some (r, g)) :
    g.inode = f.inode ∧ g.pos < 2 ^ 64 := by
  match whence with
  | 0 =>
    cases h
    exact ⟨rfl, asU64_lt _⟩
  | 1 =>
    obtain ⟨i, -, hi⟩ := Option.map_eq_some_iff.mp h
    cases hi
    exact ⟨rfl, asU64_lt _⟩
  | 2 =>
    obtain ⟨i, -, hi⟩ := Option.map_eq_some_iff.mp h
    cases hi
    exact ⟨rfl, asU64_lt _⟩
  | n + 3 =>
    cases h
    exact ⟨rfl, hp⟩

/-- From a base that `as i64` makes negative no seek comes to a position above it. -/
theorem seek_wrapped {b n : Nat} (hb : f.base whence = some b) (h63 : ¬ b < 2 ^ 63) (h64 : b < 2 ^ 64) {g : OpenFile}
    (h : f.seek offset whence = some (.ok n, g)) (hn : (n : Int) = b + offset) (hlt : n < 2 ^ 63) : False := by
  have hadd : ∀ i, addI64 (asI64 b) offset = some i → asU64 i = n → False := by
    intro i hi hu
    rw [asI64_eq h64, if_neg h63, addI64] at hi
    split at hi
    · cases hi
      have := asU64_eq (b - 2 ^ 64 + offset)
      omega
    · cases hi
  match whence with
  | 0 =>
    cases hb
    exact h63 (by decide)
  | 1 =>
    cases hb
    obtain ⟨i, hi, he⟩ := Option.map_eq_some_iff.mp h
    cases he
    exact hadd i hi rfl
  | 2 =>
    cases hb
    obtain ⟨i, hi, he⟩ := Option.map_eq_some_iff.mp h
    cases he
    exact hadd i hi rfl
  | n + 3 => cases hb

end OpenFile

/-- A seek does what it is for exactly if it is in range. -/
theorem seek_safe_iff (hs : Positioned v s) (x1 x2 : BitVec 64) :
    Safe s (.lseek x1 x2) (call v s (.lseek x1 x2)) ↔ InRange v s (.lseek x1 x2) := by
  rw [call, InRange]
  generalize hw : (x2.setWidth 32).toNat = whence
  cases hb : s.file.base whence with
  | none =>
    rw [OpenFile.seek_of_none hb, Option.map_some]
    refine iff_of_true ?_ fun b hm => by cases hm
    simp only [Safe, hw, hb]
    exact ⟨⟨_, rfl⟩, trivial⟩
  | some b =>
    have hlt : b < 2 ^ 64 := by
      have hp := hs.pos
      have hz := hs.size
      match whence with
      | 0 => cases hb; decide
      | 1 => cases hb; exact hp
      | 2 => cases hb; exact hz
      | n + 3 => cases hb
    constructor
    · intro h b' hm
      cases hm
      cases hsk : s.file.seek x1.toInt whence with
      | none =>
        rw [hsk] at h
        exact h.elim
      | some rg =>
        obtain ⟨r, g⟩ := rg
        rw [hsk, Option.map_some] at h
        simp only [Safe, hw, hb] at h
        split at h
        · next ht =>
          obtain ⟨n, rfl, hn, -⟩ := h
          refine ⟨?_, ht⟩
          by_contra h63
          exact OpenFile.seek_wrapped hb h63 hlt hsk hn (by omega)
        · obtain ⟨⟨e, rfl⟩, -⟩ := h
          exact absurd hsk (OpenFile.seek_base hb)
    · intro h
      obtain ⟨h63, h0, h1⟩ := h b rfl
      have hu : (asU64 (b + x1.toInt) : Int) = b + x1.toInt := by
        rw [asU64_eq]
        omega
      rw [OpenFile.seek_of_fits hb h63 h0 h1, Option.map_some]
      simp only [Safe, hw, hb]
      rw [if_pos ⟨h0, h1⟩]
      exact ⟨_, rfl, hu, rfl⟩

/-! ## Reads and writes -/

theorem length_readChain_le (n c boff remain : Nat) : (readChain v d n c boff remain).length ≤ remain := by
  induction n generalizing c boff remain with
  | zero => exact Nat.zero_le _
  | succ n ih =>
    rw [readChain]
    split
    · dsimp only
      have h := ih (v.readFatEntry d c) 0 (remain - min (v.clusBytes - boff) remain)
      rw [List.length_append, slice, List.length_map, List.length_range]
      omega
    · exact Nat.zero_le _

/-- A read ends within the file. -/
theorem length_readAt_le (ino : Fat32Inode) (off len : Nat) : (ino.readAt v d off len).length ≤ ino.size - off := by
  rw [Fat32Inode.readAt]
  split
  · exact Nat.zero_le _
  · dsimp only
    split
    · exact Nat.zero_le _
    · exact (length_readChain_le ..).trans (Nat.min_le_right ..)

theorem OpenFile.readChecked_eq (hs : f.inode.size < 2 ^ 64) (hp : f.pos < 2 ^ 64) (len : Nat) :
    f.readChecked v d len = some (f.read v d len) := by
  have h := length_readAt_le (v := v) (d := d) f.inode f.pos len
  have hpos : (f.read v d len).2.pos = f.pos + (f.inode.readAt v d f.pos len).length := rfl
  rw [readChecked]
  exact if_pos (by omega)

/-- Every round starts before the end of the write and comes closer by a cluster. -/
theorem extendFits_of_le (hv : v.WellFormed) {endNeeded n current last : Nat}
    (h : current + (rounds v current endNeeded + 1) * v.clusBytes < 2 ^ 64) : extendFits v endNeeded n d current last = true := by
  have hcb := WellFormed.clusBytes_pos hv
  induction n generalizing d current last with
  | zero => rfl
  | succ n ih =>
    have hfit : current + v.clusBytes < 2 ^ 64 := by
      rw [Nat.succ_mul] at h
      omega
    rw [extendFits, if_pos hfit]
    split
    · next hlt =>
      have hr : rounds v current endNeeded = rounds v (current + v.clusBytes) endNeeded + 1 := by
        unfold rounds
        rw [← Nat.add_div_right _ hcb]
        congr 1
        omega
      have h' : current + v.clusBytes + (rounds v (current + v.clusBytes) endNeeded + 1) * v.clusBytes < 2 ^ 64 := by
        rw [hr, Nat.succ_mul] at h
        omega
      dsimp only
      split
      · split
        · rfl
        · exact ih h'
      · exact ih h'
    · rfl

theorem writeFits_of_inRange (hv : v.WellFormed) {buf : List UInt8} (h : InRange v s (.write buf)) :
    s.file.inode.writeFits v s.dev s.file.pos buf = true := by
  obtain ⟨hend, hr⟩ := h
  rw [writeFits, Bool.or_eq_true, Bool.and_eq_true, Bool.or_eq_true, Bool.or_eq_true]
  refine Or.inr ⟨decide_eq_true hend, ?_⟩
  rcases hr with hle | hr
  · exact Or.inl (Or.inl (decide_eq_true hle))
  · exact Or.inr (extendFits_of_le hv hr)

/-- A write returns the number of bytes it was given, or an error and the inode as it was. -/
theorem IsFile.writeAt_cases {l lr : List Nat} {ino : Fat32Inode} (h : IsFile v d ino l lr) (off : Nat) (buf : List UInt8) :
    ∃ r d' ino', ino.writeAt v d off buf = some (r, d', ino') ∧
      (r = .ok buf.length ∧ ino'.size ≤ max ino.size (off + buf.length) ∨ (∃ e, r = .error e) ∧ ino'.size = ino.size) := by
  by_cases hb : buf = []
  · subst hb
    exact ⟨_, _, _, rfl, Or.inl ⟨rfl, Nat.le_max_left ..⟩⟩
  rcases h.file with hF | ⟨h2, -, h0⟩
  · rcases hF.writeAt off hb with ⟨d1, l2, he, -⟩ | ⟨d1, l2, he, -⟩
    · exact ⟨_, _, _, he, Or.inl ⟨rfl, Nat.le_refl _⟩⟩
    · exact ⟨_, _, _, he, Or.inr ⟨⟨_, rfl⟩, rfl⟩⟩
  · refine ⟨_, _, _, IsFile.writeAt_empty h2 h0 d off buf, Or.inr ⟨⟨"empty file, not supported yet", ?_⟩, rfl⟩⟩
    rw [if_neg (by rwa [List.isEmpty_iff])]

/-- Every call in range returns, keeps what is known of the file and does what it is for. -/
theorem call_spec (hs : Positioned v s) (hok : InRange v s c) : ∃ r s', call v s c = some (r, s') ∧ Positioned v s' ∧ Safe s c (some (r, s')) := by
  obtain ⟨l, lr, hf⟩ := hs.file
  cases c with
  | lseek x1 x2 =>
    have hsafe := (seek_safe_iff hs x1 x2).mpr hok
    cases hc : call v s (.lseek x1 x2) with
    | none =>
      rw [hc] at hsafe
      exact hsafe.elim
    | some rs =>
      obtain ⟨r, s'⟩ := rs
      rw [hc] at hsafe
      refine ⟨r, s', rfl, ?_, hsafe⟩
      obtain ⟨⟨r', g⟩, hg, he⟩ := Option.map_eq_some_iff.mp hc
      cases he
      obtain ⟨hi, hp⟩ := OpenFile.seek_keeps hs.pos hg
      exact ⟨⟨l, lr, by rw [hi]; exact hf⟩, by rw [hi]; exact hs.size, hp⟩
  | read len =>
    rw [call]
    split
    · exact ⟨_, _, rfl, hs, rfl⟩
    · rw [OpenFile.readChecked_eq hs.size hs.pos, Option.map_some]
      have hle := length_readAt_le (v := v) (d := s.dev) s.file.inode s.file.pos len
      have hz := hs.size
      have hp := hs.pos
      refine ⟨_, _, rfl, ⟨⟨l, lr, hf⟩, hz, ?_⟩, rfl⟩
      show s.file.pos + (s.file.inode.readAt v s.dev s.file.pos len).length < 2 ^ 64
      omega
  | write buf =>
    rw [call]
    split
    · exact ⟨_, _, rfl, hs, rfl⟩
    · obtain ⟨r, d', ino', hw, hr⟩ := hf.writeAt_cases s.file.pos buf
      obtain ⟨l', hf'⟩ := hf.writeAt hw
      have hz := hs.size
      have hend := hok.1
      rw [OpenFile.write, if_pos (writeFits_of_inRange hf.wf hok), hw, Option.bind_some]
      rcases hr with ⟨rfl, hsz⟩ | ⟨⟨e, rfl⟩, hsz⟩
      · dsimp only
        rw [if_pos hend, Option.map_some]
        refine ⟨_, _, rfl, ⟨⟨l', lr, hf'⟩, ?_, hend⟩, rfl⟩
        show ino'.size < 2 ^ 64
        omega
      · exact ⟨_, _, rfl, ⟨⟨l', lr, hf'⟩, hsz ▸ hz, hs.pos⟩, rfl⟩

theorem Reach.positioned (h : Reach (step v) (InRange v) (Opened v) s) : Positioned v s := by
  refine h.rule (P := Positioned v) (fun _ h => h.positioned) fun s c s' hs hok he => ?_
  obtain ⟨r, s1, hc, hs1, -⟩ := call_spec hs hok
  rw [step, hc, Option.map_some] at he
  cases he
  exact hs1

theorem fullFile_opened : Opened small ⟨oneFile, .new fullFile 0⟩ := ⟨⟨[3], [2], fullFile_isFile⟩, by decide, rfl⟩

end Myos.Fat

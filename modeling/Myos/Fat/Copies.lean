/-
  Myos.Fat.Copies — the two copies of the FAT, and the sectors written, over runs of calls.

  The inodes that were looked up or created are held and stay usable after their chains were
  freed, so a call can follow a link of a free entry (0), and from there that of entry 0.

  `Copies`: a set of entries that no link leads out of but to an end mark; the copies of the FAT
  are equal and nothing but FATs and data clusters was written. Every call keeps it if its links
  start in the set, and the only numbers that do not come from the FAT are those in slots.

  Proved: in every run whose lookups and removals take slots with cluster numbers from which the
  links stay in the FAT, the copies are equal and no other sector changed.
-/

import Myos.Fat.Bounds
import Myos.Fat.Loops
import Myos.Fat.Operations
import Myos.Lib.Runs

namespace Myos.Fat

open Lib Fat32Inner Fat32Inode

variable {v : Fat32Inner} {d d' d0 : Device} {S T : Set Nat} {c x i n s : Nat} {buf : Buf} {p : Buf → Nat → Bool} {ino : Fat32Inode}
  {name : Str}

/-- The copies of the FAT are equal, sector by sector. -/
def Mirrored (v : Fat32Inner) (d : Device) : Prop :=
  ∀ i < v.fatSz32, readSector d (v.fatStart + i) = readSector d (v.fatStart + v.fatSz32 + i)

/-- A sector of a FAT or of a data cluster with an entry. -/
def Writable (v : Fat32Inner) (s : Nat) : Prop :=
  v.fatStart ≤ s ∧ s < v.dataStart ∨
    ∃ c, 2 ≤ c ∧ c < v.total ∧ v.clusterToSector c ≤ s ∧ s < v.clusterToSector c + v.secPerClus

/-- The other sectors are as they were. -/
def Untouched (v : Fat32Inner) (d0 d : Device) : Prop := ∀ s, ¬ Writable v s → readSector d s = readSector d0 s

/-- The entries that the links from `c` lead to, up to an end mark. -/
inductive Linked (v : Fat32Inner) (d : Device) (c : Nat) : Nat → Prop where
  | start : Linked v d c c
  | link {y : Nat} : Linked v d c y → v.readFatEntry d y < fatEoc → Linked v d c (v.readFatEntry d y)

/-- The links from `c` lead to entries of the FAT until an end mark. -/
def StaysIn (v : Fat32Inner) (d : Device) (c : Nat) : Prop := ∀ y, Linked v d c y → y < v.total

structure Copies (v : Fat32Inner) (d0 d : Device) (S : Set Nat) : Prop where
  zero : 0 ∈ S
  root : v.rootClus ∈ S
  lt : ∀ y ∈ S, y < v.total
  closed : ∀ y ∈ S, v.readFatEntry d y < fatEoc → v.readFatEntry d y ∈ S
  mirror : Mirrored v d
  outside : Untouched v d0 d

/-- Two FATs. -/
structure TwoFats (v : Fat32Inner) : Prop where
  wf : v.WellFormed
  two : v.numFats = 2

theorem TwoFats.dataStart (hv : TwoFats v) : v.dataStart = v.fatStart + 2 * v.fatSz32 := by
  rw [hv.wf.dataStart, hv.two]

/-- Both copies get the sector with the entry. -/
theorem TwoFats.readSector_writeFatEntry (hv : TwoFats v) : ∃ b : Buf, ∀ s, readSector (v.writeFatEntry d c x) s =
    if s = v.fatStart + c * 4 / 512 ∨ s = v.fatStart + c * 4 / 512 + v.fatSz32 then b else readSector d s := by
  refine ⟨Buf.copyAt (readSector d (v.fatStart + c * 4 / 512)) (c * 4 % 512) (Buf.toLe32 (x % (fatMask + 1))), fun s => ?_⟩
  unfold writeFatEntry
  dsimp only
  rw [if_pos (by rw [hv.two]; decide)]
  by_cases h2 : s = v.fatStart + c * 4 / 512 + v.fatSz32
  · rw [if_pos (Or.inr h2), h2, writeSector_self]
  · rw [writeSector_of_ne h2]
    by_cases h1 : s = v.fatStart + c * 4 / 512
    · rw [if_pos (Or.inl h1), h1, writeSector_self]
    · rw [if_neg (not_or.mpr ⟨h1, h2⟩), writeSector_of_ne h1]

namespace Copies

/-! ## Writing an entry or a cluster -/

theorem writeFat (h : Copies v d0 d S) (hv : TwoFats v) (hc : c < v.total) (hx : x % (fatMask + 1) < fatEoc → x % (fatMask + 1) ∈ S) :
    Copies v d0 (v.writeFatEntry d c x) S := by
  have hlt := fatSector_lt hc
  have hds := hv.dataStart
  refine ⟨h.zero, h.root, h.lt, fun y hy => ?_, fun i hi => ?_, fun s hs => ?_⟩
  · rw [readFatEntry_writeFatEntry (h.lt y hy)]
    split
    · exact hx
    · exact h.closed y hy
  · obtain ⟨b, hb⟩ := hv.readSector_writeFatEntry (d := d) (c := c) (x := x)
    rw [hb, hb]
    by_cases he : i = c * 4 / 512
    · rw [if_pos (Or.inl (by rw [he])), if_pos (Or.inr (by omega))]
    · rw [if_neg (by omega), if_neg (by omega)]
      exact h.mirror i hi
  · rw [← h.outside s hs]
    by_contra hne
    refine hs (Or.inl ?_)
    rcases writeFatEntry_changed hne with he | ⟨he, -⟩ <;> omega

theorem writeCluster (h : Copies v d0 d S) (hv : TwoFats v) (h2 : 2 ≤ c) (hc : c < v.total) (buf : Buf) :
    Copies v d0 (v.writeCluster d c buf) S := by
  have hkeep : ∀ s, ¬ (v.clusterToSector c ≤ s ∧ s < v.clusterToSector c + v.secPerClus) →
      readSector (v.writeCluster d c buf) s = readSector d s := fun s hs => by
    by_contra hne
    exact hs (writeCluster_changed hne)
  have hdata : v.dataStart ≤ v.clusterToSector c := Nat.le_add_right ..
  have hds := hv.dataStart
  refine ⟨h.zero, h.root, h.lt, fun y hy => ?_, fun i hi => ?_, fun s hs => ?_⟩
  · rw [readFatEntry_writeCluster hv.wf (h.lt y hy)]
    exact h.closed y hy
  · rw [hkeep _ (by omega), hkeep _ (by omega)]
    exact h.mirror i hi
  · rw [hkeep s fun hin => hs (Or.inr ⟨c, h2, hc, hin⟩)]
    exact h.outside s hs

/-- More entries that no link leads out of. -/
theorem grow (h : Copies v d0 d S) (hST : S ⊆ T) (hlt : ∀ y ∈ T, y < v.total)
    (hcl : ∀ y ∈ T, v.readFatEntry d y < fatEoc → v.readFatEntry d y ∈ T) : Copies v d0 d T :=
  ⟨hST h.zero, hST h.root, hlt, hcl, h.mirror, h.outside⟩

theorem grow_linked (h : Copies v d0 d S) (hc : StaysIn v d c) : ∃ T, S ⊆ T ∧ c ∈ T ∧ Copies v d0 d T := by
  refine ⟨S ∪ {y | Linked v d c y}, Set.subset_union_left, Or.inr .start, h.grow Set.subset_union_left (fun y hy => ?_) fun y hy hl => ?_⟩
  · exact hy.elim (h.lt y) (hc y)
  · exact hy.imp (fun hy => h.closed y hy hl) fun hy => .link hy hl

theorem alloc (h : Copies v d0 d S) (hv : TwoFats v) (ha : v.allocCluster d = .ok (c, d')) : ∃ T, S ⊆ T ∧ c ∈ T ∧ Copies v d0 d' T := by
  have ht := allocCluster_ok hv.wf ha
  rw [allocCluster_device ha]
  have h1 : Copies v d0 d (insert c S) := h.grow (Set.subset_insert ..) (fun y hy => hy.elim (fun e => e ▸ ht.upper) (h.lt y)) fun y hy hl => by
    rcases hy with rfl | hy
    · rw [ht.free]
      exact Set.mem_insert_of_mem _ h.zero
    · exact Set.mem_insert_of_mem _ (h.closed y hy hl)
  have hend : fatEoc % (fatMask + 1) < fatEoc → fatEoc % (fatMask + 1) ∈ insert c S := fun hlt => absurd hlt (by decide)
  exact ⟨insert c S, Set.subset_insert .., Set.mem_insert .., (h1.writeFat hv ht.upper hend).writeCluster hv ht.lower ht.upper _⟩

/-! ## Walks -/

theorem writeLink (h : Copies v d0 d S) (hv : TwoFats v) (hc : c ∈ S) (hx : x ∈ S) : Copies v d0 (v.writeFatEntry d c x) S := by
  refine h.writeFat hv (h.lt c hc) fun _ => ?_
  have hmod : x % (fatMask + 1) = x := Nat.mod_eq_of_lt ((h.lt x hx).trans_le (hv.wf.total.trans (by decide)))
  rwa [hmod]

/-- A slot that a scan finds is in a cluster of the set. -/
theorem finds (h : Copies v d0 d S) (hf : Finds v d p c x i) (hc : c ∈ S) : x ∈ S ∧ 2 ≤ x := by
  have hin : ∀ {y}, inData y = true → 2 ≤ y ∧ y < fatEoc := fun hy => of_decide_eq_true hy
  induction hf with
  | here hd _ => exact ⟨hc, (hin hd).1⟩
  | next hd _ hf ih =>
    refine ih (h.closed _ hc ?_)
    cases hf with
    | here hd' _ => exact (hin hd').2
    | next hd' _ _ => exact (hin hd').2

theorem freeChain (h : Copies v d0 d S) (hv : TwoFats v) (hc : inData c = true → c ∈ S) (hr : v.freeChain n d c = some d') :
    Copies v d0 d' S := by
  induction n generalizing d c with
  | zero => cases hr
  | succ n ih =>
    rw [Fat32Inner.freeChain] at hr
    split at hr
    · next hd =>
      have hcS := hc hd
      refine ih (h.writeLink hv hcS h.zero) (fun hd' => h.closed c hcS ?_) hr
      exact (of_decide_eq_true hd' : 2 ≤ _ ∧ _ < fatEoc).2
    · cases hr
      exact h

theorem chainTail (h : Copies v d0 d S) (hc : c ∈ S) (hr : v.chainTail d n c = some x) : x ∈ S := by
  induction n generalizing c with
  | zero => cases hr
  | succ n ih =>
    rw [Fat32Inner.chainTail] at hr
    split at hr
    · cases hr
      exact hc
    · next hn => exact ih (h.closed c hc (Nat.not_le.mp hn)) hr

theorem walkTo (h : Copies v d0 d S) (hc : c ∈ S) (k : Nat) : walkTo v d k c ∈ S := by
  induction k generalizing c with
  | zero => exact hc
  | succ k ih =>
    rw [Fat32Inode.walkTo]
    split
    · exact hc
    · next hn => exact ih (h.closed c hc (Nat.not_le.mp hn))

/-! ## Files -/

theorem extend {endNeeded current last : Nat} {r : Except String Unit} (h : Copies v d0 d S) (hv : TwoFats v) (hl : last ∈ S)
    (hr : Fat32Inode.extend v endNeeded n d current last = some (r, d')) : ∃ T, S ⊆ T ∧ Copies v d0 d' T := by
  induction n generalizing d S current last with
  | zero => cases hr
  | succ n ih =>
    rw [Fat32Inode.extend] at hr
    split at hr
    · dsimp only at hr
      split at hr
      · cases ha : v.allocCluster d with
        | error e =>
          rw [ha] at hr
          cases hr
          exact ⟨S, subset_rfl, h⟩
        | ok q =>
          rw [ha] at hr
          obtain ⟨T, hST, hq, hT⟩ : ∃ T, S ⊆ T ∧ q.1 ∈ T ∧ Copies v d0 q.2 T := h.alloc hv ha
          obtain ⟨U, hTU, hU⟩ := ih (hT.writeLink hv (hST hl) hq) hq hr
          exact ⟨U, hST.trans hTU, hU⟩
      · next hn => exact ih h (h.closed last hl (Nat.not_le.mp hn)) hr
    · cases hr
      exact ⟨S, subset_rfl, h⟩

theorem writeData {first pos : Nat} {bytes : List UInt8} (h : Copies v d0 d S) (hv : TwoFats v) (hf : first ∈ S) :
    Copies v d0 (Fat32Inode.writeData v first n d pos bytes).2 S := by
  induction n generalizing d pos bytes with
  | zero => exact h
  | succ n ih =>
    rw [Fat32Inode.writeData]
    split
    · exact h
    · dsimp only
      split
      · exact h
      · next h2 =>
        have hw := h.walkTo hf (pos / v.clusBytes)
        exact ih (h.writeCluster hv (Nat.not_lt.mp h2) (h.lt _ hw) _)

theorem updateEntrySize {size : Nat} {r : Except String Unit} (h : Copies v d0 d S) (hv : TwoFats v)
    (hr : v.updateEntrySize d c size = some (r, d')) : Copies v d0 d' S := by
  obtain ⟨o, ho, he⟩ := Option.map_eq_some_iff.mp hr
  cases o with
  | none =>
    cases he
    exact h
  | some xi =>
    cases he
    obtain ⟨hx, h2⟩ := h.finds (finds_iff.mp ho) h.root
    exact h.writeCluster hv h2 (h.lt _ hx) _

theorem writeAt {off : Nat} {bytes : List UInt8} {r : Except String Nat} {ino' : Fat32Inode} (h : Copies v d0 d S) (hv : TwoFats v)
    (hi : ino.firstCluster ∈ S) (hr : ino.writeAt v d off bytes = some (r, d', ino')) :
    ∃ T, S ⊆ T ∧ ino'.firstCluster ∈ T ∧ Copies v d0 d' T := by
  unfold Fat32Inode.writeAt at hr
  split at hr
  · cases hr
    exact ⟨S, subset_rfl, hi, h⟩
  · dsimp only at hr
    obtain ⟨⟨r1, d1⟩, h1, hr⟩ := Option.bind_eq_some_iff.mp hr
    have hgrown : ∃ T, S ⊆ T ∧ Copies v d0 d1 T := by
      split at h1
      · split at h1
        · cases h1
          exact ⟨S, subset_rfl, h⟩
        · exact h.extend hv hi h1
      · cases h1
        exact ⟨S, subset_rfl, h⟩
    obtain ⟨T, hST, hT⟩ := hgrown
    cases r1 with
    | error e =>
      cases hr
      exact ⟨T, hST, hST hi, hT⟩
    | ok u =>
      obtain ⟨⟨r2, d2⟩, h2, he⟩ := Option.map_eq_some_iff.mp hr
      cases he
      exact ⟨T, hST, hST hi, (hT.writeData hv (hST hi)).updateEntrySize hv h2⟩

theorem truncate {ino' : Fat32Inode} (h : Copies v d0 d S) (hv : TwoFats v) (hi : ino.firstCluster ∈ S)
    (hr : ino.truncate v d = some (d', ino')) : ino'.firstCluster ∈ S ∧ Copies v d0 d' S := by
  obtain ⟨d1, h1, he⟩ := Option.map_eq_some_iff.mp hr
  cases he
  refine ⟨hi, ?_⟩
  split at h1
  · exact h.freeChain hv (fun _ => hi) h1
  · cases h1
    exact h

/-! ## Directories -/

theorem addEntry {raw : List UInt8} {r : Except String Unit} (h : Copies v d0 d S) (hv : TwoFats v) (hi : ino.firstCluster ∈ S)
    (hr : Fat32Inode.addEntry v d ino raw = some (r, d')) : ∃ T, S ⊆ T ∧ Copies v d0 d' T := by
  unfold Fat32Inode.addEntry at hr
  obtain ⟨o, ho, hr⟩ := Option.bind_eq_some_iff.mp hr
  cases o with
  | some xi =>
    cases hr
    obtain ⟨hx, h2⟩ := h.finds (finds_iff.mp ho) hi
    exact ⟨S, subset_rfl, h.writeCluster hv h2 (h.lt _ hx) _⟩
  | none =>
    cases ha : v.allocCluster d with
    | error e =>
      rw [ha] at hr
      cases hr
      exact ⟨S, subset_rfl, h⟩
    | ok q =>
      rw [ha] at hr
      obtain ⟨d2, h2, he⟩ := Option.map_eq_some_iff.mp hr
      cases he
      have ht : Taken v d q.1 q.2 := allocCluster_ok hv.wf ha
      obtain ⟨T, hST, hq, hT⟩ : ∃ T, S ⊆ T ∧ q.1 ∈ T ∧ Copies v d0 q.2 T := h.alloc hv ha
      refine ⟨T, hST, Copies.writeCluster ?_ hv ht.lower ht.upper _⟩
      split at h2
      · obtain ⟨z, hz, he⟩ := Option.map_eq_some_iff.mp h2
        cases he
        exact hT.writeLink hv (hT.chainTail (hST hi) hz) hq
      · cases h2
        exact hT

theorem create {isDir : Bool} {r : Except String Fat32Inode} (h : Copies v d0 d S) (hv : TwoFats v) (hi : ino.firstCluster ∈ S)
    (hr : ino.create v d name isDir = some (r, d')) : ∃ T, S ⊆ T ∧ Copies v d0 d' T ∧ ∀ f, r = .ok f → f.firstCluster ∈ T := by
  unfold Fat32Inode.create at hr
  split at hr
  · cases hr
    exact ⟨S, subset_rfl, h, fun f hf => by cases hf⟩
  · cases henc : encodeShortName name with
    | error e =>
      rw [henc] at hr
      cases hr
      exact ⟨S, subset_rfl, h, fun f hf => by cases hf⟩
    | ok raw =>
      rw [henc] at hr
      cases ha : v.allocCluster d with
      | error e =>
        rw [ha] at hr
        cases hr
        exact ⟨S, subset_rfl, h, fun f hf => by cases hf⟩
      | ok q =>
        rw [ha] at hr
        have ht : Taken v d q.1 q.2 := allocCluster_ok hv.wf ha
        obtain ⟨T, hST, hq, hT⟩ : ∃ T, S ⊆ T ∧ q.1 ∈ T ∧ Copies v d0 q.2 T := h.alloc hv ha
        obtain ⟨⟨r1, d1⟩, h1, he⟩ := Option.map_eq_some_iff.mp hr
        have hinit : Copies v d0 (if isDir then v.writeCluster q.2 q.1 (dirInit q.1 ino.firstCluster) else q.2) T := by
          split
          · exact hT.writeCluster hv ht.lower ht.upper _
          · exact hT
        obtain ⟨U, hTU, hU⟩ := hinit.addEntry hv (hST hi) h1
        cases r1 with
        | error e =>
          cases he
          exact ⟨U, hST.trans hTU, hU, fun f hf => by cases hf⟩
        | ok u =>
          cases he
          refine ⟨U, hST.trans hTU, hU, fun f hf => ?_⟩
          cases hf
          exact hTU hq

theorem remove {r : Except String Unit} (h : Copies v d0 d S) (hv : TwoFats v) (hi : ino.firstCluster ∈ S)
    (hfit : ∀ x i, Finds v d (removeMatch name) ino.firstCluster x i → inData (entCluster (v.readCluster d x) i) = true →
      StaysIn v d (entCluster (v.readCluster d x) i))
    (hr : ino.remove v d name = some (r, d')) : ∃ T, S ⊆ T ∧ Copies v d0 d' T := by
  unfold Fat32Inode.remove at hr
  split at hr
  · cases hr
    exact ⟨S, subset_rfl, h⟩
  · obtain ⟨o, ho, hr⟩ := Option.bind_eq_some_iff.mp hr
    cases o with
    | none =>
      cases hr
      exact ⟨S, subset_rfl, h⟩
    | some xi =>
      have hF := finds_iff.mp ho
      obtain ⟨hx, h2⟩ := h.finds hF hi
      obtain ⟨d1, h1, he⟩ := Option.map_eq_some_iff.mp hr
      cases he
      by_cases hd : inData (entCluster (v.readCluster d xi.1) xi.2) = true
      · obtain ⟨T, hST, hfc, hT⟩ := h.grow_linked (hfit xi.1 xi.2 hF hd)
        have hW := hT.writeCluster hv h2 (h.lt _ hx) (Buf.copyAt (v.readCluster d xi.1) xi.2 [0xE5])
        refine ⟨T, hST, ?_⟩
        split at h1
        · exact hW.freeChain hv (fun _ => hfc) h1
        · cases h1
          exact hW
      · have hW := h.writeCluster hv h2 (h.lt _ hx) (Buf.copyAt (v.readCluster d xi.1) xi.2 [0xE5])
        refine ⟨S, subset_rfl, ?_⟩
        split at h1
        · exact hW.freeChain hv (fun hd' => absurd hd' hd) h1
        · cases h1
          exact hW

end Copies

/-! ## Runs -/

/-- The device, and the inodes that are held. -/
structure Held where
  dev : Device
  inodes : List Fat32Inode

/-- A call through the inode with the number `k`; `root` is `root_inode`. -/
inductive Call where
  | root
  | lookup (k : Nat) (name : Str)
  | create (k : Nat) (name : Str) (isDir : Bool)
  | writeAt (k off : Nat) (bytes : List UInt8)
  | truncate (k : Nat)
  | remove (k : Nat) (name : Str)

/-- The calls that return. -/
def Held.step (v : Fat32Inner) (s : Held) : Call → Option Held
  | .root => (root v s.dev).map fun f => { s with inodes := s.inodes ++ [f] }
  | .lookup k name => (s.inodes[k]?).bind fun ino => (ino.lookup v s.dev name).map fun
    | .ok f => { s with inodes := s.inodes ++ [f] }
    | .error _ => s
  | .create k name isDir => (s.inodes[k]?).bind fun ino => (ino.create v s.dev name isDir).map fun
    | (.ok f, d) => ⟨d, s.inodes ++ [f]⟩
    | (.error _, d) => ⟨d, s.inodes⟩
  | .writeAt k off bytes => (s.inodes[k]?).bind fun ino => (ino.writeAt v s.dev off bytes).map fun (_, d, ino) =>
    ⟨d, s.inodes.set k ino⟩
  | .truncate k => (s.inodes[k]?).bind fun ino => (ino.truncate v s.dev).map fun (d, ino) => ⟨d, s.inodes.set k ino⟩
  | .remove k name => (s.inodes[k]?).bind fun ino => (ino.remove v s.dev name).map fun (_, d) => ⟨d, s.inodes⟩

/-- The slot that a lookup or a removal takes has a cluster number from which the links stay in the FAT; a
    removal may take one without a chain. -/
def Fits (v : Fat32Inner) (s : Held) : Call → Prop
  | .lookup k name => ∀ ino ∈ s.inodes[k]?, ∀ x i, Finds v s.dev (lookupMatch name) ino.firstCluster x i →
      StaysIn v s.dev (entCluster (v.readCluster s.dev x) i)
  | .remove k name => ∀ ino ∈ s.inodes[k]?, ∀ x i, Finds v s.dev (removeMatch name) ino.firstCluster x i →
      inData (entCluster (v.readCluster s.dev x) i) = true → StaysIn v s.dev (entCluster (v.readCluster s.dev x) i)
  | _ => True

/-- The copies are equal, and the inodes held lead to entries of the set. -/
def Sane (v : Fat32Inner) (d0 : Device) (s : Held) : Prop :=
  ∃ S, Copies v d0 s.dev S ∧ ∀ ino ∈ s.inodes, ino.firstCluster ∈ S

theorem Sane.step (hv : TwoFats v) {s s' : Held} {e : Call} (h : Sane v d0 s) (hok : Fits v s e) (hs : s.step v e = some s') :
    Sane v d0 s' := by
  obtain ⟨S, hC, hI⟩ := h
  have hold : ∀ {k : Nat} {ino : Fat32Inode}, s.inodes[k]? = some ino → ino.firstCluster ∈ S := fun hk => hI _ (List.mem_of_getElem? hk)
  have hadd : ∀ {T : Set Nat} {f : Fat32Inode}, S ⊆ T → f.firstCluster ∈ T → ∀ ino : Fat32Inode, ino ∈ s.inodes ++ [f] → ino.firstCluster ∈ T := by
    intro T f hST hf ino hm
    rcases List.mem_append.mp hm with hm | hm
    · exact hST (hI ino hm)
    · rw [List.mem_singleton.mp hm]
      exact hf
  have hset : ∀ {T : Set Nat} {f : Fat32Inode} {k : Nat}, S ⊆ T → f.firstCluster ∈ T →
      ∀ ino : Fat32Inode, ino ∈ s.inodes.set k f → ino.firstCluster ∈ T := by
    intro T f k hST hf ino hm
    rcases List.mem_or_eq_of_mem_set hm with hm | rfl
    · exact hST (hI ino hm)
    · exact hf
  cases e with
  | root =>
    obtain ⟨f, hf, rfl⟩ := Option.map_eq_some_iff.mp hs
    obtain ⟨size, -, rfl⟩ := Option.map_eq_some_iff.mp hf
    exact ⟨S, hC, hadd subset_rfl hC.root⟩
  | lookup k name =>
    obtain ⟨ino, hk, hs⟩ := Option.bind_eq_some_iff.mp hs
    obtain ⟨r, hr, rfl⟩ := Option.map_eq_some_iff.mp hs
    cases r with
    | error e => exact ⟨S, hC, hI⟩
    | ok f =>
      obtain ⟨x, i, size, hF, -, rfl⟩ := lookup_ok_iff.mp hr
      obtain ⟨T, hST, hf, hT⟩ := hC.grow_linked (hok ino hk x i hF)
      exact ⟨T, hT, hadd hST hf⟩
  | create k name isDir =>
    obtain ⟨ino, hk, hs⟩ := Option.bind_eq_some_iff.mp hs
    obtain ⟨⟨r, d⟩, hr, rfl⟩ := Option.map_eq_some_iff.mp hs
    obtain ⟨T, hST, hT, hf⟩ := hC.create hv (hold hk) hr
    cases r with
    | error e => exact ⟨T, hT, fun ino hm => hST (hI ino hm)⟩
    | ok f => exact ⟨T, hT, hadd hST (hf f rfl)⟩
  | writeAt k off bytes =>
    obtain ⟨ino, hk, hs⟩ := Option.bind_eq_some_iff.mp hs
    obtain ⟨⟨r, d, ino'⟩, hr, rfl⟩ := Option.map_eq_some_iff.mp hs
    obtain ⟨T, hST, hf, hT⟩ := hC.writeAt hv (hold hk) hr
    exact ⟨T, hT, hset hST hf⟩
  | truncate k =>
    obtain ⟨ino, hk, hs⟩ := Option.bind_eq_some_iff.mp hs
    obtain ⟨⟨d, ino'⟩, hr, rfl⟩ := Option.map_eq_some_iff.mp hs
    obtain ⟨hf, hT⟩ := hC.truncate hv (hold hk) hr
    exact ⟨S, hT, hset subset_rfl hf⟩
  | remove k name =>
    obtain ⟨ino, hk, hs⟩ := Option.bind_eq_some_iff.mp hs
    obtain ⟨⟨r, d⟩, hr, rfl⟩ := Option.map_eq_some_iff.mp hs
    obtain ⟨T, hST, hT⟩ := hC.remove hv (hold hk) (hok ino hk) hr
    exact ⟨T, hT, fun ino hm => hST (hI ino hm)⟩

/-- In every run whose lookups and removals take slots with links that stay in the FAT, the copies are equal and
    nothing but FATs and data clusters has changed. -/
theorem copies_equal (hv : v.WellFormed) (h2 : v.numFats = 2) (hm : Mirrored v d0) (h0 : StaysIn v d0 0) (hr : StaysIn v d0 v.rootClus)
    {s : Held} (h : Reach (Held.step v) (Fits v) (fun s => s = ⟨d0, []⟩) s) : Mirrored v s.dev ∧ Untouched v d0 s.dev := by
  have hinv : Sane v d0 s := by
    refine Reach.rule (P := Sane v d0) (fun s hs => ?_) (fun s e s' h hok hs => h.step ⟨hv, h2⟩ hok hs) h
    subst hs
    refine ⟨{y | Linked v d0 0 y} ∪ {y | Linked v d0 v.rootClus y}, ⟨Or.inl .start, Or.inr .start, ?_, ?_, hm, fun s _ => rfl⟩, ?_⟩
    · exact fun y hy => hy.elim (h0 y) (hr y)
    · exact fun y hy hl => hy.imp (fun hy => .link hy hl) fun hy => .link hy hl
    · intro ino hino
      cases hino
  obtain ⟨S, hC, -⟩ := hinv
  exact ⟨hC.mirror, hC.outside⟩

/-! ## A cluster number past the entries -/

/-- One sector a cluster, two FATs of one sector, the root in cluster 2. -/
def twoCopies : Fat32Inner := ⟨1, 2, 1, 2, 1, 3⟩

theorem twoCopies_wf : twoCopies.WellFormed := ⟨by decide, by decide, by decide, by decide, by decide, by decide⟩

def emptyRoot : Device := twoCopies.writeFatEntry (twoCopies.writeFatEntry (fun _ => zeroBuf) 0 fatEoc) 2 fatEoc

theorem emptyRoot_mirrored : Mirrored twoCopies emptyRoot := by
  intro i hi
  obtain rfl : i = 0 := Nat.lt_one_iff.mp hi
  funext off
  rfl

theorem emptyRoot_staysIn {c : Nat} (hc : c < twoCopies.total) (he : fatEoc ≤ twoCopies.readFatEntry emptyRoot c) :
    StaysIn twoCopies emptyRoot c := by
  have hself : ∀ y, Linked twoCopies emptyRoot c y → y = c := by
    intro y hy
    induction hy with
    | start => rfl
    | link _ hl ih =>
      rw [ih] at hl
      exact absurd he (Nat.not_le.mpr hl)
  intro y hy
  rw [hself y hy]
  exact hc

/-- A file is made and written, and written again through the inode after its chain was freed. -/
def fileCalls : List Call := [.root, .create 0 ['F'] false, .writeAt 1 0 [7], .truncate 1, .writeAt 1 1100 [8]]

theorem copies_equal_fileCalls : ∃ s, trace (Held.step twoCopies) ⟨emptyRoot, []⟩ fileCalls = some s ∧ s.inodes.length = 2 ∧
    Mirrored twoCopies s.dev ∧ Untouched twoCopies emptyRoot s.dev := by
  have hmeets : Meets (Held.step twoCopies) (Fits twoCopies) ⟨emptyRoot, []⟩ fileCalls :=
    ⟨trivial, fun _ _ => ⟨trivial, fun _ _ => ⟨trivial, fun _ _ => ⟨trivial, fun _ _ => ⟨trivial, fun _ _ => trivial⟩⟩⟩⟩⟩
  have h0 : Reach (Held.step twoCopies) (Fits twoCopies) (fun s => s = ⟨emptyRoot, []⟩) ⟨emptyRoot, []⟩ := .init rfl
  obtain ⟨s, hR, ht, hp⟩ := h0.of_any (fun s => s.inodes.length == 2) hmeets rfl
  exact ⟨s, ht, beq_iff_eq.mp hp, copies_equal twoCopies_wf rfl emptyRoot_mirrored (emptyRoot_staysIn (by decide) (by decide))
    (emptyRoot_staysIn (by decide) (by decide)) hR⟩

def onlyRoot : Objects := Function.update (fun _ => none) 2 (some (true, [2]))

theorem onlyRoot_eq {k : Nat} {b : Bool} {l : List Nat} (h : onlyRoot k = some (b, l)) : k = 2 ∧ b = true ∧ l = [2] := by
  rcases update_eq_some h with ⟨hk, ho⟩ | ⟨-, hn⟩
  · cases ho
    exact ⟨hk, rfl, rfl⟩
  · cases hn

theorem emptyRoot_sound : Sound twoCopies emptyRoot onlyRoot := by
  have hchain : FatChain twoCopies emptyRoot 2 [2] := by
    refine ⟨.cons (by decide) (.nil (by decide +kernel)), fun x hx => ?_⟩
    rw [List.mem_singleton.mp hx]
    exact ⟨by decide, by decide⟩
  have hno : ∀ x i, ¬ Entry twoCopies emptyRoot onlyRoot x i := by
    intro x i ⟨k, l, hk, hs, hl⟩
    obtain ⟨rfl, -, rfl⟩ := onlyRoot_eq hk
    have hzero : ∀ i ∈ twoCopies.slots, live (twoCopies.readCluster emptyRoot 2) i = false := by decide +kernel
    rw [List.mem_singleton.mp hs.1, hzero i hs.2] at hl
    cases hl
  refine ⟨twoCopies_wf, by decide +kernel, fun k b l hk => ?_, fun k b l hk => ?_, fun k b l k' b' l' hk hk' hne => ?_,
    ⟨[2], Function.update_self ..⟩, fun x i he => absurd he (hno x i), fun x i y j he => absurd he (hno x i)⟩
  · obtain ⟨rfl, -, rfl⟩ := onlyRoot_eq hk
    exact hchain
  · obtain ⟨-, -, rfl⟩ := onlyRoot_eq hk
    exact List.cons_ne_nil _ _
  · exact absurd ((onlyRoot_eq hk).1.trans (onlyRoot_eq hk').1.symm) hne

/-- A slot with a cluster number that is an entry of the second copy. -/
def farSlot : List UInt8 := rawEntry (0x58 :: List.replicate 10 space) 130 false

/-- The slot is written into a file and looked up there, and the inode is truncated. -/
def farCalls : List Call := [.root, .create 0 ['F'] false, .writeAt 1 0 farSlot, .lookup 1 ['X'], .truncate 2]

/-- The entry is cleared in the second copy alone. -/
theorem copies_diverge : ¬ ∀ v d0 objs s, Sound v d0 objs → v.numFats = 2 → Mirrored v d0 →
    Reach (Held.step v) (fun _ _ => True) (fun s => s = ⟨d0, []⟩) s → Mirrored v s.dev ∧ Untouched v d0 s.dev := by
  intro h
  have h0 : Reach (Held.step twoCopies) (fun _ _ => True) (fun s => s = ⟨emptyRoot, []⟩) ⟨emptyRoot, []⟩ := .init rfl
  obtain ⟨s, hR, -, hp⟩ := h0.of_any (fun s => readSector s.dev 1 8 != readSector s.dev 2 8) (meets_true _ farCalls _) rfl
  have hm := (h twoCopies emptyRoot onlyRoot s emptyRoot_sound rfl emptyRoot_mirrored hR).1 0 (by decide)
  exact (bne_iff_ne.mp hp) (congrFun hm 8)

end Myos.Fat

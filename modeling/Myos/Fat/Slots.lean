/-
  Myos.Fat.Slots — what the 32 bytes of a directory slot say.

  Proved: all but the size of a slot is kept by a write to another slot and by a write of its
  size; what a new entry, a new directory and a deleted entry say.
-/

import Myos.Fat.Files

namespace Myos.Fat

open Lib Fat32Inner Fat32Inode

variable {v : Fat32Inner} {d d' : Device} {buf buf' : Buf} {i j n : Nat} {src : List UInt8}

/-- An entry of a file or a directory, not "." or "..", which alone start with a dot. -/
def live (buf : Buf) (i : Nat) : Bool := !unused buf i && !noShort (entAttr buf i) && buf i != dot

/-- The bytes of the slot but those of its size are the same. -/
def SlotEq (buf buf' : Buf) (i : Nat) : Prop := ∀ k < 28, buf' (i + k) = buf (i + k)

namespace SlotEq

theorem refl (buf : Buf) (i : Nat) : SlotEq buf buf i := fun _ _ => rfl

theorem trans {buf'' : Buf} (h : SlotEq buf buf' i) (h' : SlotEq buf' buf'' i) : SlotEq buf buf'' i :=
  fun k hk => (h' k hk).trans (h k hk)

theorem head (h : SlotEq buf buf' i) : buf' i = buf i := h 0 (by decide)

theorem entAttr (h : SlotEq buf buf' i) : entAttr buf' i = entAttr buf i := h 11 (by decide)

theorem unused (h : SlotEq buf buf' i) : unused buf' i = unused buf i := by rw [Fat.unused, h.head, Fat.unused]

theorem live (h : SlotEq buf buf' i) : live buf' i = live buf i := by
  rw [Fat.live, h.unused, h.entAttr, h.head, Fat.live]

theorem entIsDir (h : SlotEq buf buf' i) : entIsDir buf' i = entIsDir buf i := by
  rw [Fat.entIsDir, h.entAttr, Fat.entIsDir]

theorem entName (h : SlotEq buf buf' i) : entName buf' i = entName buf i :=
  List.map_congr_left fun k hk => h k (by rw [List.mem_range] at hk; omega)

theorem entCluster (h : SlotEq buf buf' i) : entCluster buf' i = entCluster buf i := by
  have hi : Buf.getLe16 buf' (i + 20) = Buf.getLe16 buf (i + 20) := Buf.getLe16_congr fun k hk => by
    rw [Nat.add_assoc]
    exact h (20 + k) (by omega)
  have lo : Buf.getLe16 buf' (i + 26) = Buf.getLe16 buf (i + 26) := Buf.getLe16_congr fun k hk => by
    rw [Nat.add_assoc]
    exact h (26 + k) (by omega)
  rw [Fat.entCluster, hi, lo, Fat.entCluster]

/-- A write to another slot. -/
theorem copyAt (hi : i ∈ v.slots) (hj : j ∈ v.slots) (hne : j ≠ i) (hs : src.length ≤ 32) (buf : Buf) :
    SlotEq buf (Buf.copyAt buf i src) j := fun k hk => by
  obtain ⟨⟨a, rfl⟩, -⟩ := mem_slots.mp hi
  obtain ⟨⟨b, rfl⟩, -⟩ := mem_slots.mp hj
  have hab : a ≠ b := fun e => hne (by rw [e])
  rcases Nat.lt_or_gt_of_ne hab with h | h
  · exact Buf.copyAt_of_ge (by omega)
  · exact Buf.copyAt_of_lt (by omega)

/-- A write of a size. -/
theorem size (hi : i ∈ v.slots) (hj : j ∈ v.slots) (size : Nat) (buf : Buf) :
    SlotEq buf (Buf.copyAt buf (i + 28) (Buf.toLe32 size)) j := fun k hk => by
  obtain ⟨⟨a, rfl⟩, -⟩ := mem_slots.mp hi
  obtain ⟨⟨b, rfl⟩, -⟩ := mem_slots.mp hj
  have hlen := Buf.length_toLe32 size
  rcases Nat.lt_or_ge a b with h | h
  · exact Buf.copyAt_of_ge (by omega)
  · exact Buf.copyAt_of_lt (by omega)

end SlotEq

theorem live_head (h : live buf i = true) : unused buf i = false ∧ noShort (entAttr buf i) = false ∧ buf i ≠ dot := by
  unfold live at h
  rw [Bool.and_eq_true, Bool.and_eq_true, Bool.not_eq_true', Bool.not_eq_true', bne_iff_ne] at h
  exact ⟨h.1.1, h.1.2, h.2⟩

theorem unused_not_live (h : unused buf i = true) : live buf i = false := by
  unfold live
  rw [h]
  rfl

theorem zero_unused (i : Nat) : unused zeroBuf i = true := by
  unfold unused zeroBuf
  rw [decide_eq_true_eq]
  exact Or.inl rfl

/-- A deleted entry. -/
theorem deleted_unused (buf : Buf) (i : Nat) : unused (Buf.copyAt buf i [0xE5]) i = true := by
  have : Buf.copyAt buf i [0xE5] i = 0xE5 := Buf.copyAt_add (k := 0) (by decide)
  unfold unused
  rw [this, decide_eq_true_eq]
  exact Or.inr rfl

/-! ## A new entry -/

theorem length_encodeShortName {name : Str} {raw : List UInt8} (h : encodeShortName name = .ok raw) : raw.length = 11 := by
  unfold encodeShortName at h
  dsimp only at h
  split at h
  · cases h
  · next hb =>
    rw [not_or, not_or] at hb
    cases h
    simp only [List.length_append, List.length_replicate]
    omega

/-- Only the character '.' has its byte. -/
theorem dot_not_mem_utf8EncodeChar {c : Char} (h : c ≠ '.') : dot ∉ String.utf8EncodeChar c := by
  have hne : c.val.toNat ≠ 46 := fun e => h (Char.ext (UInt32.toNat_inj.mp e))
  have key : ∀ n : Nat, n % 256 ≠ 46 → dot ≠ UInt8.ofNat n := fun n hn e => hn (by
    have := congrArg UInt8.toNat e
    rw [UInt8.toNat_ofNat'] at this
    exact this.symm)
  unfold String.utf8EncodeChar
  dsimp only
  split
  · simp only [List.mem_singleton]
    exact key _ (by omega)
  · split
    · simp only [List.mem_cons, List.not_mem_nil, or_false, not_or]
      exact ⟨key _ (by omega), key _ (by omega)⟩
    · split
      · simp only [List.mem_cons, List.not_mem_nil, or_false, not_or]
        exact ⟨key _ (by omega), key _ (by omega), key _ (by omega)⟩
      · simp only [List.mem_cons, List.not_mem_nil, or_false, not_or]
        exact ⟨key _ (by omega), key _ (by omega), key _ (by omega), key _ (by omega)⟩

/-- A name that is encoded does not start with a dot. -/
theorem head_encodeShortName {name : Str} {raw : List UInt8} (h : encodeShortName name = .ok raw) : ∃ b t, raw = b :: t ∧ b ≠ dot := by
  unfold encodeShortName at h
  dsimp only at h
  split at h
  · cases h
  · next hb =>
    rw [not_or, not_or] at hb
    cases h
    have hdot : dot ∉ Str.bytes (name.takeWhile (· ≠ '.')) := by
      unfold Str.bytes
      rw [List.mem_flatMap]
      intro ⟨c, hc, hm⟩
      have := List.mem_takeWhile_imp hc
      exact dot_not_mem_utf8EncodeChar (of_decide_eq_true this) hm
    cases hbase : Str.bytes (name.takeWhile (· ≠ '.')) with
    | nil =>
      rw [hbase] at hb
      exact absurd rfl hb.2.2
    | cons b t =>
      rw [hbase] at hdot
      exact ⟨b, _, rfl, fun e => hdot (by rw [e]; exact List.mem_cons_self ..)⟩

section

variable {raw : List UInt8} {isDir : Bool}

theorem length_rawEntry (h : raw.length = 11) : (rawEntry raw n isDir).length = 32 := by
  simp [rawEntry, h]

theorem rawEntry_getElem (h : raw.length = 11) {k : Nat} (hk : k < 32) :
    Buf.copyAt buf i (rawEntry raw n isDir) (i + k) = (rawEntry raw n isDir).get ⟨k, by rw [length_rawEntry h]; exact hk⟩ :=
  Buf.copyAt_add (by rw [length_rawEntry h]; exact hk)

theorem rawEntry_name (h : raw.length = 11) : entName (Buf.copyAt buf i (rawEntry raw n isDir)) i = raw := by
  refine List.ext_getElem (by simp [entName, slice, h]) fun k h1 h2 => ?_
  simp only [entName, slice, List.getElem_map, List.getElem_range]
  rw [rawEntry_getElem h (by omega)]
  simp [rawEntry, h2]

theorem rawEntry_attr (h : raw.length = 11) :
    entAttr (Buf.copyAt buf i (rawEntry raw n isDir)) i = if isDir then attrDirectory else 0 := by
  rw [entAttr, rawEntry_getElem h (by decide)]
  simp [rawEntry, h]

theorem rawEntry_isDir (h : raw.length = 11) : entIsDir (Buf.copyAt buf i (rawEntry raw n isDir)) i = isDir := by
  rw [entIsDir, rawEntry_attr h]
  cases isDir <;> decide

theorem rawEntry_head (h : raw.length = 11) : Buf.copyAt buf i (rawEntry raw n isDir) i = raw.getD 0 0 := by
  have := @rawEntry_getElem buf i n raw isDir h 0 (by decide)
  rw [Nat.add_zero] at this
  rw [this, List.getD_eq_getElem _ _ (by omega)]
  simp [rawEntry, h]

theorem rawEntry_cluster (h : raw.length = 11) (hn : n < 2 ^ 32) : entCluster (Buf.copyAt buf i (rawEntry raw n isDir)) i = n := by
  rw [entCluster, Buf.getLe16, Buf.getLe16, Nat.add_assoc, Nat.add_assoc, rawEntry_getElem h (by decide), rawEntry_getElem h (by decide),
    rawEntry_getElem h (by decide), rawEntry_getElem h (by decide)]
  simp [rawEntry, h, Buf.toLe16]
  omega

theorem rawEntry_size (h : raw.length = 11) : entSize (Buf.copyAt buf i (rawEntry raw n isDir)) i = 0 := by
  rw [entSize, Buf.getLe32, Buf.getLe16, Buf.getLe16]
  simp only [Nat.add_assoc]
  rw [rawEntry_getElem h (by decide), rawEntry_getElem h (by decide), rawEntry_getElem h (by decide), rawEntry_getElem h (by decide)]
  simp [rawEntry, h, Buf.toLe16]

/-- A new entry is live unless its name starts with the byte of an end mark or of a deleted entry. -/
theorem rawEntry_live {name : Str} (h : encodeShortName name = .ok raw) :
    live (Buf.copyAt buf i (rawEntry raw n isDir)) i = true ↔ raw.getD 0 0 ≠ 0 ∧ raw.getD 0 0 ≠ 0xE5 := by
  have h11 := length_encodeShortName h
  obtain ⟨b, t, rfl, hb⟩ := head_encodeShortName h
  have hattr : noShort (entAttr (Buf.copyAt buf i (rawEntry (b :: t) n isDir)) i) = false := by
    rw [rawEntry_attr h11]
    cases isDir <;> decide
  unfold live unused
  rw [hattr, rawEntry_head h11]
  simp [hb]

end

/-! ## A new directory -/

theorem dirInit_of_ge {parent : Nat} (h : 60 ≤ j) : dirInit n parent j = 0 := by
  unfold dirInit
  rw [Buf.copyAt_of_ge, Buf.copyAt_of_ge, Buf.copyAt_of_ge, Buf.copyAt_of_ge, Buf.copyAt_of_ge, Buf.copyAt_of_ge, Buf.copyAt_of_ge,
    Buf.copyAt_of_ge]
  · rfl
  all_goals simp only [List.length_cons, List.length_nil, Buf.length_toLe16]; omega

/-- The first bytes of "." and "..". -/
theorem dirInit_dot {parent : Nat} : dirInit n parent 0 = dot ∧ dirInit n parent 32 = dot := by
  constructor <;> simp [dirInit, Buf.copyAt]

/-- The entries of a new directory are "." and "..", the other slots are unused. -/
theorem dirInit_slot {parent : Nat} (hi : i ∈ v.slots) :
    (i = 0 ∨ i = 32) ∧ dirInit n parent i = dot ∨ unused (dirInit n parent) i = true := by
  obtain ⟨⟨k, rfl⟩, -⟩ := mem_slots.mp hi
  by_cases hk : 60 ≤ 32 * k
  · right
    unfold unused
    rw [dirInit_of_ge hk, decide_eq_true_eq]
    exact Or.inl rfl
  · left
    have h01 : 32 * k = 0 ∨ 32 * k = 32 := by omega
    refine ⟨h01, ?_⟩
    rcases h01 with h | h
    · rw [h]
      exact dirInit_dot.1
    · rw [h]
      exact dirInit_dot.2

theorem dirInit_live {parent : Nat} (hi : i ∈ v.slots) : live (dirInit n parent) i = false := by
  rcases dirInit_slot hi with ⟨-, h⟩ | h
  · refine Bool.eq_false_iff.mpr fun hl => ?_
    exact (live_head hl).2.2 h
  · exact unused_not_live h

end Myos.Fat

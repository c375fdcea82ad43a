/-
  Myos.Lib.Bytes — byte buffers by index, and little-endian numbers in them.

  Proved: what is read back where something was copied, and elsewhere; a number that fits is
  read back; a range of bytes is read back, and is not changed by what is copied outside of it.
-/

import Mathlib

namespace Myos.Lib

/-- A buffer; what it holds past its length does not matter. -/
abbrev Buf := Nat → UInt8

namespace Buf

/-- `buf[i..i + src.len()].copy_from_slice(src)`. -/
def copyAt (buf : Buf) (i : Nat) (src : List UInt8) : Buf := fun j =>
  if i ≤ j ∧ j < i + src.length then src.getD (j - i) 0 else buf j

def getLe16 (buf : Buf) (i : Nat) : Nat := (buf i).toNat + 256 * (buf (i + 1)).toNat

def getLe32 (buf : Buf) (i : Nat) : Nat := getLe16 buf i + 65536 * getLe16 buf (i + 2)

def toLe16 (n : Nat) : List UInt8 := [UInt8.ofNat n, UInt8.ofNat (n / 256)]

def toLe32 (n : Nat) : List UInt8 := toLe16 n ++ toLe16 (n / 65536)

def toLe64 (n : Nat) : List UInt8 := toLe32 n ++ toLe32 (n / 2 ^ 32)

@[simp] theorem length_toLe16 (n : Nat) : (toLe16 n).length = 2 := rfl
@[simp] theorem length_toLe32 (n : Nat) : (toLe32 n).length = 4 := rfl
@[simp] theorem length_toLe64 (n : Nat) : (toLe64 n).length = 8 := rfl

variable {buf buf' : Buf} {i j k n : Nat} {src : List UInt8}

theorem copyAt_of_lt (h : j < i) : copyAt buf i src j = buf j := if_neg fun h' => by omega

theorem copyAt_of_ge (h : i + src.length ≤ j) : copyAt buf i src j = buf j := if_neg fun h' => by omega

theorem copyAt_add (h : k < src.length) : copyAt buf i src (i + k) = src[k] := by
  rw [copyAt, if_pos ⟨Nat.le_add_right .., Nat.add_lt_add_left h i⟩, Nat.add_sub_cancel_left, List.getD_eq_getElem _ _ h]

theorem getLe16_congr (h : ∀ k < 2, buf (i + k) = buf' (j + k)) : getLe16 buf i = getLe16 buf' j := by
  rw [getLe16, getLe16, h 1 (by omega)]
  have h0 := h 0 (by omega)
  rw [Nat.add_zero, Nat.add_zero] at h0
  rw [h0]

theorem getLe32_congr (h : ∀ k < 4, buf (i + k) = buf' (j + k)) : getLe32 buf i = getLe32 buf' j := by
  have h1 : getLe16 buf i = getLe16 buf' j := getLe16_congr fun k hk => h k (by omega)
  have h2 : getLe16 buf (i + 2) = getLe16 buf' (j + 2) := getLe16_congr fun k hk => by
    rw [Nat.add_assoc, Nat.add_assoc]
    exact h (2 + k) (by omega)
  rw [getLe32, getLe32, h1, h2]

/-- A number is read back modulo what fits. -/
theorem getLe16_copyAt (buf : Buf) (i n : Nat) : getLe16 (copyAt buf i (toLe16 n)) i = n % 65536 := by
  have h0 : copyAt buf i (toLe16 n) i = UInt8.ofNat n := copyAt_add (k := 0) (by simp)
  have h1 : copyAt buf i (toLe16 n) (i + 1) = UInt8.ofNat (n / 256) := copyAt_add (by simp)
  rw [getLe16, h0, h1, UInt8.toNat_ofNat', UInt8.toNat_ofNat']
  omega

theorem getLe32_copyAt (buf : Buf) (i n : Nat) : getLe32 (copyAt buf i (toLe32 n)) i = n % 2 ^ 32 := by
  have h0 : copyAt buf i (toLe32 n) i = UInt8.ofNat n := copyAt_add (k := 0) (by simp)
  have h1 : copyAt buf i (toLe32 n) (i + 1) = UInt8.ofNat (n / 256) := copyAt_add (by simp)
  have h2 : copyAt buf i (toLe32 n) (i + 2) = UInt8.ofNat (n / 65536) := copyAt_add (by simp)
  have h3 : copyAt buf i (toLe32 n) (i + 3) = UInt8.ofNat (n / 65536 / 256) := copyAt_add (by simp)
  rw [getLe32, getLe16, getLe16, Nat.add_assoc i 2 1, h0, h1, h2, h3]
  simp only [UInt8.toNat_ofNat']
  omega

theorem copyAt_append (buf : Buf) (i : Nat) (src src' : List UInt8) :
    copyAt buf i (src ++ src') = copyAt (copyAt buf i src) (i + src.length) src' := by
  funext j
  rcases Nat.lt_or_ge j i with hj | hj
  · rw [copyAt_of_lt hj, copyAt_of_lt (by omega), copyAt_of_lt hj]
  · obtain ⟨k, rfl⟩ := Nat.exists_eq_add_of_le hj
    by_cases h1 : k < src.length
    · rw [copyAt_add (by rw [List.length_append]; omega), copyAt_of_lt (by omega), copyAt_add h1, List.getElem_append_left h1]
    · by_cases h2 : k < src.length + src'.length
      · obtain ⟨m, rfl⟩ := Nat.exists_eq_add_of_le (Nat.le_of_not_lt h1)
        rw [copyAt_add (by rw [List.length_append]; omega), ← Nat.add_assoc, copyAt_add (by omega), List.getElem_append_right (by omega)]
        simp
      · rw [copyAt_of_ge (by rw [List.length_append]; omega), copyAt_of_ge (by omega), copyAt_of_ge (by omega)]

/-! ## Numbers of 64 bits -/

def getLe64 (buf : Buf) (i : Nat) : Nat := getLe32 buf i + 2 ^ 32 * getLe32 buf (i + 4)

theorem getLe64_copyAt (buf : Buf) (i : Nat) (h : n < 2 ^ 64) : getLe64 (copyAt buf i (toLe64 n)) i = n := by
  have h1 : getLe32 (copyAt buf i (toLe64 n)) i = n % 2 ^ 32 := by
    rw [← getLe32_copyAt buf i n]
    apply getLe32_congr
    intro k hk
    rw [toLe64, copyAt_append, copyAt_of_lt (by rw [length_toLe32]; omega)]
  have h2 : getLe32 (copyAt buf i (toLe64 n)) (i + 4) = n / 2 ^ 32 % 2 ^ 32 := by
    rw [toLe64, copyAt_append, length_toLe32]
    exact getLe32_copyAt _ _ _
  rw [getLe64, h1, h2]
  omega

/-! ## Ranges -/

/-- The `n` bytes from `i` on. -/
def bytesAt (buf : Buf) (i n : Nat) : List UInt8 := (List.range n).map fun k => buf (i + k)

@[simp] theorem length_bytesAt : (bytesAt buf i n).length = n := by simp [bytesAt]

theorem bytesAt_congr (h : ∀ k < n, buf (i + k) = buf' (j + k)) : bytesAt buf i n = bytesAt buf' j n :=
  List.map_congr_left fun k hk => h k (List.mem_range.mp hk)

theorem bytesAt_copyAt (h : src.length = n) : bytesAt (copyAt buf i src) i n = src := by
  apply List.ext_getElem
  · simp [h]
  · intro k h1 h2
    simp [bytesAt, copyAt_add h2]

/-- What is copied in front of a range, or behind it, does not change it. -/
theorem bytesAt_copyAt_ne (h : j + src.length ≤ i ∨ i + n ≤ j) : bytesAt (copyAt buf j src) i n = bytesAt buf i n := by
  apply bytesAt_congr
  intro k hk
  cases h with
  | inl h => exact copyAt_of_ge (by omega)
  | inr h => exact copyAt_of_lt (by omega)

end Buf

end Myos.Lib

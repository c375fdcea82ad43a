/-
  Myos.Printk.Numbers — `num_digits` and `print_num` of `kernel/printk.c`.

  `num` is a word of 64 bits, `width` and the signed pad counter are words of 32 bits
  (signed arithmetic wraps, as the compiler for this machine computes it). What is printed
  is the list of the characters handed to `print_char`.

  Proved: what is printed is padding and one field of sign, prefix and digits, of the
  right length, and reads back as the number, exactly if no prefix is printed before
  padding or a sign, and the pad counter does not wrap (`formatted_iff`).
-/

import Mathlib

namespace Myos.Printk

abbrev Str := List Char

/-- The bits `PF_*` of `flags`. -/
structure PrintFlags where
  signed : Bool
  hexUpper : Bool
  altForm : Bool
  zeroPad : Bool
  leftJust : Bool
  deriving DecidableEq, Repr

/-- The bases the callers pass. -/
inductive Base where
  | two
  | eight
  | ten
  | sixteen
  deriving DecidableEq, Repr

def Base.val : Base → Nat
  | .two => 2
  | .eight => 8
  | .ten => 10
  | .sixteen => 16

theorem Base.one_lt (b : Base) : 1 < b.val := by cases b <;> decide

theorem Base.le_sixteen (b : Base) : b.val ≤ 16 := by cases b <;> decide

/-! ## The code -/

def hexLower : Str := "0123456789abcdef".toList
def hexUpper : Str := "0123456789ABCDEF".toList

/-- The loop of `num_digits`. -/
def countLoop (base : Base) (num digits : Nat) : Nat :=
  if 0 < num then countLoop base (num / base.val) (digits + 1) else digits
termination_by num
decreasing_by exact Nat.div_lt_self ‹_› base.one_lt

def numDigits (num : Nat) (base : Base) : Nat := if num = 0 then 1 else countLoop base num 0

/-- The loop that fills `buf`, the last digit first. -/
def fillLoop (base : Base) (digits : Str) (num : Nat) (buf : Str) : Str :=
  if 0 < num then fillLoop base digits (num / base.val) (buf ++ [digits.getD (num % base.val) ' ']) else buf
termination_by num
decreasing_by exact Nat.div_lt_self ‹_› base.one_lt

/-- `while (pad_len--) print_char(c)`, entered with a positive counter. -/
def padLoop (padLen : BitVec 32) (c : Char) : Str × BitVec 32 := (List.replicate padLen.toNat c, -1)

def isNeg (num : BitVec 64) (flags : PrintFlags) : Bool := flags.signed && decide (num.toInt < 0)

/-- What is printed for `PF_ALT_FORM`. -/
def prefixOf (base : Base) (flags : PrintFlags) : Str :=
  if flags.altForm then
    match base with
    | .sixteen => if flags.hexUpper then ['0', 'X'] else ['0', 'x']
    | .eight => ['0']
    | .two => ['0', 'b']
    | .ten => []
  else []

def printNum (num : BitVec 64) (base : Base) (width : BitVec 32) (flags : PrintFlags) : Str :=
  let digits := if flags.hexUpper then hexUpper else hexLower
  let neg := isNeg num flags
  let num := if neg then -num else num
  let ndigits := numDigits num.toNat base
  let padLen := width - BitVec.ofNat 32 ndigits
  let padLen := if neg then padLen - 1 else padLen
  let pre := prefixOf base flags
  let padLen := padLen - BitVec.ofNat 32 pre.length
  let (left, padLen) := if !flags.leftJust && !flags.zeroPad && decide (0 < padLen.toInt) then padLoop padLen ' ' else ([], padLen)
  let sign := if neg then ['-'] else []
  let (zeros, padLen) := if flags.zeroPad && decide (0 < padLen.toInt) then padLoop padLen '0' else ([], padLen)
  let body := if num = 0 then ['0'] else (fillLoop base digits num.toNat []).reverse
  let (right, _) := if flags.leftJust && decide (0 < padLen.toInt) then padLoop padLen ' ' else ([], padLen)
  pre ++ left ++ sign ++ zeros ++ body ++ right

/-! ## What the numbers should look like -/

/-- The number an output of `print_num` stands for. -/
def valueOf (num : BitVec 64) (flags : PrintFlags) : Int := if flags.signed then num.toInt else num.toNat

def signOf (num : BitVec 64) (flags : PrintFlags) : Str := if valueOf num flags < 0 then ['-'] else []

def digitChar (flags : PrintFlags) (d : Nat) : Char := (if flags.hexUpper then hexUpper else hexLower).getD d ' '

/-- The digits of a natural number, the first one first. -/
def numeral (base : Base) (flags : PrintFlags) (m : Nat) : Str :=
  (if m = 0 then [0] else (Nat.digits base.val m).reverse).map (digitChar flags)

def digitsOf (num : BitVec 64) (base : Base) (flags : PrintFlags) : Str := numeral base flags (valueOf num flags).natAbs

def naturalLength (num : BitVec 64) (base : Base) (flags : PrintFlags) : Nat :=
  (signOf num flags).length + (prefixOf base flags).length + (digitsOf num base flags).length

def digitValue (c : Char) : Option Nat :=
  if hexLower.contains c then some (hexLower.idxOf c)
  else if hexUpper.contains c then some (hexUpper.idxOf c) else none

def readDigits (base : Base) (s : Str) : Option Nat :=
  s.foldlM (fun n c => (digitValue c).bind fun d => if d < base.val then some (n * base.val + d) else none) 0

/-- Skips the prefix of the base. -/
def skipPrefix : Base → Str → Str
  | .sixteen, '0' :: 'x' :: s => s
  | .sixteen, '0' :: 'X' :: s => s
  | .two, '0' :: 'b' :: s => s
  | _, s => s

/-- Reads a sign, a prefix and digits. -/
def readField (base : Base) : Str → Option Int
  | '-' :: s => (readDigits base (skipPrefix base s)).map fun n : Nat => -(n : Int)
  | s => (readDigits base (skipPrefix base s)).map fun n : Nat => (n : Int)

def fieldOf (num : BitVec 64) (base : Base) (flags : PrintFlags) (zeros : Nat) : Str :=
  signOf num flags ++ prefixOf base flags ++ List.replicate zeros '0' ++ digitsOf num base flags

/-- Padding and one field, of the asked width or longer, that reads back as the number. -/
def Formatted (num : BitVec 64) (base : Base) (width : BitVec 32) (flags : PrintFlags) (out : Str) : Prop :=
  (out.length : Int) = max width.toInt (naturalLength num base flags) ∧
  ∃ spaces zeros, readField base (fieldOf num base flags zeros) = some (valueOf num flags) ∧
    out = if flags.leftJust then fieldOf num base flags zeros ++ List.replicate spaces ' '
      else List.replicate spaces ' ' ++ fieldOf num base flags zeros

/-- Nothing is printed between the prefix and the digits but zeros, and the pad counter does not wrap. -/
def Orderly (num : BitVec 64) (base : Base) (width : BitVec 32) (flags : PrintFlags) : Prop :=
  (flags.altForm = true → base ≠ .ten → 0 ≤ valueOf num flags ∧
    (flags.leftJust = true ∨ flags.zeroPad = true ∨ width.toInt ≤ naturalLength num base flags)) ∧
  -2 ^ 31 ≤ width.toInt - naturalLength num base flags

/-! ## The loops -/

theorem countLoop_eq (base : Base) (num digits : Nat) :
    countLoop base num digits = digits + (Nat.digits base.val num).length := by
  fun_induction countLoop base num digits with
  | case1 num digits h ih =>
    rw [ih, Nat.digits_def' base.one_lt h, List.length_cons]
    omega
  | case2 num digits h =>
    rw [Nat.eq_zero_of_not_pos h, Nat.digits_zero]
    rfl

theorem fillLoop_eq (base : Base) (digits : Str) (num : Nat) (buf : Str) :
    fillLoop base digits num buf = buf ++ (Nat.digits base.val num).map fun d => digits.getD d ' ' := by
  fun_induction fillLoop base digits num buf with
  | case1 num buf h ih =>
    rw [ih, Nat.digits_def' base.one_lt h, List.map_cons, List.append_assoc, List.singleton_append]
  | case2 num buf h =>
    rw [Nat.eq_zero_of_not_pos h, Nat.digits_zero, List.map_nil, List.append_nil]

theorem numDigits_eq (flags : PrintFlags) (num : Nat) (base : Base) : numDigits num base = (numeral base flags num).length := by
  unfold numDigits numeral
  split
  · rfl
  · rw [countLoop_eq, List.length_map, List.length_reverse, Nat.zero_add]

/-! ## The number without its sign -/

theorem isNeg_iff (num : BitVec 64) (flags : PrintFlags) : isNeg num flags = true ↔ valueOf num flags < 0 := by
  unfold isNeg valueOf
  cases flags.signed with
  | true => simp
  | false => simp

theorem magnitude (num : BitVec 64) (flags : PrintFlags) :
    (if isNeg num flags then -num else num).toNat = (valueOf num flags).natAbs := by
  unfold isNeg valueOf
  cases flags.signed with
  | false => simp
  | true =>
    have h := BitVec.toInt_eq_toNat_cond num
    have hlt := num.isLt
    simp only [Bool.true_and, decide_eq_true_eq, if_true]
    split
    · rw [BitVec.toNat_neg]
      split at h <;> omega
    · split at h <;> omega

theorem valueOf_lt (num : BitVec 64) (flags : PrintFlags) : (valueOf num flags).natAbs < 2 ^ 64 := by
  rw [← magnitude]
  exact BitVec.isLt _

theorem naturalLength_le (num : BitVec 64) (base : Base) (flags : PrintFlags) : naturalLength num base flags ≤ 67 := by
  have hs : (signOf num flags).length ≤ 1 := by
    unfold signOf
    split <;> simp
  have hp : (prefixOf base flags).length ≤ 2 := by
    unfold prefixOf
    split
    · cases base <;> simp
      split <;> simp
    · simp
  have hd : (digitsOf num base flags).length ≤ 64 := by
    unfold digitsOf numeral
    rw [List.length_map]
    split
    · simp
    · rw [List.length_reverse, Nat.digits_length_le_iff base.one_lt]
      exact (valueOf_lt num flags).trans_le (Nat.pow_le_pow_left base.one_lt 64)
  unfold naturalLength
  omega

/-! ## What is printed -/

/-- The characters of padding. -/
def padding (num : BitVec 64) (base : Base) (width : BitVec 32) (flags : PrintFlags) : Nat :=
  (width - BitVec.ofNat 32 (naturalLength num base flags)).toInt.toNat

theorem padLoop_fst {padLen : BitVec 32} (c : Char) (h : 0 < padLen.toInt) :
    (padLoop padLen c).1 = List.replicate padLen.toInt.toNat c := by
  have hn : padLen.toInt.toNat = padLen.toNat := by
    have := BitVec.toInt_eq_toNat_cond padLen
    split at this <;> omega
  rw [hn]
  rfl

/-- The pad counter when the padding starts. -/
theorem padLen_eq (num : BitVec 64) (base : Base) (width : BitVec 32) (flags : PrintFlags) :
    (if isNeg num flags then width - BitVec.ofNat 32 (digitsOf num base flags).length - 1
      else width - BitVec.ofNat 32 (digitsOf num base flags).length) - BitVec.ofNat 32 (prefixOf base flags).length =
      width - BitVec.ofNat 32 (naturalLength num base flags) := by
  unfold naturalLength signOf
  by_cases h : isNeg num flags = true
  · rw [if_pos h, if_pos ((isNeg_iff num flags).mp h), List.length_singleton]
    bv_omega
  · rw [if_neg h, if_neg fun e => h ((isNeg_iff num flags).mpr e), List.length_nil]
    bv_omega

theorem body_eq (num : BitVec 64) (base : Base) (flags : PrintFlags) :
    (if (if isNeg num flags then -num else num) = 0 then ['0']
      else (fillLoop base (if flags.hexUpper then hexUpper else hexLower)
        (if isNeg num flags then -num else num).toNat []).reverse) = digitsOf num base flags := by
  have hz : (if isNeg num flags then -num else num) = 0 ↔ (valueOf num flags).natAbs = 0 := by
    rw [← magnitude, ← BitVec.toNat_inj]
    rfl
  unfold digitsOf numeral
  by_cases h : (if isNeg num flags then -num else num) = 0
  · rw [if_pos h, if_pos (hz.mp h), List.map_singleton]
    unfold digitChar
    split <;> rfl
  · rw [if_neg h, if_neg fun e => h (hz.mpr e), fillLoop_eq, List.nil_append, magnitude, List.map_reverse]
    rfl

/-- The prefix comes first; the padding stands in one of three places. -/
theorem printNum_eq (num : BitVec 64) (base : Base) (width : BitVec 32) (flags : PrintFlags) :
    printNum num base width flags = prefixOf base flags ++
      (if flags.leftJust || flags.zeroPad then [] else List.replicate (padding num base width flags) ' ') ++
      signOf num flags ++
      (if flags.zeroPad then List.replicate (padding num base width flags) '0' else []) ++
      digitsOf num base flags ++
      (if flags.leftJust && !flags.zeroPad then List.replicate (padding num base width flags) ' ' else []) := by
  have hsign : (if isNeg num flags then ['-'] else []) = signOf num flags := by
    unfold signOf
    simp only [isNeg_iff]
  have hn : numDigits (if isNeg num flags then -num else num).toNat base = (digitsOf num base flags).length := by
    rw [magnitude, numDigits_eq flags, digitsOf]
  unfold printNum padding
  simp only []
  rw [hn, padLen_eq, body_eq, hsign]
  generalize width - BitVec.ofNat 32 (naturalLength num base flags) = padLen
  by_cases hp : 0 < padLen.toInt
  · rw [← padLoop_fst ' ' hp, ← padLoop_fst '0' hp]
    cases flags.leftJust <;> cases flags.zeroPad <;> simp [padLoop, hp]
  · have h0 : padLen.toInt.toNat = 0 := by omega
    simp [h0, hp]

/-! ## Reading the field back -/

theorem digitValue_digitChar (flags : PrintFlags) {d : Nat} (h : d < 16) : digitValue (digitChar flags d) = some d := by
  have lower : ∀ d < 16, digitValue (hexLower.getD d ' ') = some d := by decide
  have upper : ∀ d < 16, digitValue (hexUpper.getD d ' ') = some d := by decide
  unfold digitChar
  split
  · exact upper d h
  · exact lower d h

theorem digitChar_zero (flags : PrintFlags) : digitChar flags 0 = '0' := by
  unfold digitChar
  split <;> rfl

theorem readDigits_step (base : Base) (flags : PrintFlags) (l : List Nat) (h : ∀ d ∈ l, d < base.val) (n : Nat) :
    (l.map (digitChar flags)).foldlM
      (fun n c => (digitValue c).bind fun d => if d < base.val then some (n * base.val + d) else none) n =
      some (l.foldl (fun n d => n * base.val + d) n) := by
  induction l generalizing n with
  | nil => rfl
  | cons d l ih =>
    have hd := h d List.mem_cons_self
    rw [List.map_cons, List.foldlM_cons, List.foldl_cons, digitValue_digitChar flags (hd.trans_le base.le_sixteen),
      Option.bind_some, if_pos hd]
    exact ih (fun d' hd' => h d' (List.mem_cons_of_mem _ hd')) _

theorem foldl_digits (b m : Nat) : (Nat.digits b m).reverse.foldl (fun n d => n * b + d) 0 = m := by
  rw [List.foldl_reverse]
  conv_rhs => rw [← Nat.ofDigits_digits b m]
  generalize Nat.digits b m = l
  induction l with
  | nil => rfl
  | cons d l ih =>
    rw [List.foldr_cons, ih, Nat.ofDigits_cons]
    ring

/-- The digits of a number after some zeros. -/
def zeroDigits (base : Base) (k m : Nat) : List Nat :=
  List.replicate k 0 ++ if m = 0 then [0] else (Nat.digits base.val m).reverse

theorem zeroDigits_lt (base : Base) (k m : Nat) : ∀ d ∈ zeroDigits base k m, d < base.val := by
  intro d hd
  have h0 : 0 < base.val := base.one_lt.trans' Nat.zero_lt_one
  rcases List.mem_append.mp hd with hd | hd
  · rw [List.eq_of_mem_replicate hd]
    exact h0
  · split at hd
    · rw [List.mem_singleton.mp hd]
      exact h0
    · exact Nat.digits_lt_base base.one_lt (List.mem_reverse.mp hd)

theorem map_zeroDigits (base : Base) (flags : PrintFlags) (k m : Nat) :
    (zeroDigits base k m).map (digitChar flags) = List.replicate k '0' ++ numeral base flags m := by
  rw [zeroDigits, List.map_append, List.map_replicate, digitChar_zero]
  rfl

theorem readDigits_numeral (base : Base) (flags : PrintFlags) (k m : Nat) :
    readDigits base (List.replicate k '0' ++ numeral base flags m) = some m := by
  have zeros : ∀ l : List Nat, (List.replicate k 0 ++ l).foldl (fun n d => n * base.val + d) 0 =
      l.foldl (fun n d => n * base.val + d) 0 := by
    intro l
    induction k with
    | zero => rfl
    | succ k ih =>
      rw [List.replicate_succ, List.cons_append, List.foldl_cons, Nat.zero_mul]
      exact ih
  rw [← map_zeroDigits, readDigits, readDigits_step base flags _ (zeroDigits_lt base k m), zeroDigits, zeros]
  split
  · rename_i h
    rw [h, List.foldl_cons, List.foldl_nil, Nat.zero_mul]
  · rw [foldl_digits]

/-- No digit is taken for a part of the prefix. -/
theorem skipPrefix_digits (base : Base) (flags : PrintFlags) (l : List Nat) (h : ∀ d ∈ l, d < base.val) :
    skipPrefix base (l.map (digitChar flags)) = l.map (digitChar flags) := by
  have hx : ∀ d < 16, digitChar flags d ≠ 'x' ∧ digitChar flags d ≠ 'X' := by
    have lower : ∀ d < 16, hexLower.getD d ' ' ≠ 'x' ∧ hexLower.getD d ' ' ≠ 'X' := by decide
    have upper : ∀ d < 16, hexUpper.getD d ' ' ≠ 'x' ∧ hexUpper.getD d ' ' ≠ 'X' := by decide
    unfold digitChar
    split
    · exact upper
    · exact lower
  have hb : ∀ d < 2, digitChar flags d ≠ 'b' := by
    unfold digitChar
    split <;> decide
  cases base with
  | eight => rfl
  | ten => rfl
  | sixteen =>
    rcases l with - | ⟨a, - | ⟨d, l⟩⟩
    · rfl
    · unfold skipPrefix
      split <;> simp_all
    · obtain ⟨h1, h2⟩ := hx d (h d (by simp))
      rw [List.map_cons, List.map_cons]
      unfold skipPrefix
      split <;> simp_all
  | two =>
    rcases l with - | ⟨a, - | ⟨d, l⟩⟩
    · rfl
    · unfold skipPrefix
      split <;> simp_all
    · have h1 := hb d (h d (by simp))
      rw [List.map_cons, List.map_cons]
      unfold skipPrefix
      split <;> simp_all

theorem skipPrefix_prefixOf (base : Base) (flags : PrintFlags) (k m : Nat) :
    readDigits base (skipPrefix base (prefixOf base flags ++ List.replicate k '0' ++ numeral base flags m)) = some m := by
  have plain : readDigits base (skipPrefix base (List.replicate k '0' ++ numeral base flags m)) = some m := by
    rw [← map_zeroDigits, skipPrefix_digits base flags _ (zeroDigits_lt base k m), map_zeroDigits, readDigits_numeral]
  unfold prefixOf
  split
  · cases base with
    | sixteen =>
      by_cases hu : flags.hexUpper = true
      · rw [if_pos hu]
        exact readDigits_numeral .sixteen flags k m
      · rw [if_neg hu]
        exact readDigits_numeral .sixteen flags k m
    | eight => exact readDigits_numeral .eight flags (k + 1) m
    | two => exact readDigits_numeral .two flags k m
    | ten => exact plain
  · exact plain

/-- Neither a space nor a minus sign. -/
def Printed (c : Char) : Prop := c ≠ ' ' ∧ c ≠ '-'

theorem prefixOf_printed (base : Base) (flags : PrintFlags) : ∀ c ∈ prefixOf base flags, Printed c := by
  unfold prefixOf Printed
  intro c hc
  split at hc
  · cases base <;> simp at hc
    · rcases hc with rfl | rfl <;> decide
    · subst hc
      decide
    · split at hc <;> simp at hc <;> rcases hc with rfl | rfl <;> decide
  · cases hc

theorem numeral_printed (base : Base) (flags : PrintFlags) (k m : Nat) :
    ∀ c ∈ List.replicate k '0' ++ numeral base flags m, Printed c := by
  have lower : ∀ d < 16, hexLower.getD d ' ' ≠ ' ' ∧ hexLower.getD d ' ' ≠ '-' := by decide
  have upper : ∀ d < 16, hexUpper.getD d ' ' ≠ ' ' ∧ hexUpper.getD d ' ' ≠ '-' := by decide
  intro c hc
  rw [← map_zeroDigits] at hc
  obtain ⟨d, hd, rfl⟩ := List.mem_map.mp hc
  have h16 := (zeroDigits_lt base k m d hd).trans_le base.le_sixteen
  unfold Printed digitChar
  split
  · exact upper d h16
  · exact lower d h16

theorem field_printed (num : BitVec 64) (base : Base) (flags : PrintFlags) (k : Nat) :
    ∀ c ∈ prefixOf base flags ++ List.replicate k '0' ++ digitsOf num base flags, Printed c := by
  intro c hc
  rw [List.append_assoc] at hc
  rcases List.mem_append.mp hc with hc | hc
  · exact prefixOf_printed base flags c hc
  · exact numeral_printed base flags k _ c hc

theorem fieldOf_eq (num : BitVec 64) (base : Base) (flags : PrintFlags) (k : Nat) :
    fieldOf num base flags k =
      signOf num flags ++ (prefixOf base flags ++ List.replicate k '0' ++ digitsOf num base flags) := by
  rw [fieldOf, List.append_assoc, List.append_assoc, List.append_assoc]

theorem space_notMem_fieldOf (num : BitVec 64) (base : Base) (flags : PrintFlags) (k : Nat) :
    ' ' ∉ fieldOf num base flags k := by
  rw [fieldOf_eq, List.mem_append]
  intro h
  rcases h with h | h
  · unfold signOf at h
    split at h <;> simp at h
  · exact (field_printed num base flags k _ h).1 rfl

theorem readField_plain (base : Base) {s : Str} (h : ∀ c ∈ s, Printed c) :
    readField base s = (readDigits base (skipPrefix base s)).map fun n : Nat => (n : Int) := by
  unfold readField
  split
  · exact absurd rfl (h '-' List.mem_cons_self).2
  · rfl

theorem readField_fieldOf (num : BitVec 64) (base : Base) (flags : PrintFlags) (k : Nat) :
    readField base (fieldOf num base flags k) = some (valueOf num flags) := by
  have hch := field_printed num base flags k
  have hread : readDigits base (skipPrefix base (prefixOf base flags ++ List.replicate k '0' ++ digitsOf num base flags)) =
      some (valueOf num flags).natAbs := skipPrefix_prefixOf base flags k _
  rw [fieldOf_eq, signOf]
  generalize prefixOf base flags ++ List.replicate k '0' ++ digitsOf num base flags = s at *
  split
  · rw [List.singleton_append, readField, hread, Option.map_some, Option.some.injEq]
    omega
  · rw [List.nil_append, readField_plain base hch, hread, Option.map_some, Option.some.injEq]
    omega

/-! ## The exact condition -/

theorem length_fieldOf (num : BitVec 64) (base : Base) (flags : PrintFlags) (k : Nat) :
    (fieldOf num base flags k).length = naturalLength num base flags + k := by
  simp only [fieldOf, naturalLength, List.length_append, List.length_replicate]
  omega

theorem length_printNum (num : BitVec 64) (base : Base) (width : BitVec 32) (flags : PrintFlags) :
    (printNum num base width flags).length = naturalLength num base flags + padding num base width flags := by
  rw [printNum_eq, naturalLength]
  cases flags.leftJust <;> cases flags.zeroPad <;> simp <;> omega

/-- The padding fills the width up, unless the counter wraps. -/
theorem padding_eq (num : BitVec 64) (base : Base) (width : BitVec 32) (flags : PrintFlags) :
    (padding num base width flags : Int) = (if -2 ^ 31 ≤ width.toInt - naturalLength num base flags
      then max 0 (width.toInt - naturalLength num base flags) else width.toInt - naturalLength num base flags + 2 ^ 32) := by
  have hn := naturalLength_le num base flags
  have hw1 := BitVec.le_toInt width
  have hw2 := BitVec.toInt_lt (x := width)
  have ht : (BitVec.ofNat 32 (naturalLength num base flags)).toInt = naturalLength num base flags := by
    rw [BitVec.toInt_eq_toNat_of_lt (by rw [BitVec.toNat_ofNat]; omega), BitVec.toNat_ofNat]
    omega
  unfold padding
  rw [BitVec.toInt_sub, ht, Int.bmod_def]
  generalize naturalLength num base flags = n at *
  split <;> split <;> omega

theorem prefixOf_eq_nil_iff (base : Base) (flags : PrintFlags) :
    prefixOf base flags = [] ↔ (flags.altForm = true → base = .ten) := by
  unfold prefixOf
  cases flags.altForm with
  | false => simp
  | true =>
    cases base with
    | sixteen =>
      simp only [if_true, reduceCtorEq, imp_false, not_true_eq_false, iff_false]
      split <;> simp
    | _ => simp

theorem prefixOf_head {base : Base} {flags : PrintFlags} (h : prefixOf base flags ≠ []) :
    ∃ s, prefixOf base flags = '0' :: s := by
  unfold prefixOf at h ⊢
  split at h
  · rename_i ha
    rw [if_pos ha]
    cases base <;> simp at h ⊢
    split <;> simp
  · exact absurd rfl h

theorem signOf_eq (num : BitVec 64) (flags : PrintFlags) :
    signOf num flags = if valueOf num flags < 0 then ['-'] else [] := rfl

/-- With a prefix before it, the sign is not where the field starts. -/
theorem not_formatted_of_sign {num : BitVec 64} {base : Base} {width : BitVec 32} {flags : PrintFlags}
    (hp : prefixOf base flags ≠ []) (hneg : valueOf num flags < 0) :
    ¬ Formatted num base width flags (printNum num base width flags) := by
  intro h
  obtain ⟨spaces, zeros, -, hout⟩ := h.2
  obtain ⟨s, hs⟩ := prefixOf_head hp
  rw [printNum_eq, fieldOf_eq, signOf_eq, if_pos hneg, hs] at hout
  by_cases hl : flags.leftJust = true
  · rw [if_pos hl] at hout
    simp at hout
  · rw [if_neg hl] at hout
    cases spaces with
    | zero => simp at hout
    | succ n => simp [List.replicate_succ] at hout

/-- Spaces after a prefix are inside the field. -/
theorem not_formatted_of_spaces {num : BitVec 64} {base : Base} {width : BitVec 32} {flags : PrintFlags}
    (hp : prefixOf base flags ≠ []) (hl : flags.leftJust = false) (hz : flags.zeroPad = false)
    (hpad : 0 < padding num base width flags) : ¬ Formatted num base width flags (printNum num base width flags) := by
  intro h
  obtain ⟨spaces, zeros, -, hout⟩ := h.2
  obtain ⟨s, hs⟩ := prefixOf_head hp
  obtain ⟨n, hn⟩ : ∃ n, padding num base width flags = n + 1 := ⟨_, (Nat.succ_pred_eq_of_pos hpad).symm⟩
  have hmem : ' ' ∈ printNum num base width flags := by
    rw [printNum_eq, hl, hz, hn]
    simp [List.replicate_succ]
  rw [hl, if_neg Bool.false_ne_true] at hout
  cases spaces with
  | zero =>
    rw [hout] at hmem
    exact space_notMem_fieldOf num base flags zeros hmem
  | succ k =>
    rw [printNum_eq, hs, List.replicate_succ] at hout
    simp at hout

theorem length_formatted_iff (num : BitVec 64) (base : Base) (width : BitVec 32) (flags : PrintFlags) :
    ((printNum num base width flags).length : Int) = max width.toInt (naturalLength num base flags) ↔
      -2 ^ 31 ≤ width.toInt - naturalLength num base flags := by
  have hpad := padding_eq num base width flags
  have hn := naturalLength_le num base flags
  have hw := BitVec.le_toInt width
  rw [length_printNum]
  split at hpad
  · omega
  · omega

/-- What is printed is padding and one field that reads back as the number, exactly if no prefix is printed before
    padding or a sign and the pad counter does not wrap. -/
theorem formatted_iff (num : BitVec 64) (base : Base) (width : BitVec 32) (flags : PrintFlags) :
    Formatted num base width flags (printNum num base width flags) ↔ Orderly num base width flags := by
  have hpad := padding_eq num base width flags
  constructor
  · intro h
    have hfit := (length_formatted_iff num base width flags).mp h.1
    refine ⟨fun ha hb => ?_, hfit⟩
    have hp : prefixOf base flags ≠ [] := fun e => hb ((prefixOf_eq_nil_iff base flags).mp e ha)
    constructor
    · by_contra hneg
      exact not_formatted_of_sign hp (not_le.mp hneg) h
    · by_contra hn
      push Not at hn
      obtain ⟨hl, hz, hw⟩ := hn
      rw [if_pos hfit] at hpad
      exact not_formatted_of_spaces hp (Bool.eq_false_iff.mpr hl) (Bool.eq_false_iff.mpr hz) (by omega) h
  · intro h
    obtain ⟨horder, hfit⟩ := h
    refine ⟨(length_formatted_iff num base width flags).mpr hfit, ?_⟩
    rw [if_pos hfit] at hpad
    -- without a prefix the places of the padding are all outside of what the field takes
    by_cases hp : prefixOf base flags = []
    · by_cases hz : flags.zeroPad = true
      · refine ⟨0, padding num base width flags, readField_fieldOf _ _ _ _, ?_⟩
        rw [printNum_eq, fieldOf, hp, hz]
        simp
      · refine ⟨padding num base width flags, 0, readField_fieldOf _ _ _ _, ?_⟩
        rw [printNum_eq, fieldOf, hp, Bool.eq_false_iff.mpr hz]
        cases flags.leftJust <;> simp
    · obtain ⟨hpos, hplace⟩ := horder
        (by by_contra ha; exact hp ((prefixOf_eq_nil_iff base flags).mpr fun e => absurd e ha))
        (fun hb => hp ((prefixOf_eq_nil_iff base flags).mpr fun _ => hb))
      have hs : signOf num flags = [] := by rw [signOf_eq, if_neg (not_lt.mpr hpos)]
      by_cases hz : flags.zeroPad = true
      · refine ⟨0, padding num base width flags, readField_fieldOf _ _ _ _, ?_⟩
        rw [printNum_eq, fieldOf, hs, hz]
        simp
      · refine ⟨padding num base width flags, 0, readField_fieldOf _ _ _ _, ?_⟩
        rw [printNum_eq, fieldOf, hs, Bool.eq_false_iff.mpr hz]
        rcases hplace with hl | hz' | hw
        · rw [hl]
          simp
        · exact absurd hz' hz
        · have h0 : padding num base width flags = 0 := by omega
          rw [h0]
          cases flags.leftJust <;> simp

/-- `%#8x` of 5 is printed as `0x     5`. -/
theorem prefix_before_spaces :
    printNum 5 .sixteen 8 ⟨false, false, true, false, false⟩ = ['0', 'x', ' ', ' ', ' ', ' ', ' ', '5'] ∧
    ¬ Formatted 5 .sixteen 8 ⟨false, false, true, false, false⟩
      (printNum 5 .sixteen 8 ⟨false, false, true, false, false⟩) := by
  have hd : digitsOf 5 .sixteen ⟨false, false, true, false, false⟩ = ['5'] := by
    have h5 : (valueOf 5 ⟨false, false, true, false, false⟩).natAbs = 5 := rfl
    have hd : Nat.digits Base.sixteen.val 5 = [5] := Nat.digits_of_lt 16 5 (by decide) (by decide)
    rw [digitsOf, h5, numeral, if_neg (by decide), hd]
    rfl
  have hpad : padding 5 .sixteen 8 ⟨false, false, true, false, false⟩ = 5 := by
    rw [padding, naturalLength, hd]
    rfl
  constructor
  · rw [printNum_eq, hd, hpad]
    rfl
  · refine not_formatted_of_spaces (by decide) rfl rfl ?_
    rw [hpad]
    decide

end Myos.Printk

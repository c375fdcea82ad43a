/-
  Myos.Printk.Formats — the scan of the format in `vprintk` (`kernel/printk.c`).

  A pointer into the format is what is left before the terminator; at the terminator
  nothing is left, and `fmt++` there passes it. The arguments are slots of 64 bits, taken
  one after the other; the string at an address is a parameter. The lock is left out.

  Proved: the scan stays inside the format, and ends, exactly if every directive of the
  format is complete (`scan_iff`).
-/

import Myos.Printk.Numbers

namespace Myos.Printk

structure Args where
  slot : Nat → BitVec 64
  /-- The characters at an address, up to the terminator. -/
  strAt : BitVec 64 → Str

/-! ## A directive -/

def isFlag (c : Char) : Bool := c == '-' || c == '+' || c == '0' || c == '#'

def isDigit (c : Char) : Bool := decide ('0' ≤ c) && decide (c ≤ '9')

def setFlag (flags : PrintFlags) (c : Char) : PrintFlags :=
  if c = '-' then { flags with leftJust := true }
  else if c = '+' then { flags with signed := true }
  else if c = '0' then { flags with zeroPad := true }
  else if c = '#' then { flags with altForm := true }
  else flags

def flagLoop : PrintFlags → Str → PrintFlags × Str
  | flags, [] => (flags, [])
  | flags, c :: fmt => if isFlag c then flagLoop (setFlag flags c) fmt else (flags, c :: fmt)

def widthLoop : BitVec 32 → Str → BitVec 32 × Str
  | width, [] => (width, [])
  | width, c :: fmt =>
    if isDigit c then widthLoop (width * 10 + BitVec.ofNat 32 (c.toNat - '0'.toNat)) fmt else (width, c :: fmt)

/-- `is_long`, and where the conversion starts. -/
def lengthOf : Str → Nat × Str
  | 'l' :: 'l' :: fmt => (2, fmt)
  | 'l' :: fmt => (1, fmt)
  | fmt => (0, fmt)

/-- The character at the pointer. -/
def deref (fmt : Str) : Char := fmt.headD '\x00'

/-- An argument read as `int`, as `unsigned int`, or whole. -/
def signedArg (isLong : Nat) (a : BitVec 64) : BitVec 64 := if 1 ≤ isLong then a else (a.truncate 32).signExtend 64
def unsignedArg (isLong : Nat) (a : BitVec 64) : BitVec 64 := if 1 ≤ isLong then a else (a.truncate 32).zeroExtend 64

/-- The switch on the conversion: where the pointer is after it, the arguments taken, and what is printed. -/
def conversion (m : Args) (flags : PrintFlags) (width : BitVec 32) (isLong : Nat) (fmt : Str) (k : Nat) : Str × Nat × Str :=
  let a := m.slot k
  match deref fmt with
  | 's' => (fmt, k + 1, if a = 0 then "(null)".toList else m.strAt a)
  | 'c' => (fmt, k + 1, [Char.ofNat (a.toNat % 256)])
  | 'd' => (fmt, k + 1, printNum (signedArg isLong a) .ten width { flags with signed := true })
  | 'i' => (fmt, k + 1, printNum (signedArg isLong a) .ten width { flags with signed := true })
  | 'u' => (fmt, k + 1, printNum (unsignedArg isLong a) .ten width flags)
  | 'x' => (fmt, k + 1, printNum (unsignedArg isLong a) .sixteen width flags)
  | 'X' => (fmt, k + 1, printNum (unsignedArg isLong a) .sixteen width { flags with hexUpper := true })
  | 'o' => (fmt, k + 1, printNum (unsignedArg isLong a) .eight width flags)
  | 'b' => (fmt, k + 1, printNum (unsignedArg isLong a) .two width flags)
  | 'p' => (fmt, k + 1, printNum a .sixteen (if width ≠ 0 then width else 16) { flags with altForm := true })
  | 'z' =>
    let fmt := fmt.tail
    if deref fmt = 'u' then (fmt, k + 1, printNum a .ten width flags)
    else if deref fmt = 'x' then (fmt, k + 1, printNum a .sixteen width flags)
    else (fmt, k, [])
  | '%' => (fmt, k, ['%'])
  | '\x00' => (fmt, k, ['%'])
  | c => (fmt, k, ['%', c])

/-- What follows a `%`. -/
def directive (m : Args) (fmt : Str) (k : Nat) : Str × Nat × Str :=
  let (flags, fmt) := flagLoop ⟨false, false, false, false, false⟩ fmt
  let (width, fmt) := widthLoop 0 fmt
  let (isLong, fmt) := lengthOf fmt
  conversion m flags width isLong fmt k

/-- `fmt++`: past the terminator there is no pointer. -/
def next : Str → Option Str
  | [] => none
  | _ :: fmt => some fmt

/-! ## Where a directive ends -/

theorem flagLoop_snd (flags : PrintFlags) (fmt : Str) : (flagLoop flags fmt).2 = fmt.dropWhile isFlag := by
  induction fmt generalizing flags with
  | nil => rfl
  | cons c fmt ih =>
    unfold flagLoop
    by_cases h : isFlag c = true
    · rw [if_pos h, ih, List.dropWhile_cons_of_pos h]
    · rw [if_neg h, List.dropWhile_cons_of_neg h]

theorem widthLoop_snd (width : BitVec 32) (fmt : Str) : (widthLoop width fmt).2 = fmt.dropWhile isDigit := by
  induction fmt generalizing width with
  | nil => rfl
  | cons c fmt ih =>
    unfold widthLoop
    by_cases h : isDigit c = true
    · rw [if_pos h, ih, List.dropWhile_cons_of_pos h]
    · rw [if_neg h, List.dropWhile_cons_of_neg h]

/-- Where the conversion leaves the pointer. -/
def conversionEnd (fmt : Str) : Str := if deref fmt = 'z' then fmt.tail else fmt

theorem conversion_fst (m : Args) (flags : PrintFlags) (width : BitVec 32) (isLong : Nat) (fmt : Str) (k : Nat) :
    (conversion m flags width isLong fmt k).1 = conversionEnd fmt := by
  unfold conversion conversionEnd
  by_cases hz : deref fmt = 'z'
  · simp only [hz, if_true]
    split
    · rfl
    · split <;> rfl
  · rw [if_neg hz]
    simp only []
    split
    case h_11 h => exact absurd h hz
    all_goals rfl

/-! ## The scan -/

/-- Where a directive leaves the pointer. -/
def directiveEnd (fmt : Str) : Str := conversionEnd (lengthOf ((fmt.dropWhile isFlag).dropWhile isDigit)).2

theorem directive_fst (m : Args) (fmt : Str) (k : Nat) : (directive m fmt k).1 = directiveEnd fmt := by
  rw [directiveEnd, ← flagLoop_snd ⟨false, false, false, false, false⟩, ← widthLoop_snd 0]
  exact conversion_fst _ _ _ _ _ _

theorem length_lengthOf (fmt : Str) : (lengthOf fmt).2.length ≤ fmt.length := by
  unfold lengthOf
  split <;> simp
  omega

theorem length_directiveEnd (fmt : Str) : (directiveEnd fmt).length ≤ fmt.length := by
  have h1 := (List.dropWhile_suffix (l := fmt) isFlag).length_le
  have h2 := (List.dropWhile_suffix (l := fmt.dropWhile isFlag) isDigit).length_le
  have h3 := length_lengthOf ((fmt.dropWhile isFlag).dropWhile isDigit)
  unfold directiveEnd conversionEnd
  split
  · rw [List.length_tail]
    omega
  · omega

/-- Bytes left before the pointer has passed the terminator. -/
def room (fmt : Option Str) : Nat := fmt.elim 0 fun s => s.length + 1

theorem room_next (fmt : Str) : room (next fmt) ≤ fmt.length := by
  cases fmt <;> simp [room, next]

/-- The loop of `vprintk`: what is printed, or no result when it reads past the terminator. -/
def vprintk (m : Args) (fmt : Option Str) (k : Nat) (out : Str) : Option Str :=
  match fmt with
  | none => none
  | some [] => some out
  | some (c :: fmt) =>
    if c = '\x00' then some out
    else if c = '%' then
      let r := directive m fmt k
      vprintk m (next r.1) r.2.1 (out ++ r.2.2)
    else vprintk m (some fmt) k (out ++ [c])
termination_by room fmt
decreasing_by
  · have h1 := room_next (directive m fmt k).1
    have h2 := length_directiveEnd fmt
    rw [← directive_fst m fmt k] at h2
    simp only [room, Option.elim_some, List.length_cons] at h1 ⊢
    omega
  · simp [room]

/-! ## Complete formats -/

/-- The parts of a directive, each as long as it can be. -/
structure Directive (flags width len conv : Str) : Prop where
  flags_all : ∀ c ∈ flags, isFlag c = true
  width_all : ∀ c ∈ width, isDigit c = true
  width_head : ∀ c ∈ width.head?, isFlag c = false
  len_cases : len = [] ∨ len = ['l'] ∨ len = ['l', 'l']
  conv_cases : (∃ c, c ≠ 'z' ∧ conv = [c]) ∨ ∃ c, conv = ['z', c]
  conv_of_one : len = ['l'] → ∀ c ∈ conv.head?, c ≠ 'l'
  conv_of_none : len = [] → ∀ c ∈ conv.head?, c ≠ 'l' ∧ isDigit c = false ∧ (width = [] → isFlag c = false)

/-- Characters other than `%`, and directives with their conversion; after `z` one more character. -/
inductive Complete : Str → Prop
  | nil : Complete []
  | plain {c : Char} {fmt : Str} : c ≠ '%' → Complete fmt → Complete (c :: fmt)
  | directive {flags width len conv fmt : Str} : Directive flags width len conv → Complete fmt →
      Complete ('%' :: (flags ++ (width ++ (len ++ (conv ++ fmt)))))

theorem dropWhile_append {p : Char → Bool} {l r : Str} (hl : ∀ c ∈ l, p c = true) (hr : ∀ c ∈ r.head?, p c = false) :
    (l ++ r).dropWhile p = r := by
  rw [List.dropWhile_append_of_pos hl]
  cases r with
  | nil => rfl
  | cons c r => rw [List.dropWhile_cons_of_neg (Bool.eq_false_iff.mp (hr c rfl))]

theorem dropWhile_head {p : Char → Bool} (l : Str) : ∀ c ∈ (l.dropWhile p).head?, p c = false := by
  intro c hc
  have := List.head?_dropWhile_not p l
  rw [hc] at this
  simpa using this

theorem head_append {c : Char} {l r : Str} (hl : l ≠ []) (hc : c ∈ (l ++ r).head?) : c ∈ l.head? := by
  cases l with
  | nil => exact absurd rfl hl
  | cons a l => exact hc

theorem Directive.conv_ne_nil {flags width len conv : Str} (h : Directive flags width len conv) : conv ≠ [] := by
  rcases h.conv_cases with ⟨c, -, hc⟩ | ⟨c, hc⟩ <;> simp [hc]

theorem Directive.lengthOf {flags width len conv : Str} (h : Directive flags width len conv) (fmt : Str) :
    (lengthOf (len ++ (conv ++ fmt))).2 = conv ++ fmt := by
  have hne := h.conv_ne_nil
  have h0 := h.conv_of_none
  have h1 := h.conv_of_one
  cases conv with
  | nil => exact absurd rfl hne
  | cons c conv =>
    rcases h.len_cases with rfl | rfl | rfl
    · have hc := (h0 rfl c rfl).1
      unfold Printk.lengthOf
      split <;> simp_all
    · have hc := h1 rfl c rfl
      unfold Printk.lengthOf
      split <;> simp_all
    · rfl

/-- The scan of a directive ends on its last character. -/
theorem Directive.next {flags width len conv : Str} (h : Directive flags width len conv) (fmt : Str) :
    next (directiveEnd (flags ++ (width ++ (len ++ (conv ++ fmt))))) = some fmt := by
  have hl : ∀ c ∈ (len ++ (conv ++ fmt)).head?, isDigit c = false ∧ (width = [] → isFlag c = false) := by
    intro c hc
    rcases h.len_cases with he | he | he
    · rw [he, List.nil_append] at hc
      exact (h.conv_of_none he c (head_append h.conv_ne_nil hc)).2
    · rw [he] at hc
      obtain rfl : 'l' = c := by simpa using hc
      exact ⟨by decide, fun _ => by decide⟩
    · rw [he] at hc
      obtain rfl : 'l' = c := by simpa using hc
      exact ⟨by decide, fun _ => by decide⟩
  have hf : ∀ c ∈ (width ++ (len ++ (conv ++ fmt))).head?, isFlag c = false := by
    intro c hc
    by_cases hw : width = []
    · rw [hw, List.nil_append] at hc
      exact (hl c hc).2 hw
    · exact h.width_head c (head_append hw hc)
  rw [directiveEnd, dropWhile_append h.flags_all hf, dropWhile_append h.width_all fun c hc => (hl c hc).1, h.lengthOf]
  rcases h.conv_cases with ⟨c, hz, rfl⟩ | ⟨c, rfl⟩
  · rw [conversionEnd, if_neg (show deref ([c] ++ fmt) ≠ 'z' from hz)]
    rfl
  · rfl

theorem lengthOf_cases (fmt : Str) : ∃ len, fmt = len ++ (lengthOf fmt).2 ∧ (len = [] ∨ len = ['l'] ∨ len = ['l', 'l']) ∧
    (len = ['l'] ∨ len = [] → ∀ c ∈ (lengthOf fmt).2.head?, c ≠ 'l') := by
  unfold lengthOf
  split
  · exact ⟨['l', 'l'], rfl, by simp, by simp⟩
  · rename_i rest h
    refine ⟨['l'], rfl, by simp, fun _ c hc e => ?_⟩
    obtain ⟨r, hr⟩ := List.head?_eq_some_iff.mp hc
    exact h r (by rw [show rest = c :: r from hr, e])
  · rename_i h1 h2
    refine ⟨[], rfl, by simp, fun _ c hc e => ?_⟩
    obtain ⟨r, hr⟩ := List.head?_eq_some_iff.mp hc
    exact h2 r (by rw [show fmt = c :: r from hr, e])

/-- A scan that ends on a character has read a directive. -/
theorem directive_of_next {s fmt : Str} (h : next (directiveEnd s) = some fmt) :
    ∃ flags width len conv, Directive flags width len conv ∧ s = flags ++ (width ++ (len ++ (conv ++ fmt))) := by
  obtain ⟨len, hlen, hcases, hl⟩ := lengthOf_cases ((s.dropWhile isFlag).dropWhile isDigit)
  have hs : s = s.takeWhile isFlag ++ ((s.dropWhile isFlag).takeWhile isDigit ++ (len ++
      (lengthOf ((s.dropWhile isFlag).dropWhile isDigit)).2)) := by
    rw [← hlen, List.takeWhile_append_dropWhile, List.takeWhile_append_dropWhile]
  have hdigit := dropWhile_head (p := isDigit) (s.dropWhile isFlag)
  have hflag := dropWhile_head (p := isFlag) s
  have hnone : len = [] → ∀ c ∈ (lengthOf ((s.dropWhile isFlag).dropWhile isDigit)).2.head?,
      c ≠ 'l' ∧ isDigit c = false ∧ ((s.dropWhile isFlag).takeWhile isDigit = [] → isFlag c = false) := by
    intro he c hc
    refine ⟨hl (Or.inr he) c hc, ?_, fun hw => ?_⟩
    · rw [he, List.nil_append] at hlen
      rw [← hlen] at hc
      exact hdigit c hc
    · rw [he, List.nil_append] at hlen
      rw [← hlen] at hc
      refine hflag c ?_
      rwa [← List.takeWhile_append_dropWhile (p := isDigit) (l := s.dropWhile isFlag), hw, List.nil_append]
  have hwidth : ∀ c ∈ ((s.dropWhile isFlag).takeWhile isDigit).head?, isFlag c = false := by
    intro c hc
    refine hflag c ?_
    rw [← List.takeWhile_append_dropWhile (p := isDigit) (l := s.dropWhile isFlag)]
    obtain ⟨r, hr⟩ := List.head?_eq_some_iff.mp hc
    rw [hr]
    rfl
  rw [directiveEnd] at h
  generalize (lengthOf ((s.dropWhile isFlag).dropWhile isDigit)).2 = rest at *
  have build : ∀ conv, rest = conv ++ fmt → ((∃ c, c ≠ 'z' ∧ conv = [c]) ∨ ∃ c, conv = ['z', c]) →
      ∃ flags width len conv, Directive flags width len conv ∧ s = flags ++ (width ++ (len ++ (conv ++ fmt))) := by
    intro conv he hconv
    have hhead : ∀ c ∈ conv.head?, c ∈ rest.head? := by
      intro c hc
      obtain ⟨r, hr⟩ := List.head?_eq_some_iff.mp hc
      rw [he, hr]
      rfl
    refine ⟨_, _, len, conv, ⟨?_, ?_, hwidth, hcases, hconv, ?_, ?_⟩, by rw [← he]; exact hs⟩
    · exact fun c hc => List.mem_takeWhile_imp hc
    · exact fun c hc => List.mem_takeWhile_imp hc
    · exact fun e c hc => hl (Or.inl e) c (hhead c hc)
    · exact fun e c hc => hnone e c (hhead c hc)
  unfold conversionEnd at h
  split at h
  · rename_i hz
    rcases rest with - | ⟨a, - | ⟨c, rest⟩⟩
    · exact absurd hz (by decide)
    · cases h
    · obtain rfl : rest = fmt := Option.some.inj h
      obtain rfl : a = 'z' := hz
      exact build ['z', c] rfl (Or.inr ⟨c, rfl⟩)
  · rename_i hz
    rcases rest with - | ⟨c, rest⟩
    · cases h
    · obtain rfl : rest = fmt := Option.some.inj h
      exact build [c] rfl (Or.inl ⟨c, hz, rfl⟩)

theorem complete_percent_iff (s : Str) : Complete ('%' :: s) ↔ ∃ fmt, next (directiveEnd s) = some fmt ∧ Complete fmt := by
  constructor
  · intro h
    cases h with
    | plain hne _ => exact absurd rfl hne
    | directive hd hc => exact ⟨_, hd.next _, hc⟩
  · intro h
    obtain ⟨fmt, hn, hc⟩ := h
    obtain ⟨flags, width, len, conv, hd, rfl⟩ := directive_of_next hn
    exact Complete.directive hd hc

theorem complete_cons_iff {c : Char} (h : c ≠ '%') (fmt : Str) : Complete (c :: fmt) ↔ Complete fmt := by
  constructor
  · intro hc
    cases hc with
    | plain _ hc => exact hc
    | directive _ _ => exact absurd rfl h
  · exact Complete.plain h

/-! ## The exact condition -/

theorem vprintk_iff (m : Args) (fmt : Option Str) (k : Nat) (out : Str) (hnul : ∀ s, fmt = some s → '\x00' ∉ s) :
    (vprintk m fmt k out).isSome = true ↔ ∃ s, fmt = some s ∧ Complete s := by
  fun_induction vprintk m fmt k out with
  | case1 k out => simp
  | case2 k out => simp [Complete.nil]
  | case3 k out fmt => exact absurd List.mem_cons_self (hnul _ rfl)
  | case4 k out fmt r h0 ih =>
    have hin : ∀ s, next (directiveEnd fmt) = some s → '\x00' ∉ s := by
      intro s hs h0
      obtain ⟨flags, width, len, conv, -, he⟩ := directive_of_next hs
      refine hnul _ rfl (List.mem_cons_of_mem _ ?_)
      rw [he]
      simp [h0]
    have hr : next r.1 = next (directiveEnd fmt) := congrArg next (directive_fst m fmt k)
    rw [ih (by rw [hr]; exact hin), hr]
    simp [complete_percent_iff]
  | case5 k out c fmt h0 hc ih =>
    rw [ih fun s hs => by cases hs; exact fun h => hnul _ rfl (List.mem_cons_of_mem _ h)]
    simp [complete_cons_iff hc]

/-- The scan of a string stays inside it and ends exactly if the string is made of characters and complete
    directives. -/
theorem scan_iff (m : Args) (fmt : Str) (hnul : '\x00' ∉ fmt) :
    (vprintk m (some fmt) 0 []).isSome = true ↔ Complete fmt := by
  rw [vprintk_iff m (some fmt) 0 [] fun s hs => by cases hs; exact hnul]
  simp

theorem scan_percent_d : '\x00' ∉ ['%', 'd'] ∧
    ((vprintk ⟨fun _ => 0, fun _ => []⟩ (some ['%', 'd']) 0 []).isSome = true ↔ Complete ['%', 'd']) :=
  ⟨by decide, scan_iff _ ['%', 'd'] (by decide)⟩

/-- A format that is one `%`: the scan passes the terminator. -/
theorem cut_percent : '\x00' ∉ ['%'] ∧ vprintk ⟨fun _ => 0, fun _ => []⟩ (some ['%']) 0 [] = none := by
  refine ⟨by decide, ?_⟩
  rw [vprintk, if_neg (by decide), if_pos rfl]
  have h : (directive ⟨fun _ => 0, fun _ => []⟩ [] 0).1 = [] := directive_fst _ [] 0
  simp only [h, next]
  rw [vprintk]

end Myos.Printk

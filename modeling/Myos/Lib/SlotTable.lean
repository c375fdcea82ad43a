/-
  Myos.Lib.SlotTable — a table of slots that is read up to its first blank one.

  The slots are places in an order; a place is blank, is passed over, or holds a value. A new
  value goes to a place without one that has no blank place before it.

  `SlotTable`: behind a blank place all are blank, and no two values have one key.

  Proved: the end mark hides no value; the table is a finite map from keys to values, and
  putting a value, taking one away and changing one under its key are the updates of that map.
-/

import Mathlib.Data.List.Basic
import Mathlib.Data.List.Nodup
import Mathlib.Logic.Function.Basic

namespace Myos.Lib

inductive Slot (α : Type*) where
  | blank
  | passed
  | used (a : α)
  deriving DecidableEq, Repr

namespace Slot

variable {α : Type*} {a : α} {s : Slot α}

def isBlank : Slot α → Bool
  | blank => true
  | _ => false

def value? : Slot α → Option α
  | used a => some a
  | _ => none

@[simp] theorem isBlank_iff : s.isBlank = true ↔ s = blank := by cases s <;> simp [isBlank]

@[simp] theorem value?_eq_some : s.value? = some a ↔ s = used a := by cases s <;> simp [value?]

end Slot

variable {π α κ : Type*} {key : α → κ} {f g : π → Slot α} {ps qs as bs : List π} {p q : π} {a b : α} {x : κ}

/-- The values up to the first blank place. -/
def listing (f : π → Slot α) (ps : List π) : List α := (ps.takeWhile fun p => !(f p).isBlank).filterMap fun p => (f p).value?

structure SlotTable (key : α → κ) (f : π → Slot α) (ps : List π) : Prop where
  nodup : ps.Nodup
  tidy : ps.Pairwise fun p q => f p = .blank → f q = .blank
  distinct : ∀ p ∈ ps, ∀ q ∈ ps, ∀ a b, f p = .used a → f q = .used b → key a = key b → p = q

/-- The value with the key. -/
def valueOf [DecidableEq κ] (key : α → κ) (f : π → Slot α) (ps : List π) (x : κ) : Option α :=
  (listing f ps).find? fun a => key a = x

/-! ## What is listed -/

theorem listing_eq (h : ps.Pairwise fun p q => f p = .blank → f q = .blank) : listing f ps = ps.filterMap fun p => (f p).value? := by
  induction ps with
  | nil => rfl
  | cons p ps ih =>
    rw [List.pairwise_cons] at h
    have ih := ih h.2
    unfold listing at ih ⊢
    by_cases hp : f p = .blank
    · have hnone : ps.filterMap (fun q => (f q).value?) = [] := by
        apply List.filterMap_eq_nil_iff.mpr
        intro q hq
        rw [h.1 q hq hp]
        rfl
      rw [List.takeWhile_cons_of_neg (by simp [hp]), List.filterMap_cons, hp, hnone]
      rfl
    · have hb : (f p).isBlank = false := Bool.eq_false_iff.mpr (mt Slot.isBlank_iff.1 hp)
      rw [List.takeWhile_cons_of_pos (by simp [hb]), List.filterMap_cons, List.filterMap_cons, ih]

/-- The end mark hides no value. -/
theorem mem_listing (h : SlotTable key f ps) : a ∈ listing f ps ↔ ∃ p ∈ ps, f p = .used a := by
  rw [listing_eq h.tidy, List.mem_filterMap]
  simp

/-- No two values listed have one key. -/
theorem listing_keys (h : SlotTable key f ps) : (listing f ps).Pairwise fun a b => key a ≠ key b := by
  rw [listing_eq h.tidy, List.pairwise_filterMap]
  apply h.nodup.imp_of_mem
  intro p q hp hq hne a ha b hb he
  rw [Slot.value?_eq_some] at ha hb
  exact hne (h.distinct p hp q hq a b ha hb he)

/-! ## Changes -/

namespace SlotTable

/-- The place `p` holds something else, whose key, if it has one, is new or that of before. -/
theorem set (h : SlotTable key f (as ++ p :: bs)) (ho : ∀ q ∈ as ++ p :: bs, q ≠ p → g q = f q) (hb : g p ≠ .blank)
    (has : ∀ q ∈ as, f q ≠ .blank) (hk : ∀ b, g p = .used b → ∀ q ∈ as ++ p :: bs, q ≠ p → ∀ a, f q = .used a → key a ≠ key b) :
    SlotTable key g (as ++ p :: bs) := by
  have hne : ∀ q, (q ∈ as ∨ q ∈ bs) → q ≠ p := by
    rintro q hq rfl
    have hnd := List.nodup_middle.mp h.nodup
    rw [List.nodup_cons, List.mem_append] at hnd
    exact hnd.1 hq
  have hog : ∀ q, (q ∈ as ∨ q ∈ bs) → g q = f q := fun q hq => by
    refine ho q ?_ (hne q hq)
    rw [List.mem_append, List.mem_cons]
    exact hq.imp id Or.inr
  refine ⟨h.nodup, ?_, ?_⟩
  · have ht := h.tidy
    rw [List.pairwise_append, List.pairwise_cons] at ht ⊢
    refine ⟨ht.1.imp_of_mem fun {q r} hq hr hqr => ?_, ⟨fun r _ e => absurd e hb, ht.2.1.2.imp_of_mem fun {q r} hq hr hqr => ?_⟩,
      fun q hq r _ e => ?_⟩
    · rw [hog q (Or.inl hq), hog r (Or.inl hr)]
      exact hqr
    · rw [hog q (Or.inr hq), hog r (Or.inr hr)]
      exact hqr
    · rw [hog q (Or.inl hq)] at e
      exact absurd e (has q hq)
  · intro q hq r hr a b ha hb hab
    by_cases hqp : q = p
    · by_cases hrp : r = p
      · rw [hqp, hrp]
      · rw [ho r hr hrp] at hb
        exact absurd hab.symm (hk a (hqp ▸ ha) r hr hrp b hb)
    · rw [ho q hq hqp] at ha
      by_cases hrp : r = p
      · exact absurd hab (hk b (hrp ▸ hb) q hq hqp a ha)
      · rw [ho r hr hrp] at hb
        exact h.distinct q hq r hr a b ha hb hab

/-- No place in front of a value is blank. -/
theorem used_front (h : SlotTable key f (as ++ p :: bs)) (ha : f p ≠ .blank) : ∀ q ∈ as, f q ≠ .blank := by
  intro q hq e
  have ht := h.tidy
  rw [List.pairwise_append] at ht
  exact ha (ht.2.2 q hq p (List.mem_cons_self ..) e)

/-- A value with a new key is put to the first place that is not taken. -/
theorem put (h : SlotTable key f ps) {free : π → Bool} (hp : ps.find? free = some p) (hfree : ∀ q ∈ ps, f q = .blank → free q = true)
    (ho : ∀ q ∈ ps, q ≠ p → g q = f q) (ha : g p = .used a) (hk : ∀ q ∈ ps, ∀ b, f q = .used b → key b ≠ key a) : SlotTable key g ps := by
  obtain ⟨-, as, bs, rfl, has⟩ := List.find?_eq_some_iff_append.mp hp
  refine h.set ho (by rw [ha]; exact nofun) (fun q hq e => ?_) fun b hb q hq _ a' ha' => ?_
  · have := has q hq
    rw [hfree q (List.mem_append_left _ hq) e] at this
    cases this
  · rw [ha] at hb
    cases hb
    exact hk q hq a' ha'

/-- A value is taken away, or changed under its key. -/
theorem change (h : SlotTable key f ps) (hp : p ∈ ps) (ha : f p = .used a) (ho : ∀ q ∈ ps, q ≠ p → g q = f q) (hb : g p ≠ .blank)
    (hk : ∀ b, g p = .used b → key b = key a) : SlotTable key g ps := by
  obtain ⟨as, bs, rfl⟩ := List.append_of_mem hp
  refine h.set ho hb (h.used_front (by rw [ha]; exact nofun)) fun b hb q hq hqp c hc e => hqp ?_
  exact h.distinct q hq p hp c a hc ha (e.trans (hk b hb))

/-- Blank places are hung behind a table without one. -/
theorem append (h : SlotTable key f ps) (hnd : (ps ++ qs).Nodup) (hps : ∀ p ∈ ps, f p ≠ .blank) (hqs : ∀ q ∈ qs, f q = .blank) :
    SlotTable key f (ps ++ qs) := by
  have hin : ∀ p ∈ ps ++ qs, ∀ a, f p = .used a → p ∈ ps := by
    intro p hp a ha
    rcases List.mem_append.mp hp with hp | hp
    · exact hp
    · rw [hqs p hp] at ha
      cases ha
  refine ⟨hnd, ?_, fun p hp q hq a b ha hb => h.distinct p (hin p hp a ha) q (hin q hq b hb) a b ha hb⟩
  rw [List.pairwise_append]
  refine ⟨h.tidy, ?_, fun p hp q _ e => absurd e (hps p hp)⟩
  exact List.pairwise_of_forall_mem_list fun q _ r hr _ => hqs r hr

theorem congr (h : SlotTable key f ps) (he : ∀ p ∈ ps, g p = f p) : SlotTable key g ps := by
  refine ⟨h.nodup, h.tidy.imp_of_mem fun {p q} hp hq hpq => ?_, fun p hp q hq a b ha hb => ?_⟩
  · rw [he p hp, he q hq]
    exact hpq
  · rw [he p hp] at ha
    rw [he q hq] at hb
    exact h.distinct p hp q hq a b ha hb

end SlotTable

/-! ## The map -/

variable [DecidableEq κ]

theorem valueOf_eq_some (h : SlotTable key f ps) : valueOf key f ps x = some a ↔ key a = x ∧ ∃ p ∈ ps, f p = .used a := by
  unfold valueOf
  constructor
  · intro he
    exact ⟨by simpa using List.find?_some he, (mem_listing h).mp (List.mem_of_find?_eq_some he)⟩
  · intro ⟨hk, p, hp, ha⟩
    have hmem := (mem_listing h).mpr ⟨p, hp, ha⟩
    cases hf : (listing f ps).find? fun a => key a = x with
    | none => exact absurd hk (by simpa using List.find?_eq_none.mp hf a hmem)
    | some b =>
      obtain ⟨q, hq, hb⟩ := (mem_listing h).mp (List.mem_of_find?_eq_some hf)
      have hbx : key b = x := by simpa using List.find?_some hf
      obtain rfl := h.distinct p hp q hq a b ha hb (hk.trans hbx.symm)
      rw [ha] at hb
      cases hb
      rfl

theorem valueOf_eq_none (h : SlotTable key f ps) : valueOf key f ps x = none ↔ ∀ p ∈ ps, ∀ a, f p = .used a → key a ≠ x := by
  constructor
  · intro hn p hp a ha he
    rw [(valueOf_eq_some h).mpr ⟨he, p, hp, ha⟩] at hn
    cases hn
  · intro hno
    cases hv : valueOf key f ps x with
    | none => rfl
    | some a =>
      obtain ⟨hk, p, hp, ha⟩ := (valueOf_eq_some h).mp hv
      exact absurd hk (hno p hp a ha)

/-- A value is at the place where it is. -/
theorem SlotTable.valueOf (h : SlotTable key f ps) (hp : p ∈ ps) (ha : f p = .used a) : Lib.valueOf key f ps (key a) = some a :=
  (valueOf_eq_some h).mpr ⟨rfl, p, hp, ha⟩

theorem valueOf_congr (he : ∀ p ∈ ps, g p = f p) : valueOf key g ps = valueOf key f ps := by
  have hl : listing g ps = listing f ps := by
    unfold listing
    have htw : ∀ qs : List π, (∀ p ∈ qs, g p = f p) → (qs.takeWhile fun p => !(g p).isBlank) = qs.takeWhile fun p => !(f p).isBlank := by
      intro qs hqs
      induction qs with
      | nil => rfl
      | cons p qs ih =>
        rw [List.takeWhile_cons, List.takeWhile_cons, hqs p (List.mem_cons_self ..), ih fun q hq => hqs q (List.mem_cons_of_mem _ hq)]
    rw [htw ps he]
    apply List.filterMap_congr
    intro p hp
    rw [he p ((List.takeWhile_sublist _).subset hp)]
  unfold valueOf
  rw [hl]

/-- Putting a value under a new key. -/
theorem valueOf_put (h : SlotTable key f ps) (hg : SlotTable key g ps) (hp : p ∈ ps) (ho : ∀ q ∈ ps, q ≠ p → g q = f q)
    (hf : ∀ a, f p ≠ .used a) (ha : g p = .used a) : valueOf key g ps = Function.update (valueOf key f ps) (key a) (some a) := by
  funext x
  by_cases hx : x = key a
  · rw [hx, Function.update_self, hg.valueOf hp ha]
  · rw [Function.update_of_ne hx]
    ext b
    rw [valueOf_eq_some hg, valueOf_eq_some h]
    refine and_congr_right fun hb => exists_congr fun q => and_congr_right fun hq => ?_
    by_cases hqp : q = p
    · rw [hqp, ha]
      refine ⟨fun e => ?_, fun e => absurd e (hf b)⟩
      cases e
      exact absurd hb.symm hx
    · rw [ho q hq hqp]

/-- Changing the value of a place under its key, or taking it away. -/
theorem valueOf_change (h : SlotTable key f ps) (hg : SlotTable key g ps) (hp : p ∈ ps) (ho : ∀ q ∈ ps, q ≠ p → g q = f q)
    (ha : f p = .used a) (hk : ∀ b, g p = .used b → key b = key a) :
    valueOf key g ps = Function.update (valueOf key f ps) (key a) (g p).value? := by
  funext x
  by_cases hx : x = key a
  · rw [hx, Function.update_self]
    ext b
    rw [valueOf_eq_some hg, Slot.value?_eq_some]
    constructor
    · intro ⟨hb, q, hq, he⟩
      by_cases hqp : q = p
      · rwa [hqp] at he
      · rw [ho q hq hqp] at he
        exact absurd (h.distinct q hq p hp b a he ha hb) hqp
    · exact fun hb => ⟨hk b hb, p, hp, hb⟩
  · rw [Function.update_of_ne hx]
    ext b
    rw [valueOf_eq_some hg, valueOf_eq_some h]
    refine and_congr_right fun hb => exists_congr fun q => and_congr_right fun hq => ?_
    by_cases hqp : q = p
    · rw [hqp, ha]
      refine ⟨fun e => absurd (hb.symm.trans (hk b e)) hx, fun e => ?_⟩
      cases e
      exact absurd hb.symm hx
    · rw [ho q hq hqp]

theorem valueOf_append (h : SlotTable key f ps) (hg : SlotTable key f (ps ++ qs)) (hqs : ∀ q ∈ qs, f q = .blank) :
    valueOf key f (ps ++ qs) = valueOf key f ps := by
  funext x
  ext b
  rw [valueOf_eq_some hg, valueOf_eq_some h]
  refine and_congr_right fun _ => exists_congr fun q => ?_
  constructor
  · intro ⟨hq, hb⟩
    rcases List.mem_append.mp hq with hq | hq
    · exact ⟨hq, hb⟩
    · rw [hqs q hq] at hb
      cases hb
  · exact fun ⟨hq, hb⟩ => ⟨List.mem_append_left _ hq, hb⟩

end Myos.Lib

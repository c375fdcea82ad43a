/-
  Myos.Lib.Census — how many parties are at a place, and how one party's move changes it.
-/

import Mathlib

namespace Myos.Lib

variable {α β : Type*} [Fintype α] (p : β → Prop) [DecidablePred p] {f : α → β} {a : α}

/-- How many of the parties are where `p` holds. -/
def census (f : α → β) : Nat := (Finset.univ.filter fun x => p (f x)).card

/-- A move takes the party from where it was and puts it where it goes. -/
theorem census_update [DecidableEq α] (b : β) :
    census p (Function.update f a b) + (if p (f a) then 1 else 0) = census p f + (if p b then 1 else 0) := by
  unfold census
  rw [Finset.card_filter, Finset.card_filter, ← Finset.add_sum_erase _ _ (Finset.mem_univ a),
    ← Finset.add_sum_erase _ (fun x => if p (f x) then 1 else 0) (Finset.mem_univ a), Function.update_self]
  have hrest : ∑ x ∈ Finset.univ.erase a, (if p (Function.update f a b x) then 1 else 0) =
      ∑ x ∈ Finset.univ.erase a, if p (f x) then 1 else 0 := by
    apply Finset.sum_congr rfl
    intro x hx
    rw [Function.update_of_ne (Finset.ne_of_mem_erase hx)]
  omega

variable {p}

theorem census_eq_zero : census p f = 0 ↔ ∀ x, ¬ p (f x) := by
  simp [census, Finset.filter_eq_empty_iff]

theorem census_pos : 0 < census p f ↔ ∃ x, p (f x) := by
  rw [Nat.pos_iff_ne_zero, Ne, census_eq_zero]
  simp

/-- One party is there: it is the only one. -/
theorem census_eq_one : census p f = 1 ↔ ∃! x, p (f x) := by
  unfold census
  rw [Finset.card_eq_one, Finset.singleton_iff_unique_mem]
  simp

/-- A party that is elsewhere is not counted. -/
theorem census_lt (h : ¬ p (f a)) : census p f < Fintype.card α :=
  Finset.card_lt_univ_of_notMem (by simpa using h : a ∉ Finset.univ.filter fun x => p (f x))

end Myos.Lib

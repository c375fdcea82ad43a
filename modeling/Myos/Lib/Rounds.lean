/-
  Myos.Lib.Rounds — loops that are given a number of rounds and are `none` when it is used up.

  `Ends f b`: with enough rounds the loop `f` returns `b`. Proved: one round more is no harm, two
  loops one after the other end if both do, and what a loop returns does not depend on the number.
-/

import Mathlib

namespace Myos.Lib

variable {β γ : Type*} {f g : Nat → Option β} {a b : β}

def Ends (f : Nat → Option β) (b : β) : Prop := ∃ n, ∀ m, n ≤ m → f m = some b

theorem Ends.now (h : ∀ n, f (n + 1) = some b) : Ends f b := by
  refine ⟨1, fun m hm => ?_⟩
  obtain ⟨m, rfl⟩ := Nat.exists_eq_succ_of_ne_zero (Nat.ne_zero_of_lt hm)
  exact h m

theorem Ends.congr (h : ∀ n, f n = g n) (hg : Ends g b) : Ends f b := by
  obtain ⟨n, hn⟩ := hg
  exact ⟨n, fun m hm => (h m).trans (hn m hm)⟩

/-- A round is taken, the rest ends. -/
theorem Ends.round (h : ∀ n, f (n + 1) = g n) (hg : Ends g b) : Ends f b := by
  obtain ⟨n, hn⟩ := hg
  refine ⟨n + 1, fun m hm => ?_⟩
  obtain ⟨m, rfl⟩ := Nat.exists_eq_succ_of_ne_zero (Nat.ne_zero_of_lt hm)
  rw [Nat.succ_eq_add_one, h]
  exact hn m (by omega)

theorem Ends.bind {h : Nat → β → Option γ} {c : γ} (hf : Ends f a) (hh : Ends (fun n => h n a) c) :
    Ends (fun n => (f n).bind (h n)) c := by
  obtain ⟨n, hn⟩ := hf
  obtain ⟨k, hk⟩ := hh
  refine ⟨max n k, fun m hm => ?_⟩
  show (f m).bind (h m) = some c
  rw [hn m (by omega), Option.bind_some]
  exact hk m (by omega)

theorem Ends.unique (ha : Ends f a) (hb : Ends f b) : a = b := by
  obtain ⟨n, hn⟩ := ha
  obtain ⟨k, hk⟩ := hb
  have := hn (max n k) (by omega)
  rw [hk _ (by omega)] at this
  exact (Option.some.inj this).symm

/-- A loop that is never done does not end. -/
theorem not_ends (h : ∀ n, f n = none) : ¬ Ends f b := by
  intro ⟨n, hn⟩
  have := hn n (Nat.le_refl n)
  rw [h] at this
  cases this

end Myos.Lib

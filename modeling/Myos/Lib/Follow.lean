/-
  Myos.Lib.Follow — loops that follow links until a node ends them.

  `follow next done step n a`: from `a` through `n` nodes at most. A node that is `done` gives the
  result, and the nodes in front of it are folded into it; `none` if there was none in time.

  Proved: such a loop returns what the chain up to the first node that is done gives, and with
  more rounds than there are nodes that are not done it returns exactly if the links lead to one.
-/

import Myos.Lib.Chain

namespace Myos.Lib

variable {α β : Type*} {next : α → α} {done : α → Option β} {step : α → β → β} {stop : α → Prop} {n : Nat} {a : α} {b : β}
  {l : List α}

def follow (next : α → α) (done : α → Option β) (step : α → β → β) : Nat → α → Option β
  | 0, _ => none
  | n + 1, a =>
    match done a with
    | some b => some b
    | none => (follow next done step n (next a)).map (step a)

/-- The nodes that end the loop. -/
def Done (done : α → Option β) (a : α) : Prop := (done a).isSome = true

theorem not_done : ¬ Done done a ↔ done a = none := by simp [Done]

theorem exists_chain_iff : (∃ l, Chain next stop a l) ↔ ∃ k, stop (next^[k] a) := by
  constructor
  · intro ⟨l, h⟩
    induction h with
    | nil hs => exact ⟨0, hs⟩
    | cons _ _ ih =>
      obtain ⟨k, hk⟩ := ih
      exact ⟨k + 1, hk⟩
  · intro ⟨k, hk⟩
    induction k generalizing a with
    | zero => exact ⟨[], .nil hk⟩
    | succ k ih =>
      by_cases hs : stop a
      · exact ⟨[], .nil hs⟩
      · obtain ⟨l, hl⟩ := ih hk
        exact ⟨a :: l, .cons hs hl⟩

/-- Where a chain leads. -/
theorem Chain.stop_end (h : Chain next stop a l) : stop (next^[l.length] a) := by
  have he := h.iterate (Nat.le_refl l.length)
  rw [List.drop_length] at he
  cases he with
  | nil hs => exact hs

/-- A chain is no longer than the set it runs through. -/
theorem Chain.length_le (h : Chain next stop a l) (B : Finset α) (hB : ∀ k, (∀ j ≤ k, ¬ stop (next^[j] a)) → next^[k] a ∈ B) :
    l.length ≤ B.card := by
  classical
  have hsub : l.toFinset ⊆ B := by
    intro x hx
    obtain ⟨k, hk, rfl⟩ := List.getElem_of_mem (List.mem_toFinset.mp hx)
    rw [h.getElem_eq hk]
    refine hB k fun j hj => ?_
    rw [← h.getElem_eq (hj.trans_lt hk)]
    exact h.not_stop (List.getElem_mem _)
  calc l.length = l.toFinset.card := (List.toFinset_card_of_nodup h.nodup).symm
    _ ≤ B.card := Finset.card_le_card hsub

theorem follow_chain (h : Chain next (Done done) a l) (hn : l.length < n) :
    follow next done step n a = (done (next^[l.length] a)).map fun b => l.foldr step b := by
  induction n generalizing a l with
  | zero => exact absurd hn (Nat.not_lt_zero _)
  | succ n ih =>
    rw [follow]
    cases h with
    | nil hs =>
      obtain ⟨b, hb⟩ := Option.isSome_iff_exists.mp hs
      rw [List.length_nil, Function.iterate_zero, id, hb]
      rfl
    | cons hs h =>
      rw [not_done.1 hs]
      dsimp only
      rw [ih h (Nat.lt_of_succ_lt_succ hn), Option.map_map]
      rfl

theorem chain_of_follow (h : follow next done step n a = some b) : ∃ l, Chain next (Done done) a l ∧ l.length < n := by
  induction n generalizing a b with
  | zero => cases h
  | succ n ih =>
    rw [follow] at h
    cases hd : done a with
    | some b' => exact ⟨[], .nil (Option.isSome_iff_exists.mpr ⟨b', hd⟩), Nat.succ_pos _⟩
    | none =>
      rw [hd] at h
      obtain ⟨b', hb, -⟩ := Option.map_eq_some_iff.mp h
      obtain ⟨l, hl, hn⟩ := ih hb
      exact ⟨a :: l, .cons (not_done.2 hd) hl, Nat.succ_lt_succ hn⟩

/-- What a loop with enough rounds returns. -/
theorem follow_eq_some_iff {B : Finset α} (hB : ∀ k, (∀ j ≤ k, done (next^[j] a) = none) → next^[k] a ∈ B) (hn : B.card < n) :
    follow next done step n a = some b ↔
      ∃ l b', Chain next (Done done) a l ∧ done (next^[l.length] a) = some b' ∧ b = l.foldr step b' := by
  have hlen : ∀ l, Chain next (Done done) a l → l.length < n := fun l hl =>
    (hl.length_le B fun k hk => hB k fun j hj => not_done.1 (hk j hj)).trans_lt hn
  constructor
  · intro h
    obtain ⟨l, hl, -⟩ := chain_of_follow h
    rw [follow_chain hl (hlen l hl)] at h
    obtain ⟨b', hb, he⟩ := Option.map_eq_some_iff.mp h
    exact ⟨l, b', hl, hb, he.symm⟩
  · intro ⟨l, b', hl, hb, he⟩
    rw [follow_chain hl (hlen l hl), hb, he]
    rfl

/-- A loop with enough rounds returns exactly if the links lead to a node that ends it. -/
theorem follow_isSome_iff {B : Finset α} (hB : ∀ k, (∀ j ≤ k, done (next^[j] a) = none) → next^[k] a ∈ B) (hn : B.card < n) :
    (follow next done step n a).isSome = true ↔ ∃ k, Done done (next^[k] a) := by
  rw [← exists_chain_iff, Option.isSome_iff_exists]
  constructor
  · intro ⟨b, hb⟩
    obtain ⟨l, hl, -⟩ := chain_of_follow hb
    exact ⟨l, hl⟩
  · intro ⟨l, hl⟩
    rw [follow_chain hl ((hl.length_le B fun k hk => hB k fun j hj => not_done.1 (hk j hj)).trans_lt hn)]
    obtain ⟨b, hb⟩ := Option.isSome_iff_exists.mp hl.stop_end
    exact ⟨_, by rw [hb]; rfl⟩

end Myos.Lib

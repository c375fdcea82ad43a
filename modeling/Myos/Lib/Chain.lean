/-
  Myos.Lib.Chain — singly linked lists threaded through a successor function.

  `Chain next stop a l`: from `a` the links run through exactly `l` and then to a value that
  ends a list.

  Proved: a start has one chain, which meets no node twice; links of other nodes do not matter;
  what following the links a number of times gives; what hanging a node at the end and what
  cutting the front off do.
-/

import Mathlib

namespace Myos.Lib

variable {α : Type*} {next next' : α → α} {stop : α → Prop} {a b : α} {l l' : List α}

inductive Chain (next : α → α) (stop : α → Prop) : α → List α → Prop where
  | nil {a : α} : stop a → Chain next stop a []
  | cons {a : α} {l : List α} : ¬ stop a → Chain next stop (next a) l → Chain next stop a (a :: l)

namespace Chain

theorem unique (h : Chain next stop a l) (h' : Chain next stop a l') : l = l' := by
  induction h generalizing l' with
  | nil hs =>
    cases h' with
    | nil _ => rfl
    | cons hn _ => exact absurd hs hn
  | cons hn _ ih =>
    cases h' with
    | nil hs => exact absurd hs hn
    | cons _ h' => rw [ih h']

theorem eq_nil (h : Chain next stop a l) (hs : stop a) : l = [] := h.unique (.nil hs)

theorem eq_cons (h : Chain next stop a l) (hs : ¬ stop a) : ∃ l', l = a :: l' ∧ Chain next stop (next a) l' := by
  cases h with
  | nil hs' => exact absurd hs' hs
  | cons _ h => exact ⟨_, rfl, h⟩

theorem head (h : Chain next stop a (b :: l)) : b = a ∧ ¬ stop a ∧ Chain next stop (next a) l := by
  cases h with
  | cons hn h => exact ⟨rfl, hn, h⟩

theorem not_stop (h : Chain next stop a l) (hb : b ∈ l) : ¬ stop b := by
  induction h with
  | nil _ => cases hb
  | cons hn _ ih =>
    rcases List.mem_cons.mp hb with rfl | hb
    · exact hn
    · exact ih hb

/-- From any node the rest of the list follows. -/
theorem suffix {l1 l2 : List α} (h : Chain next stop a (l1 ++ b :: l2)) : Chain next stop b (b :: l2) := by
  induction l1 generalizing a with
  | nil =>
    obtain ⟨rfl, -, -⟩ := h.head
    exact h
  | cons x l1 ih =>
    obtain ⟨rfl, -, h⟩ := h.head
    exact ih h

theorem nodup (h : Chain next stop a l) : l.Nodup := by
  induction h with
  | nil _ => exact List.nodup_nil
  | @cons a l hn h ih =>
    refine List.nodup_cons.mpr ⟨fun ha => ?_, ih⟩
    -- the chain from `a` would be a proper part of itself
    obtain ⟨l1, l2, rfl⟩ := List.append_of_mem ha
    have he := congrArg List.length ((Chain.cons hn h).unique (suffix h))
    simp only [List.length_cons, List.length_append] at he
    omega

theorem congr (h : Chain next stop a l) (he : ∀ x ∈ l, next' x = next x) : Chain next' stop a l := by
  induction h with
  | nil hs => exact .nil hs
  | cons hn _ ih =>
    refine .cons hn ?_
    rw [he _ (List.mem_cons_self ..)]
    exact ih fun x hx => he x (List.mem_cons_of_mem _ hx)

/-- Following the links. -/
theorem iterate (h : Chain next stop a l) {k : Nat} (hk : k ≤ l.length) : Chain next stop (next^[k] a) (l.drop k) := by
  induction k generalizing a l with
  | zero => exact h
  | succ k ih =>
    cases h with
    | nil _ => exact absurd hk (Nat.not_succ_le_zero k)
    | cons _ h => exact ih h (Nat.le_of_succ_le_succ hk)

theorem getElem_eq (h : Chain next stop a l) {k : Nat} (hk : k < l.length) : l[k] = next^[k] a := by
  have hd := h.iterate hk.le
  rw [List.drop_eq_getElem_cons hk] at hd
  exact hd.head.1

/-- The last node leads out. -/
theorem stop_last (h : Chain next stop a (l ++ [b])) : stop (next b) := by
  have := (h.suffix).head.2.2
  cases this with
  | nil hs => exact hs

/-- A node is hung behind the last one. -/
theorem append {c : α} (h : Chain next stop a (l ++ [b])) (he : ∀ x ∈ l, next' x = next x) (hb : next' b = c) (hc : ¬ stop c)
    (hs : stop (next' c)) : Chain next' stop a (l ++ [b, c]) := by
  induction l generalizing a with
  | nil =>
    obtain ⟨rfl, hn, -⟩ := h.head
    refine .cons hn ?_
    rw [hb]
    exact .cons hc (.nil hs)
  | cons x l ih =>
    obtain ⟨rfl, hn, h⟩ := h.head
    refine .cons hn ?_
    rw [he x (List.mem_cons_self ..)]
    exact ih h fun y hy => he y (List.mem_cons_of_mem _ hy)

end Chain

end Myos.Lib

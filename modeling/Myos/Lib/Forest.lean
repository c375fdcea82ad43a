/-
  Myos.Lib.Forest — paths of labels in a graph whose nodes have one parent at most.

  `child a x`: the node that the label `x` leads to from `a`.

  Proved: no two paths from the root lead to one node; where the paths lead when a new node is
  hung in, when an edge is cut, and when only nodes change that no path leads to.
-/

import Mathlib.Data.List.Basic
import Mathlib.Data.List.Infix

namespace Myos.Lib

variable {N L : Type*} {child child' : N → L → Option N} {root a b c n : N} {p q : List L} {x y : L}

def walk (child : N → L → Option N) : N → List L → Option N
  | a, [] => some a
  | a, x :: p => (child a x).bind fun b => walk child b p

/-- Every node has one parent and one label at most, and the root has none. -/
structure Forest (child : N → L → Option N) (root : N) : Prop where
  once : ∀ {a b c x y}, child a x = some c → child b y = some c → a = b ∧ x = y
  root : ∀ {a x}, child a x ≠ some root

@[simp] theorem walk_nil : walk child a [] = some a := rfl

theorem walk_append (a : N) (p q : List L) : walk child a (p ++ q) = (walk child a p).bind fun b => walk child b q := by
  induction p generalizing a with
  | nil => rfl
  | cons x p ih =>
    rw [List.cons_append, walk, walk]
    cases child a x with
    | none => rfl
    | some b => exact ih b

theorem walk_concat (a : N) (p : List L) (x : L) : walk child a (p ++ [x]) = (walk child a p).bind fun b => child b x := by
  rw [walk_append]
  congr
  funext b
  simp [walk]

namespace Forest

theorem walk_inj (h : Forest child root) (hp : walk child root p = some c) (hq : walk child root q = some c) : p = q := by
  induction p using List.reverseRecOn generalizing q c with
  | nil =>
    cases hp
    induction q using List.reverseRecOn with
    | nil => rfl
    | append_singleton q y _ =>
      rw [walk_concat] at hq
      obtain ⟨b, -, hb⟩ := Option.bind_eq_some_iff.mp hq
      exact absurd hb h.root
  | append_singleton p x ih =>
    rw [walk_concat] at hp
    obtain ⟨a, ha, hx⟩ := Option.bind_eq_some_iff.mp hp
    induction q using List.reverseRecOn with
    | nil =>
      cases hq
      exact absurd hx h.root
    | append_singleton q y _ =>
      rw [walk_concat] at hq
      obtain ⟨b, hb, hy⟩ := Option.bind_eq_some_iff.mp hq
      obtain ⟨rfl, rfl⟩ := h.once hx hy
      rw [ih ha hb]

/-- A node that a path leads to was led to by an edge, or is the root. -/
theorem walk_edge (hp : walk child root p = some c) : c = root ∨ ∃ a x, child a x = some c := by
  induction p using List.reverseRecOn with
  | nil => exact .inl (Option.some.inj hp).symm
  | append_singleton p x _ =>
    rw [walk_concat] at hp
    obtain ⟨a, -, hx⟩ := Option.bind_eq_some_iff.mp hp
    exact .inr ⟨a, x, hx⟩

end Forest

/-- Only nodes change that no path leads to. -/
theorem walk_congr (h : ∀ p a, walk child root p = some a → ∀ x, child' a x = child a x) (q : List L) : walk child' root q = walk child root q := by
  induction q using List.reverseRecOn with
  | nil => rfl
  | append_singleton q x ih =>
    rw [walk_concat, walk_concat, ih]
    cases hq : walk child root q with
    | none => rfl
    | some b => exact h q b hq x

namespace Forest

/-- A new node is hung in. -/
theorem walk_hang (h : Forest child root) (hp : walk child root p = some a) (hno : child a x = none) (hroot : n ≠ root)
    (hto : ∀ b y, child b y ≠ some n) (hx : child' a x = some n) (hn : ∀ y, child' n y = none)
    (hother : ∀ b y, b ≠ n → ¬ (b = a ∧ y = x) → child' b y = child b y) [DecidableEq L] (q : List L) :
    walk child' root q = if q = p ++ [x] then some n else walk child root q := by
  have hfresh : ∀ {r}, walk child root r ≠ some n := by
    intro r hr
    cases walk_edge hr with
    | inl h => exact hroot h
    | inr h =>
      obtain ⟨b, y, hb⟩ := h
      exact hto b y hb
  have hold : walk child root (p ++ [x]) = none := by
    rw [walk_concat, hp]
    exact hno
  induction q using List.reverseRecOn with
  | nil => rw [walk_nil, walk_nil, if_neg (List.append_ne_nil_of_right_ne_nil _ (List.cons_ne_nil _ _)).symm]
  | append_singleton q y ih =>
    rw [walk_concat, ih]
    by_cases hq : q = p ++ [x]
    · have hne : q ++ [y] ≠ p ++ [x] := by
        intro heq
        have := congrArg List.length heq
        rw [hq] at this
        simp at this
      rw [if_pos hq, if_neg hne, walk_concat, hq, hold]
      exact hn y
    · rw [if_neg hq, walk_concat]
      cases hb : walk child root q with
      | none =>
        have hne : q ++ [y] ≠ p ++ [x] := by
          intro heq
          obtain ⟨hqp, -⟩ := List.append_inj' heq rfl
          rw [hqp, hp] at hb
          cases hb
        rw [if_neg hne]
        rfl
      | some b =>
        show child' b y = if q ++ [y] = p ++ [x] then some n else child b y
        by_cases hax : b = a ∧ y = x
        · obtain ⟨rfl, rfl⟩ := hax
          rw [if_pos (by rw [h.walk_inj hb hp]), hx]
        · have hne : q ++ [y] ≠ p ++ [x] := by
            intro heq
            obtain ⟨hqp, hyx⟩ := List.append_inj' heq rfl
            rw [hqp, hp] at hb
            exact hax ⟨(Option.some.inj hb).symm, List.singleton_inj.mp hyx⟩
          rw [if_neg hne]
          apply hother b y _ hax
          intro hbn
          exact hfresh (hb.trans (congrArg some hbn))

/-- An edge is cut, and with it what hangs on it. -/
theorem walk_cut (h : Forest child root) (hp : walk child root p = some a) (hx : child' a x = none)
    (hother : ∀ b y, ¬ (b = a ∧ y = x) → (∀ r, walk child root r = some b → ¬ p ++ [x] <+: r) → child' b y = child b y)
    [∀ r : List L, Decidable (p ++ [x] <+: r)] (q : List L) :
    walk child' root q = if p ++ [x] <+: q then none else walk child root q := by
  induction q using List.reverseRecOn with
  | nil =>
    have hne : ¬ p ++ [x] <+: [] := by simp
    rw [walk_nil, walk_nil, if_neg hne]
  | append_singleton q y ih =>
    rw [walk_concat, ih]
    by_cases hq : p ++ [x] <+: q
    · rw [if_pos hq, if_pos (hq.trans (List.prefix_append q [y]))]
      rfl
    · rw [if_neg hq, walk_concat]
      have hiff : p ++ [x] <+: q ++ [y] ↔ q = p ∧ y = x := by
        rw [List.prefix_concat_iff]
        constructor
        · intro h
          obtain ⟨hqp, hyx⟩ := List.append_inj' (h.resolve_right hq) rfl
          exact ⟨hqp.symm, (List.singleton_inj.mp hyx).symm⟩
        · intro h
          obtain ⟨rfl, rfl⟩ := h
          exact .inl rfl
      cases hb : walk child root q with
      | none =>
        show none = if p ++ [x] <+: q ++ [y] then none else none
        rw [ite_self]
      | some b =>
        show child' b y = if p ++ [x] <+: q ++ [y] then none else child b y
        by_cases hax : b = a ∧ y = x
        · obtain ⟨rfl, rfl⟩ := hax
          rw [if_pos (hiff.mpr ⟨h.walk_inj hb hp, rfl⟩), hx]
        · have hne : ¬ p ++ [x] <+: q ++ [y] := by
            rw [hiff]
            intro heq
            rw [heq.1, hp] at hb
            exact hax ⟨(Option.some.inj hb).symm, heq.2⟩
          rw [if_neg hne]
          apply hother b y hax
          intro r hr
          rw [h.walk_inj hr hb]
          exact hq

end Forest

end Myos.Lib

/-
  Myos.Lib.Walk — forests given by a child function.

  `child n i` is the node that edge `i` of `n` leads to; `walk` follows a list of
  edges. `Forest child R d`: down to depth `d`, no node is reached from the roots `R`
  in two ways. Only the edges of nodes above depth `d` matter (`Inner`).

  `leafCount child U n f` is the number of ways to reach `f` from the roots `U` by
  exactly `n` edges.

  Proved: what linking a fresh childless node, unlinking an edge, adding a childless
  root and changing edges of other nodes do to every walk, and that each keeps the
  forest; how a count follows one changed leaf, one added root and one edge down.
-/

import Mathlib.Algebra.BigOperators.Group.Finset.Basic
import Mathlib.Algebra.Order.BigOperators.Group.Finset
import Mathlib.Algebra.Group.Action.Defs
import Mathlib.Data.List.Infix
import Mathlib.Data.Set.Insert

namespace Myos.Lib.Walk

variable {N I : Type}

def walk (child : N → I → Option N) : N → List I → Option N
  | n, [] => some n
  | n, i :: p => (child n i).bind fun c => walk child c p

@[simp] theorem walk_nil (child : N → I → Option N) (n : N) : walk child n [] = some n := rfl

theorem walk_cons {child : N → I → Option N} {n c : N} {i : I} (h : child n i = some c) (p : List I) :
    walk child n (i :: p) = walk child c p := by rw [walk, h, Option.bind_some]

theorem walk_append (child : N → I → Option N) (n : N) (p q : List I) :
    walk child n (p ++ q) = (walk child n p).bind fun c => walk child c q := by
  induction p generalizing n with
  | nil => rfl
  | cons i p ih =>
    simp only [List.cons_append, walk]
    cases child n i with
    | none => rfl
    | some c => exact ih c

theorem walk_snoc (child : N → I → Option N) (n : N) (p : List I) (i : I) :
    walk child n (p ++ [i]) = (walk child n p).bind fun c => child c i := by
  rw [walk_append]
  congr 1
  funext c
  show (child c i).bind _ = _
  cases child c i <;> rfl

theorem walk_none_append {child : N → I → Option N} {n : N} {p : List I} (h : walk child n p = none) (q : List I) :
    walk child n (p ++ q) = none := by rw [walk_append, h]; rfl

/-- No edge leaves a childless node. -/
theorem walk_childless {child : N → I → Option N} {n : N} (h : ∀ i, child n i = none) {q : List I} (hq : q ≠ []) :
    walk child n q = none := by
  cases q with
  | nil => exact absurd rfl hq
  | cons i q => simp [walk, h i]

section

variable (child : N → I → Option N) (R : Set N) (d : Nat)

/-- A node of the forest, reached by at most `d` edges. -/
def Node (n : N) : Prop := ∃ r ∈ R, ∃ p, p.length ≤ d ∧ walk child r p = some n

/-- A node with edges inside the forest. -/
def Inner (n : N) : Prop := ∃ r ∈ R, ∃ p, p.length < d ∧ walk child r p = some n

structure Forest : Prop where
  unique : ∀ r ∈ R, ∀ r' ∈ R, ∀ p q n, p.length ≤ d → q.length ≤ d → walk child r p = some n →
    walk child r' q = some n → r = r' ∧ p = q

variable {child R d}

theorem Inner.node {n : N} (h : Inner child R d n) : Node child R d n := by
  obtain ⟨r, hr, p, hp, hw⟩ := h
  exact ⟨r, hr, p, Nat.le_of_lt hp, hw⟩

theorem Forest.mono {S : Set N} (h : Forest child R d) (hs : S ⊆ R) : Forest child S d :=
  ⟨fun r hr r' hr' => h.unique r (hs hr) r' (hs hr')⟩

/-- Changing edges of nodes that are not inner changes no walk. -/
theorem walk_congr {child' : N → I → Option N} (hc : ∀ n, Inner child R d n → ∀ i, child' n i = child n i) {r : N}
    (hr : r ∈ R) : ∀ p : List I, p.length ≤ d → walk child' r p = walk child r p := by
  intro p
  induction p using List.reverseRecOn with
  | nil => intro _; rfl
  | append_singleton p i ih =>
    intro hp
    simp only [List.length_append, List.length_singleton] at hp
    rw [walk_snoc, walk_snoc, ih (by omega)]
    cases hw : walk child r p with
    | none => rfl
    | some n => exact hc n ⟨r, hr, p, by omega, hw⟩ i

theorem Forest.congr {child' : N → I → Option N} (h : Forest child R d)
    (hc : ∀ n, Inner child R d n → ∀ i, child' n i = child n i) : Forest child' R d :=
  ⟨fun r hr r' hr' p q n hp hq h1 h2 => h.unique r hr r' hr' p q n hp hq
    ((walk_congr hc hr p hp).symm.trans h1) ((walk_congr hc hr' q hq).symm.trans h2)⟩

/-! ## Linking a fresh node -/

/-- `child'` is `child` with the childless node `n` hung on edge `i` of `t`. -/
def Linked [DecidableEq N] [DecidableEq I] (child child' : N → I → Option N) (R : Set N) (d : Nat) (t : N) (i : I)
    (n : N) : Prop :=
  (∀ j, child' n j = none) ∧ ∀ u, Inner child R d u → ∀ j, child' u j = if u = t ∧ j = i then some n else child u j

variable [DecidableEq N] [DecidableEq I]

theorem walk_linked {child' : N → I → Option N} (h : Forest child R d) {r t n : N} {p : List I} {i : I} (hr : r ∈ R)
    (hp : p.length < d) (ht : walk child r p = some t) (hi : child t i = none) (hl : Linked child child' R d t i n)
    {r' : N} (hr' : r' ∈ R) : ∀ q : List I, q.length ≤ d →
      walk child' r' q = if r' = r ∧ q = p ++ [i] then some n else walk child r' q := by
  intro q
  induction q using List.reverseRecOn with
  | nil => intro _; rw [if_neg (by simp)]; rfl
  | append_singleton q j ih =>
    intro hq
    simp only [List.length_append, List.length_singleton] at hq
    rw [walk_snoc, ih (by omega)]
    by_cases e : r' = r ∧ q = p ++ [i]
    · obtain ⟨rfl, rfl⟩ := e
      rw [if_pos ⟨rfl, rfl⟩, if_neg (by simp)]
      have hnone : walk child r' (p ++ [i]) = none := by rw [walk_snoc, ht]; exact hi
      rw [walk_none_append hnone]
      exact hl.1 j
    · rw [if_neg e]
      cases hw : walk child r' q with
      | none =>
        rw [if_neg]
        · rw [walk_none_append hw]; rfl
        · rintro ⟨rfl, hqq⟩
          obtain ⟨rfl, -⟩ := List.append_inj' hqq rfl
          rw [hw] at ht; cases ht
      | some u =>
        show child' u j = _
        rw [hl.2 u ⟨r', hr', q, by omega, hw⟩ j]
        by_cases e' : u = t ∧ j = i
        · obtain ⟨rfl, rfl⟩ := e'
          obtain ⟨rfl, rfl⟩ := h.unique r' hr' r hr q p u (by omega) (by omega) hw ht
          rw [if_pos ⟨rfl, rfl⟩, if_pos ⟨rfl, rfl⟩]
        · rw [if_neg e', if_neg]
          · rw [walk_snoc, hw]; rfl
          · rintro ⟨rfl, hqq⟩
            obtain ⟨rfl, hji⟩ := List.append_inj' hqq rfl
            rw [hw] at ht
            exact e' ⟨by simpa using ht, by simpa using hji⟩

theorem Forest.link {child' : N → I → Option N} (h : Forest child R d) {r t n : N} {p : List I} {i : I} (hr : r ∈ R)
    (hp : p.length < d) (ht : walk child r p = some t) (hi : child t i = none) (hn : ¬ Node child R d n)
    (hl : Linked child child' R d t i n) : Forest child' R d := by
  refine ⟨fun r1 h1 r2 h2 p1 p2 u l1 l2 w1 w2 => ?_⟩
  rw [walk_linked h hr hp ht hi hl h1 p1 l1] at w1
  rw [walk_linked h hr hp ht hi hl h2 p2 l2] at w2
  split at w1 <;> split at w2
  · rename_i e1 e2; exact ⟨e1.1.trans e2.1.symm, e1.2.trans e2.2.symm⟩
  · cases w1; exact absurd ⟨r2, h2, p2, l2, w2⟩ hn
  · cases w2; exact absurd ⟨r1, h1, p1, l1, w1⟩ hn
  · exact h.unique r1 h1 r2 h2 p1 p2 u l1 l2 w1 w2

/-! ## Unlinking an edge -/

/-- `child'` is `child` without edge `i` of `t`. -/
def Unlinked (child child' : N → I → Option N) (R : Set N) (d : Nat) (t : N) (i : I) : Prop :=
  ∀ u, Inner child R d u → ∀ j, child' u j = if u = t ∧ j = i then none else child u j

theorem walk_unlinked {child' : N → I → Option N} (h : Forest child R d) {r t : N} {p : List I} {i : I} (hr : r ∈ R)
    (hp : p.length < d) (ht : walk child r p = some t) (hl : Unlinked child child' R d t i) {r' : N} (hr' : r' ∈ R) :
    ∀ q : List I, q.length ≤ d → walk child' r' q = if r' = r ∧ p ++ [i] <+: q then none else walk child r' q := by
  intro q
  induction q using List.reverseRecOn with
  | nil => intro _; rw [if_neg (by simp)]; rfl
  | append_singleton q j ih =>
    intro hq
    simp only [List.length_append, List.length_singleton] at hq
    rw [walk_snoc, ih (by omega)]
    by_cases e : r' = r ∧ p ++ [i] <+: q
    · rw [if_pos e, if_pos ⟨e.1, e.2.trans (List.prefix_append q [j])⟩]; rfl
    · rw [if_neg e]
      have hpre : r' = r ∧ p ++ [i] <+: q ++ [j] ↔ r' = r ∧ p = q ∧ i = j := by
        constructor
        · rintro ⟨rfl, hx⟩
          rcases List.prefix_concat_iff.mp hx with hx | hx
          · obtain ⟨rfl, hij⟩ := List.append_inj' hx rfl
            exact ⟨rfl, rfl, by simpa using hij⟩
          · exact absurd ⟨rfl, hx⟩ e
        · rintro ⟨rfl, rfl, rfl⟩; exact ⟨rfl, List.prefix_refl _⟩
      cases hw : walk child r' q with
      | none => rw [walk_none_append hw]; split <;> rfl
      | some u =>
        show child' u j = _
        rw [hl u ⟨r', hr', q, by omega, hw⟩ j, walk_snoc, hw]
        by_cases e' : u = t ∧ j = i
        · obtain ⟨rfl, rfl⟩ := e'
          obtain ⟨rfl, rfl⟩ := h.unique r' hr' r hr q p u (by omega) (by omega) hw ht
          rw [if_pos ⟨rfl, rfl⟩, if_pos (hpre.mpr ⟨rfl, rfl, rfl⟩)]
        · rw [if_neg e', if_neg]
          · rfl
          · rw [hpre]
            rintro ⟨rfl, rfl, rfl⟩
            rw [hw] at ht
            exact e' ⟨by simpa using ht, rfl⟩

theorem Forest.unlink {child' : N → I → Option N} (h : Forest child R d) {r t : N} {p : List I} {i : I} (hr : r ∈ R)
    (hp : p.length < d) (ht : walk child r p = some t) (hl : Unlinked child child' R d t i) : Forest child' R d := by
  refine ⟨fun r1 h1 r2 h2 p1 p2 u l1 l2 w1 w2 => ?_⟩
  rw [walk_unlinked h hr hp ht hl h1 p1 l1] at w1
  rw [walk_unlinked h hr hp ht hl h2 p2 l2] at w2
  split at w1
  · cases w1
  · split at w2
    · cases w2
    · exact h.unique r1 h1 r2 h2 p1 p2 u l1 l2 w1 w2

/-! ## A new root -/

omit [DecidableEq N] [DecidableEq I] in
theorem Forest.addRoot (h : Forest child R d) {n : N} (hn : ¬ Node child R d n) (hc : ∀ i, child n i = none) :
    Forest child (insert n R) d := by
  have hwn : ∀ {q u}, walk child n q = some u → q = [] ∧ u = n := by
    intro q u hw
    by_cases hq : q = []
    · subst hq; exact ⟨rfl, by simpa using hw.symm⟩
    · rw [walk_childless hc hq] at hw; cases hw
  refine ⟨fun r1 h1 r2 h2 p1 p2 u l1 l2 w1 w2 => ?_⟩
  rcases Set.mem_insert_iff.mp h1 with e1 | m1 <;> rcases Set.mem_insert_iff.mp h2 with e2 | m2
  · rw [e1] at w1
    rw [e2] at w2
    exact ⟨e1.trans e2.symm, (hwn w1).1.trans (hwn w2).1.symm⟩
  · rw [e1] at w1
    rw [(hwn w1).2] at w2
    exact absurd ⟨r2, m2, p2, l2, w2⟩ hn
  · rw [e2] at w2
    rw [(hwn w2).2] at w1
    exact absurd ⟨r1, m1, p1, l1, w1⟩ hn
  · exact h.unique r1 m1 r2 m2 p1 p2 u l1 l2 w1 w2

end

/-! ## Counting leaves -/

section

variable [Fintype I] [DecidableEq N] [DecidableEq I]

/-- All paths of `n` edges. -/
def paths : Nat → Finset (List I)
  | 0 => {[]}
  | n + 1 => Finset.univ.biUnion fun i => (paths n).image (i :: ·)

theorem mem_paths {n : Nat} {p : List I} : p ∈ paths n ↔ p.length = n := by
  induction n generalizing p with
  | zero => simp [paths]
  | succ n ih =>
    simp only [paths, Finset.mem_biUnion, Finset.mem_univ, true_and, Finset.mem_image]
    constructor
    · rintro ⟨i, q, hq, rfl⟩
      rw [List.length_cons, ih.mp hq]
    · intro hp
      cases p with
      | nil => cases hp
      | cons i q => exact ⟨i, q, ih.mpr (by simpa using hp), rfl⟩

/-- The number of paths of `n` edges from `r` to `f`. -/
def pathCount (child : N → I → Option N) (n : Nat) (r f : N) : Nat :=
  ((paths n).filter fun p => walk child r p = some f).card

def leafCount (child : N → I → Option N) (U : Finset N) (n : Nat) (f : N) : Nat := ∑ r ∈ U, pathCount child n r f

variable {child child' : N → I → Option N} {U : Finset N} {n : Nat}

theorem pathCount_congr {r : N} (h : ∀ p : List I, p.length = n → walk child' r p = walk child r p) (f : N) :
    pathCount child' n r f = pathCount child n r f := by
  unfold pathCount
  congr 1
  apply Finset.filter_congr
  intro p hp
  rw [h p (mem_paths.1 hp)]

theorem leafCount_congr (h : ∀ r ∈ U, ∀ p : List I, p.length = n → walk child' r p = walk child r p) (f : N) :
    leafCount child' U n f = leafCount child U n f :=
  Finset.sum_congr rfl fun r hr => pathCount_congr (h r hr) f

theorem pathCount_update {r : N} {p : List I} (hp : p.length = n) {b : Option N}
    (h : ∀ q : List I, q.length = n → walk child' r q = if q = p then b else walk child r q) (f : N) :
    pathCount child' n r f + (if walk child r p = some f then 1 else 0) =
      pathCount child n r f + (if b = some f then 1 else 0) := by
  -- both counts split into the path `p` and the others
  have split : ∀ c : N → I → Option N, pathCount c n r f =
      (if walk c r p = some f then 1 else 0) + (((paths n).erase p).filter fun q => walk c r q = some f).card := by
    intro c
    unfold pathCount
    conv_lhs => rw [← Finset.insert_erase (mem_paths.2 hp)]
    rw [Finset.filter_insert]
    split
    · rw [Finset.card_insert_of_notMem (by simp)]; omega
    · omega
  have hrest : (((paths n).erase p).filter fun q => walk child' r q = some f) =
      ((paths n).erase p).filter fun q => walk child r q = some f := by
    apply Finset.filter_congr
    intro q hq
    rw [Finset.mem_erase, mem_paths] at hq
    rw [h q hq.2, if_neg hq.1]
  rw [split child', split child, hrest, h p hp, if_pos rfl]
  omega

theorem leafCount_update {r : N} {p : List I} (hr : r ∈ U) (hp : p.length = n) {b : Option N}
    (h : ∀ r' ∈ U, ∀ q : List I, q.length = n →
      walk child' r' q = if r' = r ∧ q = p then b else walk child r' q) (f : N) :
    leafCount child' U n f + (if walk child r p = some f then 1 else 0) =
      leafCount child U n f + (if b = some f then 1 else 0) := by
  have h0 : ∀ q : List I, q.length = n → walk child' r q = if q = p then b else walk child r q := by
    intro q hq
    rw [h r hr q hq]
    simp
  have h1 := pathCount_update hp h0 f
  have h2 : ∑ x ∈ U.erase r, pathCount child' n x f = ∑ x ∈ U.erase r, pathCount child n x f := by
    apply Finset.sum_congr rfl
    intro x hx
    rw [Finset.mem_erase] at hx
    exact pathCount_congr (fun q hq => by rw [h x hx.2 q hq, if_neg fun e => hx.1 e.1]) f
  unfold leafCount
  rw [← Finset.add_sum_erase U _ hr, ← Finset.add_sum_erase U (fun x => pathCount child n x f) hr, h2]
  omega

theorem pathCount_pos {r f : N} : 0 < pathCount child n r f ↔ ∃ p : List I, p.length = n ∧ walk child r p = some f := by
  unfold pathCount
  rw [Finset.card_pos]
  constructor
  · rintro ⟨p, hp⟩
    rw [Finset.mem_filter, mem_paths] at hp
    exact ⟨p, hp⟩
  · rintro ⟨p, hp⟩
    exact ⟨p, Finset.mem_filter.mpr ⟨mem_paths.2 hp.1, hp.2⟩⟩

theorem leafCount_pos {f : N} :
    0 < leafCount child U n f ↔ ∃ r ∈ U, ∃ p : List I, p.length = n ∧ walk child r p = some f := by
  unfold leafCount
  rw [Finset.sum_pos_iff]
  constructor
  · rintro ⟨r, hr, h⟩; exact ⟨r, hr, pathCount_pos.1 h⟩
  · rintro ⟨r, hr, h⟩; exact ⟨r, hr, pathCount_pos.2 h⟩

theorem leafCount_insert {r : N} (hr : r ∉ U) (f : N) :
    leafCount child (insert r U) n f = pathCount child n r f + leafCount child U n f := Finset.sum_insert hr

theorem pathCount_childless {r : N} (h : ∀ i, child r i = none) (f : N) : pathCount child (n + 1) r f = 0 := by
  by_contra hne
  obtain ⟨p, hp, hw⟩ := pathCount_pos.1 (Nat.pos_of_ne_zero hne)
  rw [walk_childless h (by rintro rfl; cases hp)] at hw
  cases hw

theorem pathCount_zero (r f : N) : pathCount child 0 r f = if r = f then 1 else 0 := by
  unfold pathCount
  simp only [paths, Finset.filter_singleton, walk_nil, Option.some.injEq]
  split <;> rfl

/-- Counting from `r` is counting from its children, one edge less. -/
theorem pathCount_succ (r f : N) :
    pathCount child (n + 1) r f = ∑ i, match child r i with
      | none => 0
      | some c => pathCount child n c f := by
  unfold pathCount
  simp only [paths, Finset.filter_biUnion]
  rw [Finset.card_biUnion]
  · apply Finset.sum_congr rfl
    intro i _
    rw [Finset.filter_image, Finset.card_image_of_injective _ fun a b h => (List.cons.inj h).2]
    cases hc : child r i with
    | none => simp [walk, hc]
    | some c => simp [walk, hc]
  · intro i _ j _ hij
    rw [Function.onFun, Finset.disjoint_left]
    intro p hp hp'
    simp only [Finset.mem_filter, Finset.mem_image] at hp hp'
    obtain ⟨⟨q, -, rfl⟩, -⟩ := hp
    obtain ⟨⟨q', -, he⟩, -⟩ := hp'
    exact hij (List.cons.inj he).1.symm

theorem card_paths : (paths n : Finset (List I)).card = Fintype.card I ^ n := by
  induction n with
  | zero => rfl
  | succ n ih =>
    rw [paths, Finset.card_biUnion]
    · have : ∀ i : I, ((paths n).image (i :: ·)).card = Fintype.card I ^ n := by
        intro i
        rw [Finset.card_image_of_injective _ fun a b h => (List.cons.inj h).2, ih]
      simp only [this, Finset.sum_const, Finset.card_univ]
      rw [smul_eq_mul, pow_succ, mul_comm]
    · intro i _ j _ hij
      rw [Function.onFun, Finset.disjoint_left]
      intro p hp hp'
      simp only [Finset.mem_image] at hp hp'
      obtain ⟨q, -, rfl⟩ := hp
      obtain ⟨q', -, he⟩ := hp'
      exact hij (List.cons.inj he).1.symm

theorem leafCount_le (f : N) : leafCount child U n f ≤ U.card * Fintype.card I ^ n := by
  refine Finset.sum_le_card_nsmul U _ _ fun r _ => ?_
  rw [← card_paths (I := I)]
  exact Finset.card_filter_le _ _

end

end Myos.Lib.Walk

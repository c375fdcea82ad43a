/-
  Myos.Rbtree.Iteration — `rb_tree_next` and `rb_tree_prev`, which look for the header by climbing
  to a node that is its own parent.

  Proved: they end, with the neighbour in order, at every node of a tree whose sentinel is its own
  parent, and at none otherwise. A deletion leaves the sentinel its own parent if and only if the
  node spliced out is the root or has a child: else its parent is written to `nil->parent`.
-/

import Mathlib
import Myos.Rbtree.Operations

namespace Myos.Rbtree

open Myos.Lib
open Myos.Lib.RedBlack hiding Tree

variable {α : Type*} [DecidableEq α] {t t' : RbTree α} {T L R X Z : RedBlack.Tree α} {up : List (Parent α)} {c : Color}
  {n y z : α} {s : Side} {compare : α → α → Int} {l : List α}

/-! ## Up -/

/-- The next key on side `s` of all below the place. -/
def beyond (s : Side) (up : List (Parent α)) : Option α :=
  match s with
  | .left => (before up).getLast?
  | .right => (after up).head?

omit [DecidableEq α] in
theorem beyond_same (s : Side) (c : Color) (k : α) (T : RedBlack.Tree α) (up : List (Parent α)) :
    beyond s (⟨s, c, k, T⟩ :: up) = beyond s up := by
  cases s <;> rfl

omit [DecidableEq α] in
theorem beyond_flip (s : Side) (c : Color) (k : α) (T : RedBlack.Tree α) (up : List (Parent α)) :
    beyond s (⟨s.flip, c, k, T⟩ :: up) = some k := by
  cases s with
  | left =>
    show (before up ++ (T.toList ++ [k])).getLast? = some k
    rw [← List.append_assoc, List.getLast?_concat]
  | right => rfl

theorem At.ascend (s : Side) (up : List (Parent α)) : ∀ {Z : RedBlack.Tree α}, At t Z up → Z ≠ .nil →
    Ends (fun n => t.ascend s t.nil n (ptr t.nil Z) (upPtr t.nil up)) ((beyond s up).getD t.nil) := by
  induction up with
  | nil =>
    intro Z h hZ
    have hb : beyond s ([] : List (Parent α)) = none := by cases s <;> rfl
    rw [hb]
    exact .now fun n => if_neg fun hc => hc.1 rfl
  | cons q up ih =>
    intro Z h hZ
    obtain ⟨side, c, k, S⟩ := q
    have hk : k ≠ t.nil := h.above.1
    have hside := h.is_child (Or.inl hZ) s
    by_cases hs : side = s
    · subst hs
      rw [beyond_same]
      have hj := at_join.mp h
      have hi := ih hj (join_ne_nil _ _ _ _ _)
      rw [ptr_join] at hi
      refine hi.round fun n => (if_pos ⟨hk, hside.mpr rfl⟩).trans ?_
      exact congrArg (t.ascend side t.nil n k) h.up_parent
    · rw [eq_flip hs, beyond_flip]
      exact .now fun n => if_neg fun hc => hs (hside.mp hc.2)

omit [DecidableEq α] in
/-- No node of the tree is its own parent. -/
theorem At.parent_ne {a b : RedBlack.Tree α} {k : α} (h : At t (join s c a k b) up) : t.parent k ≠ k := by
  rw [h.parent]
  cases up with
  | nil => exact h.key_ne.symm
  | cons q up =>
    intro e
    exact h.not_mem_keys (mem_join.mpr (Or.inl rfl)) (mem_keys_cons.mpr (Or.inl e.symm))

/-- From a node of the tree up to the sentinel, if it is its own parent. -/
theorem At.climb (hnil : t.parent t.nil = t.nil) (up : List (Parent α)) : ∀ {Z : RedBlack.Tree α}, At t Z up →
    Ends (fun n => t.climb n (upPtr t.nil up)) t.nil := by
  induction up with
  | nil =>
    intro Z _
    exact .now fun n => if_neg (not_not.mpr hnil)
  | cons q up ih =>
    intro Z h
    have hj := at_join.mp h
    exact (ih hj).round fun n => (if_pos hj.parent_ne).trans (congrArg (t.climb n) h.up_parent)

/-! ## The neighbour in order -/

/-- `n`'s neighbour on side `s` in a list. -/
def beside (s : Side) (b a : List α) : Option α :=
  match s with
  | .left => b.getLast?
  | .right => a.head?

theorem At.neighbour (s : Side) {near far : RedBlack.Tree α} (h : At t (join s c near n far) up)
    (hnil : t.parent t.nil = t.nil) :
    Ends (fun k => t.neighbour s k n) (((outermost s.flip near.toList).or (beyond s up)).getD t.nil) := by
  have hclimb := h.climb hnil up
  rw [← h.parent] at hclimb
  refine hclimb.bind ?_
  dsimp only
  rw [hnil, h.near]
  by_cases hne : near = .nil
  · subst hne
    have ha := h.ascend s up (join_ne_nil _ _ _ _ _)
    rw [ptr_join, ← h.parent] at ha
    rw [show (outermost s.flip (RedBlack.Tree.nil : RedBlack.Tree α).toList).or (beyond s up) = beyond s up by
      cases s <;> rfl]
    exact ha.congr fun k => if_neg (not_not.mpr rfl)
  · obtain ⟨y, hy, ho⟩ := (at_near.mp h).farthest s.flip hne
    rw [ho]
    exact hy.congr fun k => if_pos (mt (at_near.mp h).ptr_eq_nil.mp hne)

omit [DecidableEq α] in
/-- The neighbour as it stands in the list of all nodes. -/
theorem beside_place (s : Side) {near far : RedBlack.Tree α} {b a : List α} (hnd : (b ++ n :: a).Nodup)
    (hl : (fill up (join s c near n far)).toList = b ++ n :: a) :
    beside s b a = (outermost s.flip near.toList).or (beyond s up) := by
  obtain ⟨-, hna, hba⟩ := List.nodup_append.mp hnd
  have hnb : n ∉ b := fun hm => hba n hm n (List.mem_cons_self ..) rfl
  rw [fill_toList] at hl
  cases s with
  | left =>
    have hcut : b ++ n :: a = (before up ++ near.toList) ++ n :: (far.toList ++ after up) := by
      rw [← hl]
      simp [join]
    obtain ⟨rfl, -, -⟩ := (List.append_cons_inj_of_notMem hnb (List.nodup_cons.mp hna).1).mp hcut
    exact List.getLast?_append
  | right =>
    have hcut : b ++ n :: a = (before up ++ far.toList) ++ n :: (near.toList ++ after up) := by
      rw [← hl]
      simp [join]
    obtain ⟨-, -, rfl⟩ := (List.append_cons_inj_of_notMem hnb (List.nodup_cons.mp hna).1).mp hcut
    exact List.head?_append

/-! ## The sentinel -/

/-- The leaf has no children. -/
structure Barren (t : RbTree α) : Prop where
  left : t.child .left t.nil = t.nil
  right : t.child .right t.nil = t.nil

omit [DecidableEq α] in
theorem Barren.child (h : Barren t) (s : Side) : t.child s t.nil = t.nil := by
  cases s
  · exact h.left
  · exact h.right

theorem Holds.find {x : α} (h : Holds t T) (hx : x ∈ T.toList) :
    ∃ c l r up, At t (.node c l x r) up ∧ fill up (.node c l x r) = T ∧ locate x T [] = some (c, l, r, up) := by
  obtain ⟨⟨c, l, r, up⟩, hl⟩ := Option.isSome_iff_exists.mp (locate_of_mem hx [])
  exact ⟨c, l, r, up, h.located hl, (locate_sound hl).1, hl⟩

/-- The children of the nodes of the tree and of the sentinel are such again. -/
theorem Holds.child (h : Holds t T) (hb : Barren t) {x : α} (hx : x = t.nil ∨ x ∈ T.toList) (s : Side) :
    t.child s x = t.nil ∨ t.child s x ∈ T.toList := by
  rcases hx with rfl | hx
  · exact Or.inl (hb.child s)
  obtain ⟨c, l, r, up, hat, hf, -⟩ := h.find hx
  have hsub : ∀ {S : RedBlack.Tree α}, (∀ w ∈ S.toList, w ∈ l.toList ∨ w ∈ r.toList) → ptr t.nil S = t.nil ∨
      ptr t.nil S ∈ T.toList := by
    intro S hS
    by_cases hn : S = .nil
    · exact Or.inl (hn ▸ rfl)
    · refine Or.inr (hf ▸ mem_fill.mpr (Or.inl ?_))
      have := hS _ (show ptr t.nil S ∈ S.toList from ptr_mem hn)
      rw [node_toList, List.mem_append, List.mem_cons]
      tauto
  have hl : t.child .left x = ptr t.nil l := (show At t (join .left c l x r) up from hat).near
  have hr : t.child .right x = ptr t.nil r := (show At t (join .left c l x r) up from hat).far
  cases s with
  | left => rw [hl]; exact hsub fun w hw => Or.inl hw
  | right => rw [hr]; exact hsub fun w hw => Or.inr hw

/-- If the sentinel is not its own parent, the way down to a sentinel that is never ends. -/
theorem Holds.farthest_never (h : Holds t T) (hb : Barren t) (s : Side) {w : α} (hw : w ≠ t.nil) (hT : w ∉ T.toList) (fuel : Nat) :
    ∀ {x : α}, x = t.nil ∨ x ∈ T.toList → t.farthest s w fuel x = none := by
  induction fuel with
  | zero => intro x _; rfl
  | succ fuel ih =>
    intro x hx
    have hc := h.child hb hx s
    have hne : t.child s x ≠ w := by
      rintro rfl
      exact hc.elim hw hT
    exact (if_pos hne).trans (ih hc)

theorem climb_end {fuel : Nat} : ∀ {x w : α}, t.climb fuel x = some w → t.parent w = w := by
  induction fuel with
  | zero => intro x w h; cases h
  | succ fuel ih =>
    intro x w h
    rw [RbTree.climb] at h
    split at h
    · exact ih h
    · next hx => cases h; exact not_not.mp hx

theorem Holds.neighbour_never (h : Holds t T) (hb : Barren t) (hnil : t.parent t.nil ≠ t.nil) (hn : n ∈ T.toList) (s : Side)
    (fuel : Nat) : t.neighbour s fuel n = none := by
  refine Option.bind_eq_none_iff.mpr fun w hw => ?_
  -- the way up ended at a node that is neither the sentinel nor in the tree
  have hself := climb_end hw
  have hwn : w ≠ t.nil := fun e => hnil (e ▸ hself)
  have hwT : w ∉ T.toList := by
    intro hm
    obtain ⟨c, l, r, up, hat, -⟩ := h.find hm
    exact (show At t (join .left c l w r) up from hat).parent_ne hself
  have hc := h.child hb (Or.inr hn) s
  have hne : t.child s n ≠ w := by
    rintro rfl
    exact hc.elim hwn hwT
  dsimp only
  rw [hself, if_pos hne]
  exact h.farthest_never hb s.flip hwn hwT fuel hc

/-! ## Iteration -/

/-- Both ways `n` leads to its neighbour in order, or to the sentinel. -/
def Iterates (t : RbTree α) (T : RedBlack.Tree α) : Prop :=
  ∀ b n a, T.toList = b ++ n :: a →
    Ends (fun k => t.rbTreeNext k n) (a.head?.getD t.nil) ∧ Ends (fun k => t.rbTreePrev k n) (b.getLast?.getD t.nil)

theorem Holds.iterates (h : Holds t T) (hnil : t.parent t.nil = t.nil) : Iterates t T := by
  intro b n a hl
  have hnd : (b ++ n :: a).Nodup := hl ▸ h.nodup
  obtain ⟨c, l, r, up, hat, hf, -⟩ := h.find (x := n) (by rw [hl]; simp)
  rw [← hf] at hl
  have hr : At t (join .right c r n l) up := hat
  have hl' : At t (join .left c l n r) up := hat
  have hnext := hr.neighbour .right hnil
  have hprev := hl'.neighbour .left hnil
  rw [← beside_place .right hnd hl] at hnext
  rw [← beside_place .left hnd hl] at hprev
  exact ⟨hnext, hprev⟩

theorem Holds.iterates_iff (h : Holds t T) (hb : Barren t) : Iterates t T ↔ T = .nil ∨ t.parent t.nil = t.nil := by
  constructor
  · intro hi
    by_contra hc
    rw [not_or] at hc
    obtain ⟨b, a, hl⟩ := List.append_of_mem (show ptr t.nil T ∈ T.toList from ptr_mem hc.1)
    exact not_ends (fun k => h.neighbour_never hb hc.2 (ptr_mem hc.1) .right k) (hi b _ a hl).1
  · rintro (rfl | hnil)
    · intro b n a hl
      exact absurd hl.symm (by simp)
    · exact h.iterates hnil

/-! ## Runs -/

/-- The node that is spliced out when `z` is deleted: `z`, or its successor if it has two children. -/
def Goes (t : RbTree α) (z y : α) : Prop :=
  if t.child .left z = t.nil ∨ t.child .right z = t.nil then y = z
  else Ends (fun n => t.rbTreeMin t.nil n (t.child .right z)) y

/-- The node spliced out is the root or has a child to take its place. -/
def Refills (t : RbTree α) (z : α) : Prop :=
  ∃ y, Goes t z y ∧ (t.parent y = t.nil ∨ t.child .left y ≠ t.nil ∨ t.child .right y ≠ t.nil)

theorem refills_iff {up' : List (Parent α)} {cy : Color} (h : At t (.node c L z R) up) (hs : Spliced c up L R X up' cy) :
    Refills t z ↔ X ≠ .nil ∨ upPtr t.nil up' = t.nil := by
  have hj : At t (join .left c L z R) up := h
  cases hs with
  | noLeft =>
    have hl : t.child .left z = t.nil := hj.near
    have hX : ptr t.nil R ≠ t.nil ↔ R ≠ .nil := not_congr (at_far.mp hj).ptr_eq_nil
    have hg : ∀ y, Goes t z y ↔ y = z := fun y => by rw [Goes, if_pos (Or.inl hl)]
    simp only [Refills, hg, exists_eq_left]
    rw [hj.parent, hl, show t.child .right z = ptr t.nil R from hj.far, hX]
    simp only [ne_eq, not_true_eq_false, false_or]
    exact or_comm
  | noRight hL =>
    have hr : t.child .right z = t.nil := hj.far
    have hg : Goes t z z := by rw [Goes, if_pos (Or.inr hr)]
    refine iff_of_true ⟨z, hg, Or.inr (Or.inl ?_)⟩ (Or.inl hL)
    rw [hj.near]
    exact mt (at_near.mp hj).ptr_eq_nil.mp hL
  | @both _ _ _ _ y down hL hm =>
    obtain ⟨hplace, hl, hr, hmin⟩ := h.successor hL hm
    have hg : ∀ y', Goes t z y' ↔ y' = y := fun y' => by
      rw [Goes, if_neg (not_or.mpr ⟨hl, hr⟩)]
      exact ⟨fun he => he.unique hmin, fun e => e ▸ hmin⟩
    have hup : upPtr t.nil (down ++ ⟨.right, c, y, L⟩ :: up) ≠ t.nil := by
      cases down with
      | nil => exact hplace.key_ne
      | cons d down => exact hplace.above.1
    have hpar : t.parent y ≠ t.nil := by
      rw [hplace.parent]
      cases down with
      | nil => exact hj.key_ne
      | cons d down => exact hplace.above.1
    have hy : t.child .left y = t.nil := hplace.near
    have hX : ptr t.nil X ≠ t.nil ↔ X ≠ .nil := not_congr (at_far.mp hplace).ptr_eq_nil
    simp only [Refills, hg, exists_eq_left]
    rw [hy, show t.child .right y = ptr t.nil X from hplace.far, hX]
    simp only [hpar, hup, ne_eq, not_true_eq_false, false_or, or_false]

omit [DecidableEq α] in
theorem Barren.kept (h : Barren t) (hk : Kept t t') : Barren t' := by
  have hn := hk.node
  refine ⟨?_, ?_⟩ <;> rw [hk.nil, RbTree.child, hn]
  · exact h.left
  · exact h.right

omit [DecidableEq α] in
theorem Barren.told {p : α} (h : Barren t) (ht : Told t t' X p) : Barren t' := by
  by_cases hX : X = .nil
  · have hn := ht.leaf hX
    refine ⟨?_, ?_⟩ <;> rw [ht.nil, RbTree.child, hn]
    · exact h.left
    · exact h.right
  · exact h.kept ⟨ht.nil, ht.other hX⟩

omit [DecidableEq α] in
theorem Told.self {p : α} (h : Told t t' X p) (hnil : t.parent t.nil = t.nil) :
    t'.parent t'.nil = t'.nil ↔ X ≠ .nil ∨ p = t.nil := by
  rw [h.nil]
  by_cases hX : X = .nil
  · rw [RbTree.parent, h.leaf hX]
    simp [hX]
  · rw [RbTree.parent, h.other hX]
    exact iff_of_true hnil (Or.inl hX)

theorem Barren.init (memory : α → RbNode α) (nil : α) : Barren (RbTree.rbTreeInit memory nil) := by
  refine ⟨?_, ?_⟩ <;> exact congrArg (RbNode.child · _) (Function.update_self nil _ memory)

/-- The sentinel in a run: it has no children, and is its own parent if every deletion refilled. -/
theorem Reach.sentinel {ok : RbTree α → α → Prop} (hc : Comparison compare) (h : Reach compare ok t l) :
    Barren t ∧ ((∀ t z, ok t z → Refills t z) → t.parent t.nil = t.nil) := by
  induction h with
  | init memory nil => exact ⟨.init memory nil, fun _ => congrArg RbNode.parent (Function.update_self nil _ memory)⟩
  | insert hr hz hn he ih =>
    obtain ⟨T, hT, hp⟩ := hr.correct hc
    obtain ⟨t', T', b, a, he', -, -, -, -, -, hk⟩ := hT.insert hc (fun hm => hz (hp.mem_iff.mp hm)) hn
    obtain rfl := he.unique he'
    refine ⟨ih.1.kept hk, fun hok => ?_⟩
    rw [hk.nil, RbTree.parent, hk.node]
    exact ih.2 hok
  | delete hr hz hrz he ih =>
    obtain ⟨T, hT, hp⟩ := hr.correct hc
    obtain ⟨t', T', he', -, -, c, L, R, up, X, up', cy, hl, hs, -, ht⟩ := hT.delete (hp.mem_iff.mpr hz)
    obtain rfl := he.unique he'
    have hat := hT.holds.located hl
    exact ⟨ih.1.told ht, fun hok => (ht.self (ih.2 hok)).mpr ((refills_iff hat hs).mp (hok _ _ hrz))⟩
  | @write t l x n _ hx hn ih =>
    have ho : (t.setNode x n).node t.nil = t.node t.nil := Function.update_of_ne hn.symm ..
    exact ⟨ih.1.kept ⟨rfl, ho⟩, fun hok => (congrArg RbNode.parent ho).trans (ih.2 hok)⟩

/-- If every deletion so far refilled, iteration is right, and it is right after one more deletion if
    and only if that one refills. -/
theorem iteration_correct (hc : Comparison compare) (h : Reach compare Refills t l) :
    ∃ T, Correct compare t T ∧ T.toList.Perm l ∧ Iterates t T ∧ ∀ z ∈ l, ∃ t' T',
      Ends (fun n => t.rbTreeDelete n z) t' ∧ Correct compare t' T' ∧ T'.toList = T.toList.erase z ∧
        (Iterates t' T' ↔ Refills t z) := by
  obtain ⟨hb, hs⟩ := h.sentinel hc
  have hnil := hs fun _ _ hr => hr
  obtain ⟨T, hT, hp⟩ := h.correct hc
  refine ⟨T, hT, hp, hT.holds.iterates hnil, fun z hz => ?_⟩
  obtain ⟨t', T', he, hT', hl, c, L, R, up, X, up', cy, hloc, hsp, hlist, ht⟩ := hT.delete (hp.mem_iff.mpr hz)
  have hat := hT.holds.located hloc
  refine ⟨t', T', he, hT', hl, ?_⟩
  rw [hT'.holds.iterates_iff (hb.told ht), ht.self hnil, refills_iff hat hsp]
  refine ⟨fun hor => hor.elim (fun hempty => Or.inr ?_) id, Or.inr⟩
  -- with no node left the place was the root
  cases up' with
  | nil => rfl
  | cons q up' =>
    have hq : q.key ∈ T'.toList := hlist ▸ mem_fill.mpr (Or.inr (mem_keys_cons.mpr (Or.inl rfl)))
    rw [hempty] at hq
    cases hq

/-! ### Two nodes -/

def empty : RbTree Nat := RbTree.rbTreeInit (fun _ => ⟨0, 0, 0, .red⟩) 0
def one : RbTree Nat := (empty.rbTreeInsert byNumber 3 1).getD empty
def two : RbTree Nat := (one.rbTreeInsert byNumber 3 2).getD empty

theorem reach_two (ok : RbTree Nat → Nat → Prop) : Reach byNumber ok two [2, 1] := by
  have h1 : Reach byNumber ok one [1] := by
    refine (Reach.init (fun _ => ⟨0, 0, 0, .red⟩) 0).insert (by decide) (by decide) ⟨3, fun m hm => ?_⟩
    obtain ⟨k, rfl⟩ := Nat.exists_eq_add_of_le' hm
    rfl
  refine h1.insert (by decide) (by decide) ⟨3, fun m hm => ?_⟩
  obtain ⟨k, rfl⟩ := Nat.exists_eq_add_of_le' hm
  rfl

/-- The root is deleted and its child takes its place. -/
theorem iteration_correct_root : ∃ t T, Reach byNumber Refills t [2] ∧ Correct byNumber t T ∧ T.toList.Perm [2] ∧ Iterates t T := by
  have hr : Refills two 1 := ⟨1, rfl, Or.inr (Or.inr (by decide))⟩
  have h : Reach byNumber Refills ((two.rbTreeDelete 3 1).getD empty) [2] := by
    refine (reach_two _).delete (z := 1) (by decide) hr ⟨3, fun m hm => ?_⟩
    obtain ⟨k, rfl⟩ := Nat.exists_eq_add_of_le' hm
    rfl
  obtain ⟨T, hT, hp, hi, -⟩ := iteration_correct byNumber_comparison h
  exact ⟨_, T, h, hT, hp, hi⟩

/-- When the leaf 2 is deleted its parent 1 becomes the parent of the sentinel, and the way up from 1
    goes round. -/
theorem iteration_lost : ∃ t : RbTree Nat, Reach byNumber (fun _ _ => True) t [1] ∧
    ∀ fuel, t.rbTreeNext fuel 1 = none ∧ t.rbTreePrev fuel 1 = none := by
  have h : Reach byNumber (fun _ _ => True) ((two.rbTreeDelete 3 2).getD empty) [1] := by
    refine (reach_two _).delete (z := 2) (by decide) trivial ⟨3, fun m hm => ?_⟩
    obtain ⟨k, rfl⟩ := Nat.exists_eq_add_of_le' hm
    rfl
  have h0 : ((two.rbTreeDelete 3 2).getD empty).parent 0 = 1 := by decide
  have h1 : ((two.rbTreeDelete 3 2).getD empty).parent 1 = 0 := by decide
  generalize (two.rbTreeDelete 3 2).getD empty = t at *
  have hclimb : ∀ fuel, t.climb fuel 0 = none ∧ t.climb fuel 1 = none := by
    intro fuel
    induction fuel with
    | zero => exact ⟨rfl, rfl⟩
    | succ fuel ih =>
      constructor
      · rw [RbTree.climb, h0, if_pos (by decide)]
        exact ih.2
      · rw [RbTree.climb, h1, if_pos (by decide)]
        exact ih.1
  refine ⟨t, h, fun fuel => ⟨?_, ?_⟩⟩
  · rw [RbTree.rbTreeNext, RbTree.neighbour, h1, (hclimb fuel).1, Option.bind_none]
  · rw [RbTree.rbTreePrev, RbTree.neighbour, h1, (hclimb fuel).1, Option.bind_none]

end Myos.Rbtree

/-
  Myos.Rbtree.Fixups — the loops that repair a tree in memory after a node was hung in or spliced
  out do what `RedBlack.insertFixup` and `RedBlack.deleteFixup` do.

  Proved: if these return a tree, the loops end and memory holds that tree; `nil` is as it was.
-/

import Mathlib
import Myos.Lib.Rounds
import Myos.Rbtree.Rotations

namespace Myos.Rbtree

open Myos.Lib
open Myos.Lib.RedBlack hiding Tree

variable {α : Type*} [DecidableEq α] {t : RbTree α} {z T : RedBlack.Tree α} {up : List (Parent α)} {s : Side}

/-- Painted black, if it is a leaf too. -/
theorem At.paint (h : At t T up) :
    At (t.setColor (ptr t.nil T) .black) (T.paint .black) up ∧ Kept t (t.setColor (ptr t.nil T) .black) := by
  by_cases hT : T = .nil
  · subst hT
    exact ⟨h.setColor_nil, h.setColor_nil_kept⟩
  · obtain ⟨c, a, k, b, rfl⟩ := exists_join .left hT
    rw [ptr_join, paint_join]
    exact ⟨h.setColor _, h.setColor_kept _⟩

omit [DecidableEq α] in
theorem At.root (h : At t T up) : t.root = ptr t.nil (fill up T) := (at_fill.mp h).above

/-! ## After an insertion -/

/-- The loop ends below the root and below a black parent. -/
theorem At.insert_done (h : At t z up) (hz : z ≠ .nil) (hup : ∀ q ∈ up.head?, q.color = .black) :
    ∃ t', Ends (fun n => t.rbInsertFixup n (ptr t.nil z)) t' ∧ Holds t' ((fill up z).paint .black) ∧ Kept t t' := by
  obtain ⟨hp, hk⟩ := (at_fill.mp h).paint
  rw [← h.root] at hp hk
  refine ⟨_, .now fun n => ?_, hp, hk⟩
  refine if_neg ?_
  rw [h.parent_of hz]
  cases up with
  | nil =>
    rw [show upPtr t.nil [] = t.nil from rfl, h.black]
    decide
  | cons q up =>
    rw [show upPtr t.nil (q :: up) = q.key from rfl, h.up_color, hup q rfl]
    decide

/-- Which of the mirrored halves is taken. -/
theorem At.insert_round {p g : Parent α} (h : At t z (p :: g :: up)) (hz : z ≠ .nil) (hp : p.color = .red) (n : Nat) :
    t.rbInsertFixup (n + 1) (ptr t.nil z) =
      (t.insertRound g.side (ptr t.nil z)).1.rbInsertFixup n (t.insertRound g.side (ptr t.nil z)).2 := by
  have hpar : t.parent (ptr t.nil z) = p.key := h.parent_of hz
  have hg : t.parent p.key = g.key := h.up_parent
  have hside := (at_join.mp h).is_child (Or.inl (join_ne_nil _ _ _ _ _)) .left
  rw [ptr_join] at hside
  rw [RbTree.rbInsertFixup, hpar, hg, if_pos (by rw [h.up_color, hp])]
  cases hs : g.side with
  | left => rw [if_pos (hside.mpr hs)]
  | right => rw [if_neg fun e => by rw [hside.mp e] at hs; cases hs]

omit [DecidableEq α] in
/-- Parent and grandparent of a node. -/
theorem At.parents {s' : Side} {c c' : Color} {k k' : α} {b d : RedBlack.Tree α} (h : At t (join s c (join s' c' z k' b) k d) up)
    (hz : z ≠ .nil) : t.parent (ptr t.nil z) = k' ∧ t.parent k' = k := by
  have h1 := at_near.mp h
  exact ⟨(at_near.mp h1).parent_of hz, h1.parent⟩

/-- Parent and uncle give their colour to the grandparent. -/
theorem At.recolour {p g : Parent α} (h : At t z (p :: g :: up)) (hz : z ≠ .nil) (hg : g.sibling.color = .red) :
    At (t.insertRound g.side (ptr t.nil z)).1
        (join g.side .red (join p.side .black z p.key p.sibling) g.key (g.sibling.paint .black)) up ∧
      (t.insertRound g.side (ptr t.nil z)).2 = g.key ∧ Kept t (t.insertRound g.side (ptr t.nil z)).1 := by
  have h0 := at_join.mp (at_join.mp h)
  obtain ⟨e1, e2⟩ := h0.parents hz
  rw [RbTree.insertRound, e1, e2, h0.far, if_pos ((at_far.mp h0).color.trans hg)]
  dsimp only
  -- the parent
  have h1 := (at_near.mp h0).setColor .black
  have k1 := (at_near.mp h0).setColor_kept .black
  generalize t.setColor p.key .black = t1 at *
  -- the uncle
  obtain ⟨h2, k2⟩ := (at_far.mp (at_near.mpr h1)).paint
  rw [k1.nil] at h2 k2
  replace k2 := k1.trans k2
  generalize t1.setColor (ptr t.nil g.sibling) .black = t2 at *
  -- the grandparent
  have h2' := at_far.mpr h2
  obtain ⟨e3, e4⟩ := h2'.parents hz
  rw [k2.nil] at e3
  rw [e3, e4]
  have h3 := h2'.setColor .red
  have k3 := k2.trans (h2'.setColor_kept .red)
  generalize t2.setColor g.key .red = t3 at *
  obtain ⟨e5, e6⟩ := h3.parents hz
  rw [k3.nil] at e5
  rw [e5, e6]
  exact ⟨h3, rfl, k3⟩

/-- The end of a round with a black uncle. -/
def liftParent (s : Side) (t : RbTree α) (z : α) : RbTree α :=
  let t := t.setColor (t.parent z) .black
  let t := t.setColor (t.parent (t.parent z)) .red
  t.rotate s.flip (t.parent (t.parent z))

/-- The parent `o` comes up over the grandparent. -/
theorem At.liftParent {g : Parent α} {c : Color} {o : α} {X : RedBlack.Tree α} (h : At t (join g.side c z o X) (g :: up))
    (hz : z ≠ .nil) : At (liftParent g.side t (ptr t.nil z)) (join g.side .black z o (join g.side .red X g.key g.sibling)) up ∧
      Kept t (liftParent g.side t (ptr t.nil z)) := by
  unfold Rbtree.liftParent
  rw [(at_near.mp h).parent_of hz]
  dsimp only [upPtr]
  have h1 := at_join.mp (h.setColor .black)
  have k1 := h.setColor_kept .black
  generalize t.setColor o .black = t1 at *
  obtain ⟨e1, e2⟩ := h1.parents hz
  rw [k1.nil] at e1
  rw [e1, e2]
  have h2 := h1.setColor .red
  have k2 := k1.trans (h1.setColor_kept .red)
  generalize t1.setColor g.key .red = t2 at *
  obtain ⟨e3, e4⟩ := h2.parents hz
  rw [k2.nil] at e3
  rw [e3, e4]
  exact ⟨h2.rotate_flip.1, k2.trans h2.rotate_flip.2⟩

omit [DecidableEq α] in
theorem eq_flip {s s' : Side} (h : s' ≠ s) : s' = s.flip := by
  cases s <;> cases s' <;> simp_all [Side.flip]

/-- The round with a black uncle. -/
theorem At.lift {p g : Parent α} {o : RedBlack.Tree α} (h : At t z (p :: g :: up)) (hz : z ≠ .nil) (hg : g.sibling.color ≠ .red)
    (ho : (if p.side = g.side then some (join p.side p.color z p.key p.sibling)
      else RedBlack.rotate g.side (join p.side p.color z p.key p.sibling)) = some o) :
    ∃ Z c k X, Z ≠ .nil ∧ o = join g.side c Z k X ∧ ptr t.nil Z = (t.insertRound g.side (ptr t.nil z)).2 ∧
      At (t.insertRound g.side (ptr t.nil z)).1 (join g.side .black Z k (join g.side .red X g.key g.sibling)) up ∧
      Kept t (t.insertRound g.side (ptr t.nil z)).1 := by
  have h0 := at_join.mp (at_join.mp h)
  obtain ⟨e1, e2⟩ := h0.parents hz
  have hside := h.is_child (Or.inl hz) g.side.flip
  rw [RbTree.insertRound, e1, e2, h0.far, if_neg fun e => hg ((at_far.mp h0).color.symm.trans e)]
  by_cases hs : p.side = g.side
  · rw [if_pos hs] at ho
    obtain rfl := Option.some.inj ho
    rw [if_neg fun e => by rw [hside.mp e] at hs; exact flip_ne _ hs]
    have hj := at_join.mp h
    rw [hs] at hj ⊢
    obtain ⟨h', hk⟩ := hj.liftParent hz
    exact ⟨z, _, _, _, hz, rfl, rfl, h', hk⟩
  · -- the node is first turned over its parent
    have hflip := eq_flip hs
    rw [if_neg hs] at ho
    rw [if_pos (hside.mpr hflip)]
    obtain ⟨c, a, k, b, rfl⟩ := exists_join p.side hz
    rw [rotate_inner hs] at ho
    obtain rfl := Option.some.inj ho
    have hj := at_join.mp h
    rw [hflip, join_flip, join_flip] at hj
    obtain ⟨h1, k1⟩ := hj.rotate_kept
    obtain ⟨h', hk⟩ := h1.liftParent (join_ne_nil _ _ _ _ _)
    rw [ptr_join] at h' hk
    exact ⟨_, _, _, _, join_ne_nil _ _ _ _ _, rfl, ptr_join .., h', k1.trans hk⟩

/-- The loop after an insertion. -/
theorem At.insertFixup : ∀ {t : RbTree α}, At t z up → z.color = .red → RedBlack.insertFixup z up = some T →
    ∃ t', Ends (fun n => t.rbInsertFixup n (ptr t.nil z)) t' ∧ Holds t' T ∧ Kept t t' := by
  have ne_nil : ∀ {z : RedBlack.Tree α}, z.color = .red → z ≠ .nil := fun h e => by rw [e] at h; cases h
  induction z, up using RedBlack.insertFixup.induct with
  | case1 z =>
    intro t h hz hT
    cases hT
    exact h.insert_done (ne_nil hz) fun q hq => by cases hq
  | case2 z p hp => intro t h hz hT; rw [RedBlack.insertFixup, if_pos hp] at hT; cases hT
  | case3 z p hp =>
    intro t h hz hT
    rw [RedBlack.insertFixup, if_neg hp] at hT
    cases hT
    refine h.insert_done (ne_nil hz) fun q hq => ?_
    cases hq
    cases hc : p.color with
    | black => rfl
    | red => exact absurd hc hp
  | case4 z p g up hp =>
    intro t h hz hT
    rw [RedBlack.insertFixup, if_pos hp] at hT
    cases hT
    refine h.insert_done (ne_nil hz) fun q hq => ?_
    cases hq
    exact hp
  | case5 z p g up hp hg ih =>
    intro t h hz hT
    rw [RedBlack.insertFixup, if_neg hp, if_pos hg] at hT
    obtain ⟨h1, e1, k1⟩ := h.recolour (ne_nil hz) hg
    obtain ⟨t', ht, hH, hk⟩ := ih h1 (color_join ..) hT
    rw [ptr_join, ← e1] at ht
    refine ⟨t', ht.round fun n => h.insert_round (ne_nil hz) ?_ n, hH, k1.trans hk⟩
    cases hc : p.color with
    | red => rfl
    | black => exact absurd hc hp
  | case6 z p g up hp hg =>
    intro t h hz hT
    have hred : p.color = .red := by
      cases hc : p.color with
      | red => rfl
      | black => exact absurd hc hp
    rw [RedBlack.insertFixup, if_neg hp, if_neg hg] at hT
    obtain ⟨o, ho, hT⟩ := Option.bind_eq_some_iff.mp hT
    rw [← hred] at ho
    obtain ⟨Z, c, k, X, hZ, rfl, e1, h1, k1⟩ := h.lift (ne_nil hz) hg ho
    rw [paint_join, RedBlack.rotate_flip] at hT
    cases hT
    obtain ⟨t', ht, hH, hk⟩ := (at_near.mp h1).insert_done hZ fun q hq => by cases hq; rfl
    rw [k1.nil, e1] at ht
    exact ⟨t', ht.round fun n => h.insert_round (ne_nil hz) hred n, hH, k1.trans hk⟩

/-! ## After a deletion -/

@[simp] theorem setColor_parent (x y : α) (c : Color) : (t.setColor x c).parent y = t.parent y := by
  by_cases h : y = x
  · subst h
    rw [RbTree.parent, RbTree.setColor, setNode_node, Function.update_self]
    rfl
  · rw [RbTree.parent, RbTree.setColor, setNode_node, Function.update_of_ne h]
    rfl

variable {X near far : RedBlack.Tree α} {c cw : Color} {k kw x : α}

omit [DecidableEq α] in
/-- A leaf that was told its parent still knows it. -/
theorem Kept.parent {t' : RbTree α} (hk : Kept t t') (h : At t' X up) (hx : t.parent (ptr t.nil X) = upPtr t.nil up) :
    t'.parent (ptr t.nil X) = upPtr t.nil up := by
  by_cases hX : X = .nil
  · subst hX
    rw [← hx]
    exact congrArg RbNode.parent hk.node
  · rw [← hk.nil]
    exact h.parent_of hX

/-- The end of a round with a red far nephew. -/
def liftSibling (s : Side) (t : RbTree α) (x w : α) : RbTree α :=
  let t := t.setColor w (t.color (t.parent x))
  let t := t.setColor (t.parent x) .black
  let t := t.setColor (t.child s.flip w) .black
  t.rotate s (t.parent x)

theorem At.liftSibling (h : At t (join s c X k (join s cw near kw far)) up) (hx : t.parent x = k) :
    At (liftSibling s t x kw) (join s c (join s .black X k near) kw (far.paint .black)) up ∧
      Kept t (liftSibling s t x kw) := by
  have hc : t.color k = c := by
    have := h.color
    rwa [ptr_join, color_join] at this
  unfold Rbtree.liftSibling
  simp only [setColor_parent, hx, hc]
  -- the sibling
  have h1 := at_far.mpr ((at_far.mp h).setColor c)
  have k1 := (at_far.mp h).setColor_kept c
  generalize t.setColor kw c = t1 at *
  -- the parent
  have h2 := at_far.mp (h1.setColor .black)
  have k2 := k1.trans (h1.setColor_kept .black)
  generalize t1.setColor k .black = t2 at *
  -- the far nephew
  rw [h2.far]
  obtain ⟨h3, k3⟩ := (at_far.mp h2).paint
  replace h3 := at_far.mpr (at_far.mpr h3)
  replace k3 := k2.trans k3
  generalize t2.setColor (ptr t2.nil far) .black = t3 at *
  obtain ⟨h4, k4⟩ := h3.rotate_kept
  exact ⟨h4, k3.trans k4⟩

/-- Where a round leaves off. -/
def Reached (t' : RbTree α) (x : α) (up : List (Parent α)) : Round α → Prop
  | .up T => At t' T up ∧ T ≠ .nil ∧ x = ptr t'.nil T
  | .done T => At t' T up ∧ x = t'.root

theorem At.siblingRound {r : Round α} (h : At t (join s c X k (join s cw near kw far)) up) (hx : t.parent (ptr t.nil X) = k)
    (hr : blackRound s c k X (join s cw near kw far) = some r) :
    Reached (t.siblingRound s (ptr t.nil X) kw).1 (t.siblingRound s (ptr t.nil X) kw).2 up r ∧
      Kept t (t.siblingRound s (ptr t.nil X) kw).1 := by
  have hw := at_far.mp h
  have hn : t.color (t.child s kw) = near.color := by rw [hw.near, (at_near.mp hw).color]
  have hf : t.color (t.child s.flip kw) = far.color := by rw [hw.far, (at_far.mp hw).color]
  rw [blackRound_join] at hr
  rw [RbTree.siblingRound, hn, hf]
  by_cases hb : near.color = .black ∧ far.color = .black
  · rw [if_pos hb] at hr ⊢
    cases hr
    refine ⟨⟨at_far.mpr (hw.setColor .red), join_ne_nil _ _ _ _ _, ?_⟩, hw.setColor_kept .red⟩
    rw [ptr_join]
    exact hx
  rw [if_neg hb] at hr ⊢
  by_cases hfar : far.color = .black
  · -- the near nephew is first turned up
    rw [if_pos hfar] at hr ⊢
    have hnear : near ≠ .nil := fun e => hb ⟨by rw [e]; rfl, hfar⟩
    obtain ⟨cn, a, j, b, rfl⟩ := exists_join s hnear
    rw [paint_join, RedBlack.rotate_flip, Option.bind_some, outward_join] at hr
    cases hr
    dsimp only
    rw [hw.near, ptr_join]
    have h1 := at_near.mpr ((at_near.mp hw).setColor .black)
    have k1 := (at_near.mp hw).setColor_kept .black
    generalize t.setColor j .black = t1 at *
    have h2 := h1.setColor .red
    have k2 := k1.trans (h1.setColor_kept .red)
    generalize t1.setColor kw .red = t2 at *
    obtain ⟨h3, k3⟩ := h2.rotate_flip
    replace h3 := at_far.mpr h3
    replace k3 := k2.trans k3
    generalize t2.rotate s.flip kw = t3 at *
    have hx3 : t3.parent (ptr t.nil X) = k := k3.parent (at_near.mp h3) hx
    have hw3 : t3.child s.flip (t3.parent (ptr t.nil X)) = j := by rw [hx3, h3.far, ptr_join]
    rw [hw3]
    obtain ⟨h4, k4⟩ := h3.liftSibling hx3
    exact ⟨⟨h4, rfl⟩, k3.trans k4⟩
  · rw [if_neg hfar] at hr ⊢
    rw [outward_join] at hr
    cases hr
    obtain ⟨h1, k1⟩ := h.liftSibling hx
    exact ⟨⟨h1, rfl⟩, k1⟩

/-- A red sibling is turned up first; the near nephew is the sibling then. -/
theorem At.turnSibling (h : At t (join s c X k (join s cw near kw far)) up) :
    At (((t.setColor kw .black).setColor k .red).rotate s k) (join s .red X k near) (⟨s, .black, kw, far⟩ :: up) ∧
      Kept t (((t.setColor kw .black).setColor k .red).rotate s k) := by
  have h1 := at_far.mpr ((at_far.mp h).setColor .black)
  have k1 := (at_far.mp h).setColor_kept .black
  generalize t.setColor kw .black = t1 at *
  have h2 := h1.setColor .red
  have k2 := k1.trans (h1.setColor_kept .red)
  generalize t1.setColor k .red = t2 at *
  obtain ⟨h3, k3⟩ := h2.rotate_kept
  exact ⟨at_near.mp h3, k2.trans k3⟩

omit [DecidableEq α] in
theorem fill_ptr_mem (nil : α) : ∀ (q : Parent α) (up : List (Parent α)) (T : RedBlack.Tree α),
    ptr nil (fill (q :: up) T) ∈ keys (q :: up) := by
  intro q up
  induction up generalizing q with
  | nil =>
    intro T
    rw [fill, fill, ptr_join]
    exact mem_keys_cons.mpr (Or.inl rfl)
  | cons q' up ih =>
    intro T
    rw [fill]
    exact mem_keys_cons.mpr (Or.inr (Or.inr (ih q' _)))

omit [DecidableEq α] in
/-- Below the root a place does not hold it. -/
theorem At.ne_root {q : Parent α} (h : At t X (q :: up)) : ptr t.nil X ≠ t.root := by
  rw [h.root]
  intro e
  have hm := fill_ptr_mem t.nil q up X
  by_cases hX : X = .nil
  · exact h.above.ne_nil _ hm (by rw [← e, hX]; rfl)
  · exact h.not_mem_keys (ptr_mem hX) (e ▸ hm)

/-- The loop ends at the root and at a red node. -/
theorem delete_done (h : At t X up) (hd : ptr t.nil X = t.root ∨ X.color = .red) :
    ∃ t', Ends (fun n => t.rbDeleteFixup n (ptr t.nil X)) t' ∧ Holds t' (fill up (X.paint .black)) ∧ Kept t t' := by
  obtain ⟨hp, hk⟩ := h.paint
  refine ⟨_, .now fun n => if_neg fun ⟨hne, hb⟩ => ?_, at_fill.mp hp, hk⟩
  rcases hd with hd | hd
  · exact hne hd
  · rw [h.color, hd] at hb
    cases hb

/-- Which of the mirrored halves is taken. -/
theorem At.delete_round {q : Parent α} (h : At t X (q :: up)) (hc : X.color ≠ .red) (hq : q.sibling ≠ .nil)
    (hx : t.parent (ptr t.nil X) = q.key) (n : Nat) :
    t.rbDeleteFixup (n + 1) (ptr t.nil X) =
      (t.deleteRound q.side (ptr t.nil X)).1.rbDeleteFixup n (t.deleteRound q.side (ptr t.nil X)).2 := by
  have hb : t.color (ptr t.nil X) = .black := by
    rw [h.color]
    cases hX : X.color with
    | black => rfl
    | red => exact absurd hX hc
  have hside := h.is_child (Or.inr hq) .left
  rw [RbTree.rbDeleteFixup, if_pos ⟨h.ne_root, hb⟩, hx]
  cases hs : q.side with
  | left => rw [if_pos (hside.mpr hs)]
  | right => rw [if_neg fun e => by rw [hside.mp e] at hs; cases hs]

/-- From where a round leaves off the loop goes on. -/
theorem Reached.done {T : RedBlack.Tree α} {x : α} (h : Reached t x up (.done T)) :
    ∃ t', Ends (fun n => t.rbDeleteFixup n x) t' ∧ Holds t' ((fill up T).paint .black) ∧ Kept t t' := by
  obtain ⟨hT, rfl⟩ := h
  have hr := hT.root
  rw [hr]
  exact delete_done (at_fill.mp hT) (Or.inl hr.symm)

omit [DecidableEq α] in
theorem blackRound_up {Y W : RedBlack.Tree α} (h : blackRound s c k X W = some (.up Y)) : Y.color = c := by
  by_cases hW : W = .nil
  · subst hW
    cases h
  obtain ⟨cw, near, kw, far, rfl⟩ := exists_join s hW
  rw [blackRound_join] at h
  split at h
  · cases h
    exact color_join ..
  split at h
  · obtain ⟨w, -, hw⟩ := Option.bind_eq_some_iff.mp h
    obtain ⟨_, he, -⟩ := outward_toList hw
    cases he
  · rw [outward_join] at h
    cases h

omit [DecidableEq α] in
theorem deleteFixup_red {T : RedBlack.Tree α} (hX : X.color ≠ .red)
    (h : RedBlack.deleteFixup X (⟨s, c, k, join s .red near kw far⟩ :: up) = some T) :
    ∃ r, blackRound s .red k X near = some r ∧
      ((∃ Y, r = .up Y ∧ T = fill (⟨s, .black, kw, far⟩ :: up) (Y.paint .black)) ∨
        ∃ Y, r = .done Y ∧ T = (fill (⟨s, .black, kw, far⟩ :: up) Y).paint .black) := by
  have hj : RedBlack.deleteFixup X (⟨s, c, k, join s .red near kw far⟩ :: up) =
      (blackRound s .red k X near).bind fun r => Round.casesOn r (fun Y => some (fill (⟨s, .black, kw, far⟩ :: up) (Y.paint .black)))
        fun Y => some ((fill (⟨s, .black, kw, far⟩ :: up) Y).paint .black) := by
    rw [RedBlack.deleteFixup, if_neg hX]
    cases s
    all_goals
      simp only [join, RedBlack.Tree.near, Side.flip]
      split <;> simp_all
  rw [hj] at h
  obtain ⟨r, hr, h⟩ := Option.bind_eq_some_iff.mp h
  refine ⟨r, hr, ?_⟩
  cases r with
  | up Y => cases h; exact Or.inl ⟨Y, rfl, rfl⟩
  | done Y => cases h; exact Or.inr ⟨Y, rfl, rfl⟩

omit [DecidableEq α] in
theorem deleteFixup_black {T : RedBlack.Tree α} (hX : X.color ≠ .red)
    (h : RedBlack.deleteFixup X (⟨s, c, k, join s .black near kw far⟩ :: up) = some T) :
    ∃ r, blackRound s c k X (join s .black near kw far) = some r ∧
      ((∃ Y, r = .up Y ∧ RedBlack.deleteFixup Y up = some T) ∨ ∃ Y, r = .done Y ∧ T = (fill up Y).paint .black) := by
  have hj : RedBlack.deleteFixup X (⟨s, c, k, join s .black near kw far⟩ :: up) =
      (blackRound s c k X (join s .black near kw far)).bind fun r => Round.casesOn r (fun Y => RedBlack.deleteFixup Y up)
        fun Y => some ((fill up Y).paint .black) := by
    rw [RedBlack.deleteFixup, if_neg hX]
    cases s
    all_goals
      simp only [join]
      split <;> simp_all
  rw [hj] at h
  obtain ⟨r, hr, h⟩ := Option.bind_eq_some_iff.mp h
  refine ⟨r, hr, ?_⟩
  cases r with
  | up Y => exact Or.inl ⟨Y, rfl, h⟩
  | done Y => cases h; exact Or.inr ⟨Y, rfl, rfl⟩

theorem At.deleteFixup (up : List (Parent α)) : ∀ {t : RbTree α} {X T : RedBlack.Tree α}, At t X up →
    t.parent (ptr t.nil X) = upPtr t.nil up → RedBlack.deleteFixup X up = some T →
    ∃ t', Ends (fun n => t.rbDeleteFixup n (ptr t.nil X)) t' ∧ Holds t' T ∧ Kept t t' := by
  induction up with
  | nil =>
    intro t X T h _ hT
    cases hT
    exact delete_done h (Or.inl h.root.symm)
  | cons q up ih =>
    intro t X T h hx hT
    obtain ⟨s, c, k, W⟩ := q
    by_cases hred : X.color = .red
    · rw [RedBlack.deleteFixup, if_pos hred] at hT
      cases hT
      exact delete_done h (Or.inr hred)
    have hW : W ≠ .nil := fun e => by
      subst e
      rw [RedBlack.deleteFixup, if_neg hred] at hT
      cases hT
    have hround := h.delete_round hred hW hx
    obtain ⟨cw, near, kw, far, rfl⟩ := exists_join s hW
    have hj := at_join.mp h
    dsimp only at hj hround
    have hx' : t.parent (ptr t.nil X) = k := hx
    have hc := (at_far.mp hj).color
    rw [ptr_join, color_join] at hc
    cases cw with
    | red =>
      obtain ⟨r, hr, hgo⟩ := deleteFixup_red hred hT
      obtain ⟨h1, k1⟩ := hj.turnSibling
      have hx1 := k1.parent (at_near.mp h1) hx
      -- the near nephew is the sibling now
      have hnear : near ≠ .nil := fun e => by subst e; cases hr
      obtain ⟨cn, a, j, b, rfl⟩ := exists_join s hnear
      have hd : t.deleteRound s (ptr t.nil X) =
          (((t.setColor kw .black).setColor k .red).rotate s k).siblingRound s (ptr t.nil X) j := by
        have hw1 : (((t.setColor kw .black).setColor k .red).rotate s k).child s.flip
            ((((t.setColor kw .black).setColor k .red).rotate s k).parent (ptr t.nil X)) = j := by
          rw [hx1]
          exact h1.far.trans (ptr_join ..)
        rw [← hw1]
        simp only [RbTree.deleteRound, setColor_parent, hx', hj.far, ptr_join, hc, if_true]
      rw [hd] at hround
      generalize ((t.setColor kw .black).setColor k .red).rotate s k = t1 at *
      rw [← k1.nil] at hx1
      obtain ⟨h2, k2⟩ := h1.siblingRound hx1 hr
      rw [k1.nil] at h2 k2
      generalize t1.siblingRound s (ptr t.nil X) j = r2 at *
      rcases hgo with ⟨Y, rfl, rfl⟩ | ⟨Y, rfl, rfl⟩
      · obtain ⟨hY, hne, hp⟩ := h2
        obtain ⟨t', ht, hH, hk⟩ := delete_done hY (Or.inr (blackRound_up hr))
        rw [← hp] at ht
        exact ⟨t', ht.round hround, hH, k1.trans (k2.trans hk)⟩
      · obtain ⟨t', ht, hH, hk⟩ := h2.done
        exact ⟨t', ht.round hround, hH, k1.trans (k2.trans hk)⟩
    | black =>
      obtain ⟨r, hr, hgo⟩ := deleteFixup_black hred hT
      have hd : t.deleteRound s (ptr t.nil X) = t.siblingRound s (ptr t.nil X) kw := by
        rw [RbTree.deleteRound, hx', hj.far, ptr_join, if_neg (by rw [hc]; decide)]
      rw [hd] at hround
      obtain ⟨h2, k2⟩ := hj.siblingRound hx hr
      generalize t.siblingRound s (ptr t.nil X) kw = r2 at *
      rcases hgo with ⟨Y, rfl, hT⟩ | ⟨Y, rfl, rfl⟩
      · obtain ⟨hY, hne, hp⟩ := h2
        obtain ⟨t', ht, hH, hk⟩ := ih hY (hY.parent_of hne) hT
        rw [← hp] at ht
        exact ⟨t', ht.round hround, hH, k2.trans hk⟩
      · obtain ⟨t', ht, hH, hk⟩ := h2.done
        exact ⟨t', ht.round hround, hH, k2.trans hk⟩

end Myos.Rbtree

/-
  Myos.Rbtree.Rotations — what colouring, relinking and turning nodes does to the tree in memory.

  Proved: `setColor` paints a node; `relink` puts another pointer at a place; `rotate` turns a
  node down as `RedBlack.rotate` does, parents included, and leaves `nil` as it is.
-/

import Mathlib
import Myos.Rbtree.Shape

namespace Myos.Rbtree

open Myos.Lib
open Myos.Lib.RedBlack hiding Tree

variable {α : Type*} {t t' : RbTree α} {T A B D : RedBlack.Tree α} {up : List (Parent α)} {s : Side} {c c' : Color}
  {x y p : α}

/-- The sentinel is the same node and holds what it held. -/
structure Kept (t t' : RbTree α) : Prop where
  nil : t'.nil = t.nil
  node : t'.node t.nil = t.node t.nil

theorem Kept.refl (t : RbTree α) : Kept t t := ⟨rfl, rfl⟩

theorem Kept.trans {t'' : RbTree α} (h : Kept t t') (h' : Kept t' t'') : Kept t t'' :=
  ⟨h'.nil.trans h.nil, by rw [← h.node, ← h.nil, h'.node]⟩

/-! ## Colours -/

theorem fill_join_nodup {a a' b b' : RedBlack.Tree α} (ha : a.toList = a'.toList) (hb : b.toList = b'.toList)
    (h : (fill up (join s c a x b)).toList.Nodup) : (fill up (join s c' a' x b')).toList.Nodup := by
  rw [← fill_congr (join_congr ha hb s c c' x) up]
  exact h

variable [DecidableEq α]

theorem At.setColor (h : At t (join s c A x B) up) (c' : Color) : At (t.setColor x c') (join s c' A x B) up := by
  have hne := h.key_ne
  obtain ⟨hA, hB, -⟩ := h.apart
  have other : ∀ y, y ≠ x → (t.setColor x c').node y = t.node y := fun y hy => Function.update_of_ne hy _ _
  obtain ⟨-, -, h3, h4⟩ := sub_join.1 h.sub
  refine ⟨sub_join.2 ⟨hne, ?_, ?_, ?_⟩, ?_, fill_join_nodup rfl rfl h.nodup, ?_⟩
  · show Function.update t.node x _ x = _
    rw [Function.update_self, h.node]
    exact mkNode_setColor ..
  · exact h3.congr rfl fun y hy => other y (ne_of_mem_of_not_mem hy hA)
  · exact h4.congr rfl fun y hy => other y (ne_of_mem_of_not_mem hy hB)
  · have ha := h.above
    rw [ptr_join] at ha ⊢
    exact ha.congr rfl rfl fun y hy => other y (ne_of_mem_of_not_mem hy (h.not_mem_keys (mem_join.2 (Or.inl rfl))))
  · show ((t.setColor x c').node t.nil).color = .black
    rw [other _ hne.symm]
    exact h.black

theorem Kept.setColor (hx : x ≠ t.nil) (c : Color) : Kept t (t.setColor x c) :=
  ⟨rfl, Function.update_of_ne hx.symm _ _⟩

theorem At.setColor_kept (h : At t (join s c A x B) up) (c' : Color) : Kept t (t.setColor x c') := .setColor h.key_ne c'

/-- The sentinel is black already. -/
theorem At.setColor_nil (h : At t T up) : At (t.setColor t.nil .black) T up := by
  have other : ∀ y, y ≠ t.nil → (t.setColor t.nil .black).node y = t.node y := fun y hy => Function.update_of_ne hy _ _
  refine ⟨h.sub.congr rfl fun y hy => other y (h.sub.ne_nil y hy),
    h.above.congr rfl rfl fun y hy => other y (h.above.ne_nil y hy), h.nodup, ?_⟩
  show ((t.setColor t.nil .black).node t.nil).color = .black
  rw [RbTree.setColor, setNode_node, Function.update_self]

theorem At.setColor_nil_kept (h : At t T up) : Kept t (t.setColor t.nil .black) := by
  refine ⟨rfl, ?_⟩
  rw [RbTree.setColor, setNode_node, Function.update_self]
  exact congrArg (fun c => { t.node t.nil with color := c }) h.black.symm

/-! ## Links -/

@[simp] theorem relink_nil (t : RbTree α) (x y : α) : (t.relink x y).nil = t.nil := by
  unfold RbTree.relink
  split
  · rfl
  split <;> rfl

@[simp] theorem setParent_nil (t : RbTree α) (x y : α) : (t.setParent x y).nil = t.nil := rfl
@[simp] theorem setChild_nil (t : RbTree α) (s : Side) (x y : α) : (t.setChild s x y).nil = t.nil := rfl

theorem setChild_other {z : α} (hz : z ≠ x) : (t.setChild s x y).node z = t.node z := Function.update_of_ne hz _ _

theorem setParent_other {z : α} (hz : z ≠ x) : (t.setParent x y).node z = t.node z := Function.update_of_ne hz _ _

@[simp] theorem setChild_parent (z : α) : (t.setChild s x y).parent z = t.parent z := by
  by_cases h : z = x
  · subst h
    rw [RbTree.parent, RbTree.setChild, setNode_node, Function.update_self]
    cases s <;> rfl
  · rw [RbTree.parent, setChild_other h, RbTree.parent]

/-- The pointer at a place is exchanged in its parent, or in the header. -/
theorem relink_eq {q : Parent α} (h : Above t x (q :: up)) (hp : t.parent x = q.key) (hx : x ≠ t.nil)
    (hk : x ∉ keys (q :: up)) : t.relink x y = t.setChild q.side q.key y := by
  obtain ⟨hq, hnode, -, -⟩ := h
  rw [RbTree.relink, hp, if_neg hq]
  cases hs : q.side with
  | left =>
    rw [hs] at hnode
    rw [if_pos (by rw [RbTree.child, hnode, mkNode_child])]
  | right =>
    rw [hs] at hnode
    refine if_neg fun he => ?_
    have hfar : t.child .left q.key = ptr t.nil q.sibling := by
      rw [RbTree.child, hnode]
      exact mkNode_far _ .right ..
    rw [hfar] at he
    by_cases hsib : q.sibling = .nil
    · rw [hsib] at he
      exact hx he
    · exact hk (mem_keys_cons.2 (Or.inr (Or.inl (he ▸ ptr_mem hsib))))

theorem Above.setChild {q : Parent α} (h : Above t x (q :: up)) (hnd : (keys (q :: up)).Nodup) :
    Above (t.setChild q.side q.key y) y (q :: up) ∧ ∀ z, z ∉ keys (q :: up) → (t.setChild q.side q.key y).node z = t.node z := by
  obtain ⟨hq, hnode, hsub, habove⟩ := h
  obtain ⟨h1, h2⟩ := List.nodup_cons.mp ((keys_cons q up).nodup_iff.mp hnd)
  refine ⟨⟨hq, ?_, hsub.congr rfl fun z hz => ?_, habove.congr rfl rfl fun z hz => ?_⟩, fun z hz => ?_⟩
  · rw [RbTree.setChild, setNode_node, Function.update_self, hnode]
    exact mkNode_withChild ..
  · exact setChild_other (ne_of_mem_of_not_mem (List.mem_append_left _ hz) h1)
  · exact setChild_other (ne_of_mem_of_not_mem (List.mem_append_right _ hz) h1)
  · exact setChild_other fun e => hz (mem_keys_cons.2 (Or.inl e))

theorem Above.relink (h : Above t x up) (hp : t.parent x = upPtr t.nil up) (hx : x ≠ t.nil) (hk : x ∉ keys up)
    (hnd : (keys up).Nodup) : Above (t.relink x y) y up ∧ ∀ z, z ∉ keys up → (t.relink x y).node z = t.node z := by
  cases up with
  | nil =>
    have he : t.relink x y = { t with root := y } := if_pos hp
    rw [he]
    exact ⟨rfl, fun z _ => rfl⟩
  | cons q up =>
    rw [relink_eq h hp hx hk]
    exact h.setChild hnd

@[simp] theorem adopt_nil (t : RbTree α) (x y : α) : (t.adopt x y).nil = t.nil := by
  unfold RbTree.adopt
  split <;> rfl

@[simp] theorem adopt_root (t : RbTree α) (x y : α) : (t.adopt x y).root = t.root := by
  unfold RbTree.adopt
  split <;> rfl

/-- A tree gets another parent. -/
theorem Sub.adopt (h : Sub t p T) (hnd : T.toList.Nodup) (y : α) : Sub (t.adopt (ptr t.nil T) y) y T := by
  cases T with
  | nil => trivial
  | node c l k r =>
    obtain ⟨h1, h2, h3, h4⟩ := h
    obtain ⟨hk, -⟩ := List.nodup_cons.mp (List.perm_middle.nodup_iff.mp hnd)
    have he : t.adopt (ptr t.nil (.node c l k r)) y = t.setParent k y := if_pos h1
    rw [he]
    refine ⟨h1, ?_, h3.congr rfl fun z hz => ?_, h4.congr rfl fun z hz => ?_⟩
    · show Function.update t.node k _ k = _
      rw [Function.update_self, h2]
      rfl
    · exact setParent_other (ne_of_mem_of_not_mem (List.mem_append_left _ hz) hk)
    · exact setParent_other (ne_of_mem_of_not_mem (List.mem_append_right _ hz) hk)

theorem adopt_other {z : α} (hz : z ∉ T.toList) : (t.adopt (ptr t.nil T) y).node z = t.node z := by
  unfold RbTree.adopt
  by_cases hT : T = .nil
  · rw [if_neg (not_not.mpr (by rw [hT]; rfl))]
  · split
    · exact setParent_other fun e => hz (e ▸ ptr_mem hT)
    · rfl

/-! ## Turning -/

/-- Before the place is relinked: `x` and `y` have exchanged the tree between them. -/
def exchange (t : RbTree α) (s : Side) (x y b p : α) : RbTree α := ((t.setChild s.flip x b).adopt b x).setParent y p

theorem exchange_spec (h : At t (join s c A x (join s c' B y D)) up) :
    let t' := exchange t s x y (ptr t.nil B) (upPtr t.nil up)
    t'.nil = t.nil ∧ t'.root = t.root ∧ t'.node x = mkNode (upPtr t.nil up) s (ptr t.nil A) (ptr t.nil B) c ∧
      t'.node y = mkNode (upPtr t.nil up) s (ptr t.nil B) (ptr t.nil D) c' ∧ Sub t' x B ∧
      ∀ z, z ≠ x → z ≠ y → z ∉ B.toList → t'.node z = t.node z := by
  have hY := at_far.1 h
  obtain ⟨-, hxY, -⟩ := h.apart
  obtain ⟨hyB, -, -⟩ := hY.apart
  have hxy : x ≠ y := fun e => hxY (mem_join.mpr (Or.inl e))
  have hxB : x ∉ B.toList := fun hm => hxY (mem_join.mpr (Or.inr (Or.inl hm)))
  -- `x` has its new child
  have n1 : (t.setChild s.flip x (ptr t.nil B)).node x = mkNode (upPtr t.nil up) s (ptr t.nil A) (ptr t.nil B) c := by
    rw [RbTree.setChild, setNode_node, Function.update_self, h.node]
    exact mkNode_withFar ..
  have B1 : Sub (t.setChild s.flip x (ptr t.nil B)) y B :=
    (sub_join.1 hY.sub).2.2.1.congr rfl fun z hz => setChild_other (ne_of_mem_of_not_mem hz hxB)
  -- which has its new parent
  have hndB : B.toList.Nodup :=
    (List.nodup_append.mp (List.nodup_cons.mp (join_nodup.mp (List.nodup_append.mp hY.nodup').1)).2).1
  have B2 := B1.adopt hndB x
  have n2 : ∀ z, z ∉ B.toList → ((t.setChild s.flip x (ptr t.nil B)).adopt (ptr t.nil B) x).node z =
      (t.setChild s.flip x (ptr t.nil B)).node z := fun z hz => adopt_other (t := t.setChild s.flip x (ptr t.nil B)) hz
  refine ⟨adopt_nil .., adopt_root .., ?_, ?_, ?_, fun z hzx hzy hzB => ?_⟩
  · exact (setParent_other hxy).trans ((n2 x hxB).trans n1)
  · show Function.update _ y _ y = _
    rw [Function.update_self, n2 y hyB, setChild_other hxy.symm, hY.node]
    exact mkNode_setParent ..
  · exact B2.congr rfl fun z hz => setParent_other (ne_of_mem_of_not_mem hz hyB)
  · exact (setParent_other hzy).trans ((n2 z hzB).trans (setChild_other hzx))

/-- The node goes down to its near side, its far child comes up. -/
theorem At.rotate_kept (h : At t (join s c A x (join s c' B y D)) up) :
    At (t.rotate s x) (join s c' (join s c A x B) y D) up ∧ Kept t (t.rotate s x) := by
  have hY := at_far.1 h
  obtain ⟨hxA, hxY, hAY⟩ := h.apart
  obtain ⟨hyB, hyD, hBD⟩ := hY.apart
  have inY : ∀ {z}, z = y ∨ z ∈ B.toList ∨ z ∈ D.toList → z ∈ (join s c' B y D).toList := mem_join.mpr
  have hxy : x ≠ y := fun e => hxY (inY (Or.inl e))
  have hup : ∀ {z}, z = x ∨ z ∈ A.toList ∨ z ∈ (join s c' B y D).toList → z ∉ keys up := fun hz =>
    h.not_mem_keys (mem_join.mpr hz)
  have hxB : x ∉ B.toList := fun hm => hxY (inY (Or.inr (Or.inl hm)))
  obtain ⟨hn3, hr3, n3x, n3y, B3, o3⟩ := exchange_spec h
  have hrot : t.rotate s x =
      (((exchange t s x y (ptr t.nil B) (upPtr t.nil up)).relink x y).setChild s y x).setParent x y := by
    have e1 : t.child s.flip x = y := by rw [h.far, ptr_join]
    have e2 : (t.setChild s.flip x (ptr t.nil B)).child s y = ptr t.nil B := by
      rw [RbTree.child, setChild_other hxy.symm]
      exact hY.near
    have e3 : ((t.setChild s.flip x (ptr t.nil B)).adopt (ptr t.nil B) x).parent x = upPtr t.nil up := by
      have := adopt_other (t := t.setChild s.flip x (ptr t.nil B)) (y := x) hxB
      exact (congrArg RbNode.parent this).trans ((setChild_parent x).trans h.parent)
    rw [RbTree.rotate, e1, hY.near, e2, e3]
    rfl
  rw [hrot]
  generalize exchange t s x y (ptr t.nil B) (upPtr t.nil up) = t3 at *
  -- the place gets the pointer `y`
  have habove : Above t3 x up := by
    have ha := h.above
    rw [ptr_join] at ha
    refine ha.congr hn3 hr3 fun z hz => o3 z ?_ ?_ ?_
    · exact fun e => hup (Or.inl e) hz
    · exact fun e => hup (Or.inr (Or.inr (inY (Or.inl e)))) hz
    · exact fun hm => hup (Or.inr (Or.inr (inY (Or.inr (Or.inl hm))))) hz
  have hp : t3.parent x = upPtr t3.nil up := by rw [RbTree.parent, n3x, mkNode_parent, hn3]
  obtain ⟨hab, o4⟩ := habove.relink (y := y) hp (by rw [hn3]; exact h.key_ne) (hup (Or.inl rfl))
    (List.nodup_append.mp h.nodup').2.1
  have hn4 : (t3.relink x y).nil = t.nil := (relink_nil ..).trans hn3
  generalize t3.relink x y = t4 at *
  -- then the two get their links to each other
  have nx : ((t4.setChild s y x).setParent x y).node x = mkNode y s (ptr t.nil A) (ptr t.nil B) c := by
    show Function.update _ x _ x = _
    rw [Function.update_self, setChild_other hxy, o4 x (hup (Or.inl rfl)), n3x]
    exact mkNode_setParent ..
  have ny : ((t4.setChild s y x).setParent x y).node y = mkNode (upPtr t.nil up) s x (ptr t.nil D) c' := by
    rw [setParent_other hxy.symm]
    show Function.update _ y _ y = _
    rw [Function.update_self, o4 y (hup (Or.inr (Or.inr (inY (Or.inl rfl))))), n3y]
    exact mkNode_withChild ..
  have nz : ∀ z, z ≠ x → z ≠ y → ((t4.setChild s y x).setParent x y).node z = t4.node z := fun z hx hy =>
    (setParent_other hx).trans (setChild_other hy)
  have hn6 : ((t4.setChild s y x).setParent x y).nil = t.nil := hn4
  have hr6 : ((t4.setChild s y x).setParent x y).root = t4.root := rfl
  generalize (t4.setChild s y x).setParent x y = t6 at *
  obtain ⟨-, -, hA, -⟩ := sub_join.1 h.sub
  obtain ⟨hyn, -, -, hD⟩ := sub_join.1 hY.sub
  have hyA : y ∉ A.toList := fun hm => hAY y hm (inY (Or.inl rfl))
  have hxD : x ∉ D.toList := fun hm => hxY (inY (Or.inr (Or.inr hm)))
  have hsen : t6.node t.nil = t.node t.nil := by
    have hnx : t.nil ≠ x := h.key_ne.symm
    have hny : t.nil ≠ y := hyn.symm
    rw [nz _ hnx hny, o4 _ fun hm => h.above.ne_nil _ hm rfl]
    exact o3 _ hnx hny fun hm => (sub_join.1 hY.sub).2.2.1.ne_nil _ hm rfl
  refine ⟨?_, hn6, hsen⟩
  refine ⟨sub_join.2 ⟨by rw [hn6]; exact hyn, by rw [hn6, ny, ptr_join], sub_join.2 ⟨by rw [hn6]; exact h.key_ne,
    by rw [hn6, nx], ?_, ?_⟩, ?_⟩, ?_, ?_, ?_⟩
  · refine hA.congr hn6 fun z hz => ?_
    rw [nz z (ne_of_mem_of_not_mem hz hxA) (ne_of_mem_of_not_mem hz hyA), o4 z (hup (Or.inr (Or.inl hz)))]
    exact o3 z (ne_of_mem_of_not_mem hz hxA) (ne_of_mem_of_not_mem hz hyA) fun hm => hAY z hz (inY (Or.inr (Or.inl hm)))
  · refine B3.congr (hn6.trans hn3.symm) fun z hz => ?_
    rw [nz z (ne_of_mem_of_not_mem hz hxB) (ne_of_mem_of_not_mem hz hyB)]
    exact o4 z (hup (Or.inr (Or.inr (inY (Or.inr (Or.inl hz))))))
  · refine hD.congr hn6 fun z hz => ?_
    rw [nz z (ne_of_mem_of_not_mem hz hxD) (ne_of_mem_of_not_mem hz hyD),
      o4 z (hup (Or.inr (Or.inr (inY (Or.inr (Or.inr hz))))))]
    exact o3 z (ne_of_mem_of_not_mem hz hxD) (ne_of_mem_of_not_mem hz hyD) fun hm => hBD z hm hz
  · rw [ptr_join]
    refine hab.congr (hn6.trans hn4.symm) hr6 fun z hz => nz z ?_ ?_
    · exact fun e => hup (Or.inl e) hz
    · exact fun e => hup (Or.inr (Or.inr (inY (Or.inl e)))) hz
  · have hl := rotate_toList (rotate_join s c c' A B D x y)
    rw [fill_congr hl up]
    exact h.nodup
  · rw [RbTree.color, hn6, hsen]
    exact h.black

theorem At.rotate (h : At t (join s c A x (join s c' B y D)) up) : At (t.rotate s x) (join s c' (join s c A x B) y D) up :=
  h.rotate_kept.1

/-- The same from the other side. -/
theorem At.rotate_flip (h : At t (join s c (join s c' A x B) y D) up) :
    At (t.rotate s.flip y) (join s c' A x (join s c B y D)) up ∧ Kept t (t.rotate s.flip y) := by
  rw [← join_flip s c, ← join_flip s c'] at h
  obtain ⟨h', hk⟩ := h.rotate_kept
  rw [join_flip, join_flip] at h'
  exact ⟨h', hk⟩

end Myos.Rbtree

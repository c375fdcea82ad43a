/-
  Myos.Rbtree.Links — hanging a node in at a leaf, and splicing one out: `z` itself if it lacks a
  child, else its successor, which takes its place.

  Proved: memory then holds what stands at the place, and the node put where the other was knows
  its parent, the sentinel too: `nil->parent` is what the repair reads.
-/

import Mathlib
import Myos.Rbtree.Rotations

namespace Myos.Rbtree

open Myos.Lib
open Myos.Lib.RedBlack hiding Tree

variable {α : Type*} [DecidableEq α] {t t' : RbTree α} {X L R : RedBlack.Tree α} {up : List (Parent α)} {s : Side} {c : Color}
  {z y k p : α}

/-! ## In -/

/-- The pointer to `z` from its parent. -/
def hang (compare : α → α → Int) (t : RbTree α) (z y : α) : RbTree α :=
  if y = t.nil then { t with root := z } else if compare z y < 0 then t.setChild .left y z else t.setChild .right y z

/-- `rb_tree_insert` between the way down and the repair. -/
def hangIn (compare : α → α → Int) (t : RbTree α) (z y : α) : RbTree α :=
  let t := hang compare (t.setParent z y) z y
  let t := t.setChild .left z t.nil
  let t := t.setChild .right z t.nil
  t.setColor z .red

theorem Above.hang {compare : α → α → Int} (h : Above t p up) (hnd : (keys up).Nodup)
    (hs : ∀ q ∈ up.head?, q.side = if compare z q.key < 0 then .left else .right) :
    Above (hang compare t z (upPtr t.nil up)) z up ∧ (hang compare t z (upPtr t.nil up)).nil = t.nil ∧
      ∀ w, w ∉ keys up → (hang compare t z (upPtr t.nil up)).node w = t.node w := by
  cases up with
  | nil =>
    have he : hang compare t z (upPtr t.nil []) = { t with root := z } := if_pos rfl
    rw [he]
    exact ⟨rfl, rfl, fun w _ => rfl⟩
  | cons q up =>
    have he : hang compare t z (upPtr t.nil (q :: up)) = t.setChild q.side q.key z := by
      rw [hs q rfl]
      refine (if_neg h.1).trans ?_
      show (if compare z q.key < 0 then _ else _) = _
      by_cases hlt : compare z q.key < 0
      · simp only [hlt, if_true]
        rfl
      · simp only [hlt, if_false]
        rfl
    rw [he]
    obtain ⟨ha, ho⟩ := h.setChild (y := z) hnd
    exact ⟨ha, rfl, ho⟩

theorem At.hangIn {compare : α → α → Int} (h : At t .nil up) (hz : z ≠ t.nil) (hk : z ∉ keys up)
    (hs : ∀ q ∈ up.head?, q.side = if compare z q.key < 0 then .left else .right) :
    At (hangIn compare t z (upPtr t.nil up)) (.node .red .nil z .nil) up ∧ Kept t (hangIn compare t z (upPtr t.nil up)) := by
  have hnd : (keys up).Nodup := h.nodup'
  have hnil : t.nil ∉ keys up := fun hm => h.above.ne_nil _ hm rfl
  have o1 : ∀ w, w ≠ z → (t.setParent z (upPtr t.nil up)).node w = t.node w := fun w hw => setParent_other hw
  have n1 : (t.setParent z (upPtr t.nil up)).parent z = upPtr t.nil up := by
    rw [RbTree.parent, RbTree.setParent, setNode_node, Function.update_self]
  have a1 : Above (t.setParent z (upPtr t.nil up)) t.nil up :=
    h.above.congr rfl rfl fun w hw => o1 w fun e => hk (e ▸ hw)
  obtain ⟨a2, e2, o2⟩ := a1.hang (z := z) hnd hs
  unfold Rbtree.hangIn
  rw [setParent_nil] at a2 e2 o2
  generalize Rbtree.hang compare (t.setParent z (upPtr t.nil up)) z (upPtr t.nil up) = t2 at *
  -- the rest is in `z`
  have hzn : (((t2.setChild .left z t2.nil).setChild .right z t2.nil).setColor z .red).node z =
      ⟨upPtr t.nil up, t.nil, t.nil, .red⟩ := by
    simp only [RbTree.setColor, RbTree.setChild, setNode_node, Function.update_self, o2 z hk, e2]
    exact congrArg (fun p => (⟨p, t.nil, t.nil, .red⟩ : RbNode α)) n1
  have o3 : ∀ w, w ≠ z → (((t2.setChild .left z t2.nil).setChild .right z t2.nil).setColor z .red).node w = t2.node w := by
    intro w hw
    simp only [RbTree.setColor, RbTree.setChild, setNode_node, Function.update_of_ne hw]
  have e3 : (((t2.setChild .left z t2.nil).setChild .right z t2.nil).setColor z .red).nil = t.nil := e2
  have r3 : (((t2.setChild .left z t2.nil).setChild .right z t2.nil).setColor z .red).root = t2.root := rfl
  dsimp only
  rw [setChild_nil]
  generalize ((t2.setChild .left z t2.nil).setChild .right z t2.nil).setColor z .red = t3 at *
  have hsen : t3.node t.nil = t.node t.nil := by rw [o3 _ hz.symm, o2 _ hnil, o1 _ hz.symm]
  refine ⟨⟨⟨by rw [e3]; exact hz, by rw [e3, hzn]; rfl, trivial, trivial⟩, ?_, ?_, ?_⟩, e3, hsen⟩
  · exact a2.congr (e3.trans e2.symm) r3 fun w hw => o3 w fun e => hk (e ▸ hw)
  · exact fill_nodup.mpr (List.nodup_cons.mpr ⟨hk, hnd⟩)
  · rw [RbTree.color, e3, hsen]
    exact h.black

/-! ## Out -/

/-- The sentinel after the tree `X` was given the parent `p`: it has it if `X` is empty. -/
structure Told (t t' : RbTree α) (X : RedBlack.Tree α) (p : α) : Prop where
  nil : t'.nil = t.nil
  leaf : X = .nil → t'.node t.nil = { t.node t.nil with parent := p }
  other : X ≠ .nil → t'.node t.nil = t.node t.nil

omit [DecidableEq α] in
theorem Told.kept {t'' : RbTree α} (h : Told t t' X p) (hk : Kept t' t'') : Told t t'' X p := by
  have hn : t''.node t.nil = t'.node t.nil := by rw [← h.nil]; exact hk.node
  exact ⟨hk.nil.trans h.nil, fun e => hn.trans (h.leaf e), fun e => hn.trans (h.other e)⟩

omit [DecidableEq α] in
/-- A tree whose root has got another parent. -/
theorem Sub.moved {p' : α} (h : Sub t p X) (hnd : X.toList.Nodup) (hn : t'.nil = t.nil)
    (hx : X ≠ .nil → t'.node (ptr t.nil X) = { t.node (ptr t.nil X) with parent := p' })
    (ho : ∀ w ∈ X.toList, w ≠ ptr t.nil X → t'.node w = t.node w) : Sub t' p' X := by
  cases X with
  | nil => trivial
  | node c l k r =>
    obtain ⟨h1, h2, h3, h4⟩ := h
    obtain ⟨hk, -⟩ := List.nodup_cons.mp (List.perm_middle.nodup_iff.mp hnd)
    have hx' : t'.node k = { t.node k with parent := p' } := hx (fun e => by cases e)
    refine ⟨by rw [hn]; exact h1, by rw [hx', h2, hn], h3.congr hn fun w hw => ?_, h4.congr hn fun w hw => ?_⟩
    · exact ho w (by simp [hw]) (ne_of_mem_of_not_mem (List.mem_append_left _ hw) hk)
    · exact ho w (by simp [hw]) (ne_of_mem_of_not_mem (List.mem_append_right _ hw) hk)

/-- `v` stands where `u` stood. -/
theorem Above.transplant {u v : α} (h : Above t u up) (hp : t.parent u = upPtr t.nil up) (hu : u ≠ t.nil) (hk : u ∉ keys up)
    (hnd : (keys up).Nodup) (hv : v ∉ keys up) : Above (t.rbTransplant u v) v up ∧ (t.rbTransplant u v).nil = t.nil ∧
      (t.rbTransplant u v).node v = { t.node v with parent := upPtr t.nil up } ∧
      ∀ w, w ∉ keys up → w ≠ v → (t.rbTransplant u v).node w = t.node w := by
  obtain ⟨ha, ho⟩ := h.relink (y := v) hp hu hk hnd
  have hpu : (t.relink u v).parent u = upPtr t.nil up := (congrArg RbNode.parent (ho u hk)).trans hp
  have he : t.rbTransplant u v = (t.relink u v).setParent v (upPtr t.nil up) := by rw [RbTree.rbTransplant, hpu]
  rw [he]
  refine ⟨ha.congr rfl rfl fun w hw => setParent_other fun e => hv (e ▸ hw), relink_nil .., ?_, fun w hw hwv => ?_⟩
  · rw [RbTree.setParent, setNode_node, Function.update_self, ho v hv]
  · rw [setParent_other hwv, ho w hw]

omit [DecidableEq α] in
theorem ptr_not_mem {T : RedBlack.Tree α} (h : At t T up) : ptr t.nil T ∉ keys up := by
  by_cases hT : T = .nil
  · subst hT
    exact fun hm => h.above.ne_nil _ hm rfl
  · exact h.not_mem_keys (ptr_mem hT)

/-- A node that lacks a child is spliced out. -/
theorem At.unlink {u : α} (h : At t (join s c .nil u X) up) : At (t.rbTransplant u (ptr t.nil X)) X up ∧
    (t.rbTransplant u (ptr t.nil X)).parent (ptr t.nil X) = upPtr t.nil up ∧
    Told t (t.rbTransplant u (ptr t.nil X)) X (upPtr t.nil up) ∧ (t.rbTransplant u (ptr t.nil X)).node u = t.node u := by
  have hX := at_far.mp h
  obtain ⟨-, hux, -⟩ := h.apart
  have huk : u ∉ keys up := h.not_mem_keys (mem_join.mpr (Or.inl rfl))
  have hxk : ptr t.nil X ∉ keys up := fun hm => ptr_not_mem hX (mem_keys_cons.mpr (Or.inr (Or.inr hm)))
  have hxu : u ≠ ptr t.nil X := fun e => ptr_not_mem hX (mem_keys_cons.mpr (Or.inl e.symm))
  have ha : Above t u up := by
    have := h.above
    rwa [ptr_join] at this
  obtain ⟨a1, e1, n1, o1⟩ := ha.transplant h.parent h.key_ne huk (List.nodup_append.mp h.nodup').2.1 hxk
  have p1 : (t.rbTransplant u (ptr t.nil X)).parent (ptr t.nil X) = upPtr t.nil up := congrArg RbNode.parent n1
  have u1 := o1 u huk hxu
  generalize t.rbTransplant u (ptr t.nil X) = t1 at *
  have hnil : X ≠ .nil → t1.node t.nil = t.node t.nil := fun hne =>
    o1 _ (fun hm => h.above.ne_nil _ hm rfl) fun e => hne (hX.ptr_eq_nil.mp e.symm)
  have hleaf : X = .nil → t1.node t.nil = { t.node t.nil with parent := upPtr t.nil up } := fun e => by
    subst e
    exact n1
  refine ⟨⟨?_, ?_, ?_, ?_⟩, p1, ⟨e1, hleaf, hnil⟩, u1⟩
  · have hnd : X.toList.Nodup := (List.nodup_append.mp hX.nodup').1
    rw [e1]
    refine hX.sub.moved hnd e1 (fun _ => n1) fun w hw hne => o1 w (fun hm => ?_) hne
    exact hX.not_mem_keys hw (mem_keys_cons.mpr (Or.inr (Or.inr hm)))
  · rw [e1]
    exact a1
  · have hn := ((keys_cons _ up).append_left X.toList).nodup_iff.mp hX.nodup'
    exact fill_nodup.mpr (hn.sublist ((List.Sublist.refl _).append (List.sublist_cons_self ..)))
  · rw [RbTree.color, e1]
    by_cases hne : X = .nil
    · rw [hleaf hne]
      exact h.black
    · rw [hnil hne]
      exact h.black

/-- What is left of the tree hangs below the successor `y`, which stands nowhere yet. -/
structure Ready (t : RbTree α) (c : Color) (L R : RedBlack.Tree α) (z y : α) (up : List (Parent α)) : Prop where
  above : Above t z up
  parent : t.parent z = upPtr t.nil up
  left : t.child .left z = ptr t.nil L
  color : t.color z = c
  sub : Sub t z L
  right : t.child .right y = ptr t.nil R
  rest : Sub t y R
  nodup : (z :: y :: (L.toList ++ (R.toList ++ keys up))).Nodup
  ne : z ≠ t.nil ∧ y ≠ t.nil ∧ L ≠ .nil
  black : t.color t.nil = .black

/-- The end of `moveUp`. -/
def takePlace (t : RbTree α) (z y : α) : RbTree α :=
  let t := t.rbTransplant z y
  let t := t.setChild .left y (t.child .left z)
  let t := t.setParent (t.child .left y) y
  t.setColor y (t.color z)

/-- What the steps of `takePlace` write. -/
theorem Ready.takePlace_spec (h : Ready t c L R z y up) :
    (takePlace t z y).nil = t.nil ∧ Above (takePlace t z y) y up ∧
      (takePlace t z y).node y = mkNode (upPtr t.nil up) .left (ptr t.nil L) (ptr t.nil R) c ∧
      (takePlace t z y).node (ptr t.nil L) = { t.node (ptr t.nil L) with parent := y } ∧
      ∀ w, w ∉ keys up → w ≠ y → w ≠ ptr t.nil L → (takePlace t z y).node w = t.node w := by
  obtain ⟨hz, hy⟩ := List.nodup_cons.mp h.nodup
  obtain ⟨hy, hrest⟩ := List.nodup_cons.mp hy
  obtain ⟨-, hRk, hLR⟩ := List.nodup_append.mp hrest
  simp only [List.mem_cons, List.mem_append, not_or] at hz hy
  obtain ⟨hzn, -, hLn⟩ := h.ne
  have hl : ptr t.nil L ∈ L.toList := ptr_mem hLn
  have hly : ptr t.nil L ≠ y := ne_of_mem_of_not_mem hl hy.1
  have hlz : ptr t.nil L ≠ z := ne_of_mem_of_not_mem hl hz.2.1
  have hlk : ptr t.nil L ∉ keys up := fun hm => hLR _ hl _ (List.mem_append_right _ hm) rfl
  obtain ⟨a1, e1, n1, o1⟩ := h.above.transplant h.parent hzn hz.2.2.2 (List.nodup_append.mp hRk).2.1 hy.2.2
  have z1 : (t.rbTransplant z y).node z = t.node z := o1 z hz.2.2.2 hz.1
  have l1 : (t.rbTransplant z y).child .left z = ptr t.nil L := (congrArg (RbNode.child · .left) z1).trans h.left
  have l2 : ((t.rbTransplant z y).setChild .left y (ptr t.nil L)).child .left y = ptr t.nil L := by
    rw [RbTree.child, RbTree.setChild, setNode_node, Function.update_self]
    rfl
  have c3 : (((t.rbTransplant z y).setChild .left y (ptr t.nil L)).setParent (ptr t.nil L) y).color z = c := by
    rw [RbTree.color, setParent_other hlz.symm, setChild_other hz.1, z1]
    exact h.color
  unfold Rbtree.takePlace
  dsimp only
  rw [l1, l2, c3]
  generalize t.rbTransplant z y = t1 at *
  refine ⟨e1, a1.congr rfl rfl fun w hw => ?_, ?_, ?_, fun w hk hw hw' => ?_⟩
  · have hwy := ne_of_mem_of_not_mem hw hy.2.2
    rw [RbTree.setColor, setNode_node, Function.update_of_ne hwy, setParent_other (ne_of_mem_of_not_mem hw hlk),
      setChild_other hwy]
  · rw [RbTree.setColor, setNode_node, Function.update_self, setParent_other hly.symm, RbTree.setChild, setNode_node,
      Function.update_self, n1]
    exact congrArg (fun r => mkNode (upPtr t.nil up) .left (ptr t.nil L) r c) h.right
  · rw [RbTree.setColor, setNode_node, Function.update_of_ne hly, RbTree.setParent, setNode_node, Function.update_self,
      setChild_other hly, o1 _ hlk hly]
  · rw [RbTree.setColor, setNode_node, Function.update_of_ne hw, setParent_other hw', setChild_other hw, o1 w hk hw]

theorem Ready.takePlace (h : Ready t c L R z y up) :
    At (takePlace t z y) (join .left c L y R) up ∧ Kept t (takePlace t z y) := by
  obtain ⟨en, ha, ny, nl, no⟩ := h.takePlace_spec
  generalize Rbtree.takePlace t z y = t' at *
  have hn := List.nodup_cons.mp (List.nodup_cons.mp h.nodup).2
  obtain ⟨hy, hrest⟩ := hn
  obtain ⟨hL, hRk, hLR⟩ := List.nodup_append.mp hrest
  obtain ⟨-, -, hRup⟩ := List.nodup_append.mp hRk
  simp only [List.mem_append, not_or] at hy
  obtain ⟨-, hyn, hLn⟩ := h.ne
  have hl : ptr t.nil L ∈ L.toList := ptr_mem hLn
  have hsen : t'.node t.nil = t.node t.nil :=
    no _ (fun hm => h.above.ne_nil _ hm rfl) hyn.symm (h.sub.ne_nil _ hl).symm
  refine ⟨⟨sub_join.mpr ⟨by rw [en]; exact hyn, by rw [en, ny], ?_, ?_⟩, ?_, ?_, ?_⟩, en, hsen⟩
  · refine h.sub.moved hL en (fun _ => nl) fun w hw => no w ?_ (ne_of_mem_of_not_mem hw hy.1)
    exact fun hm => hLR w hw w (List.mem_append_right _ hm) rfl
  · refine h.rest.congr en fun w hw => no w (fun hm => hRup w hw w hm rfl) (ne_of_mem_of_not_mem hw hy.2.1) fun e => ?_
    exact hLR _ hl w (List.mem_append_left _ hw) e.symm
  · rw [ptr_join]
    exact ha
  · have hp : ((join .left c L y R).toList ++ keys up).Perm (y :: (L.toList ++ (R.toList ++ keys up))) := by
      rw [← List.append_assoc, ← List.cons_append]
      exact List.Perm.append_right _ List.perm_middle
    exact fill_nodup.mpr (hp.nodup_iff.mpr (List.nodup_cons.mp h.nodup).2)
  · rw [RbTree.color, en, hsen]
    exact h.black

omit [DecidableEq α] in
theorem At.ready {R' : RedBlack.Tree α} (h : At t (join .right c R' z L) up) (hL : L ≠ .nil) (hn : t'.nil = t.nil)
    (hr : t'.root = t.root) (ho : ∀ w, w = z ∨ w ∈ L.toList ∨ w ∈ keys up → t'.node w = t.node w)
    (hb : t'.color t.nil = .black) (hy : t'.child .right y = ptr t.nil R) (hR : Sub t' y R) (hyn : y ≠ t.nil)
    (hnd : (z :: y :: (L.toList ++ (R.toList ++ keys up))).Nodup) : Ready t' c L R z y up := by
  have hz := ho z (Or.inl rfl)
  have ha := h.above
  rw [ptr_join] at ha
  refine ⟨ha.congr hn hr fun w hw => ho w (Or.inr (Or.inr hw)), ?_, ?_, ?_, ?_, by rw [hn]; exact hy, hR, hnd,
    ⟨by rw [hn]; exact h.key_ne, by rw [hn]; exact hyn, hL⟩, by rw [hn]; exact hb⟩
  · rw [hn]
    exact (congrArg RbNode.parent hz).trans h.parent
  · rw [hn]
    exact (congrArg (RbNode.child · .left) hz).trans h.far
  · have hc := h.color
    rw [ptr_join, color_join] at hc
    exact (congrArg RbNode.color hz).trans hc
  · exact (sub_join.mp h.sub).2.2.2.congr hn fun w hw => ho w (Or.inr (Or.inl hw))

omit [DecidableEq α] in
theorem Told.parent (ht : Told t t' X (upPtr t.nil up)) (h : At t' X up) : t'.parent (ptr t.nil X) = upPtr t.nil up := by
  by_cases hX : X = .nil
  · subst hX
    exact congrArg RbNode.parent (ht.leaf rfl)
  · rw [← ht.nil]
    exact h.parent_of hX

/-- `y` is the right child of `z`. -/
theorem At.moveUp_child {cy : Color} (h : At t (join .right c (join .left cy .nil y X) z L) up) (hL : L ≠ .nil) :
    At (t.moveUp z y (ptr t.nil X)) X (⟨.right, c, y, L⟩ :: up) ∧ Told t (t.moveUp z y (ptr t.nil X)) X y := by
  have hy := at_near.mp h
  have hX := at_far.mp hy
  have hmove : t.moveUp z y (ptr t.nil X) = Rbtree.takePlace (t.setParent (ptr t.nil X) y) z y := by
    have hp : t.parent y = z := hy.parent
    rw [RbTree.moveUp, if_pos hp]
    rfl
  have hx := ptr_not_mem hX
  have hxy : y ≠ ptr t.nil X := fun e => hx (mem_keys_cons.mpr (Or.inl e.symm))
  have o1 : ∀ w, w = z ∨ w ∈ L.toList ∨ w ∈ keys up → (t.setParent (ptr t.nil X) y).node w = t.node w := fun w hw =>
    setParent_other fun e => hx (mem_keys_cons.mpr (Or.inr (Or.inr (mem_keys_cons.mpr (e ▸ hw)))))
  have n1 : (t.setParent (ptr t.nil X) y).node (ptr t.nil X) = { t.node (ptr t.nil X) with parent := y } :=
    Function.update_self ..
  have hT : Told t (t.setParent (ptr t.nil X) y) X y := by
    refine ⟨rfl, fun e => by subst e; exact n1, fun e => setParent_other fun he => e (hX.ptr_eq_nil.mp he.symm)⟩
  have hR : Sub (t.setParent (ptr t.nil X) y) y X :=
    hX.sub.moved (List.nodup_append.mp hX.nodup').1 rfl (fun _ => n1) fun w _ hw => setParent_other hw
  have hb : (t.setParent (ptr t.nil X) y).color t.nil = .black := by
    by_cases hn : X = .nil
    · rw [RbTree.color, hT.leaf hn]
      exact h.black
    · rw [RbTree.color, hT.other hn]
      exact h.black
  have hright : (t.setParent (ptr t.nil X) y).child .right y = ptr t.nil X :=
    (congrArg (RbNode.child · .right) (setParent_other hxy)).trans hy.far
  have hnd : (z :: y :: (L.toList ++ (X.toList ++ keys up))).Nodup := by
    have hp : ((L.toList ++ z :: y :: X.toList) ++ keys up).Perm (z :: y :: (L.toList ++ (X.toList ++ keys up))) := by
      rw [← List.append_assoc, ← List.cons_append, ← List.cons_append]
      exact (List.perm_middle.trans (List.perm_middle.cons z)).append_right _
    exact hp.nodup_iff.mp h.nodup'
  have hready : Ready (t.setParent (ptr t.nil X) y) c L X z y up := h.ready hL rfl rfl o1 hb hright hR hy.key_ne hnd
  obtain ⟨h', hk⟩ := hready.takePlace
  rw [hmove]
  exact ⟨at_far.mp h', hT.kept hk⟩

/-- The way from the right child of `z` to `y` is not empty. -/
theorem At.moveUp_below {cy : Color} {d : Parent α} {down : List (Parent α)}
    (h : At t (join .left cy .nil y X) (d :: down ++ ⟨.right, c, z, L⟩ :: up)) (hL : L ≠ .nil) :
    At (t.moveUp z y (ptr t.nil X)) X (d :: down ++ ⟨.right, c, y, L⟩ :: up) ∧
      Told t (t.moveUp z y (ptr t.nil X)) X d.key := by
  obtain ⟨h1, -, hT, hy⟩ := h.unlink
  have hyn := h.key_ne
  have hp : t.parent y = d.key := h.parent
  have hzd : t.parent y ≠ z := by
    have hk := (List.nodup_append.mp h.nodup').2.1
    rw [hp]
    intro e
    have hz : z ∈ keys (down ++ ⟨.right, c, z, L⟩ :: up) := mem_keys_append.mpr (Or.inr (mem_keys_cons.mpr (Or.inl rfl)))
    exact (List.nodup_cons.mp ((keys_cons ..).nodup_iff.mp hk)).1 (List.mem_append_right _ (e ▸ hz))
  have hyk : y ∉ (fill (d :: down ++ ⟨.right, c, z, L⟩ :: up) X).toList := fun hm =>
    (mem_fill.mp hm).elim h.apart.2.1 (h.not_mem_keys (mem_join.mpr (Or.inl rfl)))
  have h2 : At (t.rbTransplant y (ptr t.nil X)) (join .right c (fill (d :: down) X) z L) up := at_join.mp (at_append.mp h1)
  rw [fill_append] at hyk
  have hRn : fill (d :: down) X ≠ .nil := fun e => by
    have hd : d.key ∈ (fill (d :: down) X).toList := mem_fill.mpr (Or.inr (mem_keys_cons.mpr (Or.inl rfl)))
    rw [e] at hd
    cases hd
  have hmove : t.moveUp z y (ptr t.nil X) = Rbtree.takePlace (((t.rbTransplant y (ptr t.nil X)).setChild .right y
      (ptr t.nil (fill (d :: down) X))).setParent (ptr t.nil (fill (d :: down) X)) y) z y := by
    have e1 := h2.near
    rw [hT.nil] at e1
    have e2 : ((t.rbTransplant y (ptr t.nil X)).setChild .right y (ptr t.nil (fill (d :: down) X))).child .right y =
        ptr t.nil (fill (d :: down) X) := by
      rw [RbTree.child, RbTree.setChild, setNode_node, Function.update_self]
      rfl
    rw [RbTree.moveUp, if_neg hzd]
    dsimp only
    rw [e1, e2]
    rfl
  rw [hmove]
  obtain ⟨R, hRe⟩ : ∃ R, fill (d :: down) X = R := ⟨_, rfl⟩
  rw [hRe] at h2 hyk hRn ⊢
  generalize t.rbTransplant y (ptr t.nil X) = t1 at *
  rw [← hT.nil] at hyn ⊢
  have hyk' : (y ≠ z ∧ y ∉ R.toList ∧ y ∉ L.toList) ∧ y ∉ keys up := by
    have : y ∉ (fill up (join .right c R z L)).toList := hyk
    rw [mem_fill, mem_join] at this
    tauto
  obtain ⟨⟨hyz, hyR, hyL⟩, hyu⟩ := hyk'
  have hRm : ptr t1.nil R ∈ R.toList := ptr_mem hRn
  have hyx : y ≠ ptr t1.nil R := fun e => hyR (e ▸ hRm)
  obtain ⟨hzR, hzL, hRL⟩ := h2.apart
  -- only `y` and the root of `R` are written
  have n3 : ((t1.setChild .right y (ptr t1.nil R)).setParent (ptr t1.nil R) y).node (ptr t1.nil R) =
      { t1.node (ptr t1.nil R) with parent := y } := by
    rw [RbTree.setParent, setNode_node, Function.update_self, setChild_other hyx.symm]
  have y3 : ((t1.setChild .right y (ptr t1.nil R)).setParent (ptr t1.nil R) y).child .right y = ptr t1.nil R := by
    rw [RbTree.child, setParent_other hyx, RbTree.setChild, setNode_node, Function.update_self]
    rfl
  have o3 : ∀ w, w ≠ y → w ≠ ptr t1.nil R →
      ((t1.setChild .right y (ptr t1.nil R)).setParent (ptr t1.nil R) y).node w = t1.node w := fun w hw hw' =>
    (setParent_other hw').trans (setChild_other hw)
  have hk3 : Kept t1 ((t1.setChild .right y (ptr t1.nil R)).setParent (ptr t1.nil R) y) :=
    ⟨rfl, o3 _ hyn.symm fun e => h2.mem_ne_nil _ (mem_fill.mpr (Or.inl (mem_join.mpr (Or.inr (Or.inl hRm))))) e.symm⟩
  have hready : Ready ((t1.setChild .right y (ptr t1.nil R)).setParent (ptr t1.nil R) y) c L R z y up := by
    refine h2.ready hL rfl rfl (fun w hw => o3 w ?_ ?_) ?_ y3 ?_ hyn ?_
    · rintro rfl
      rcases hw with e | hw | hw
      · exact hyz e
      · exact hyL hw
      · exact hyu hw
    · rintro rfl
      rcases hw with e | hw | hw
      · exact hzR (e ▸ hRm)
      · exact hRL _ hRm hw
      · exact h2.not_mem_keys (mem_join.mpr (Or.inr (Or.inl hRm))) hw
    · rw [RbTree.color, hk3.node]
      exact h2.black
    · refine (sub_join.mp h2.sub).2.2.1.moved ?_ rfl (fun _ => n3) fun w hw hne => o3 w (ne_of_mem_of_not_mem hw hyR) hne
      exact (List.nodup_append.mp (at_near.mp h2).nodup').1
    · have hp : ((L.toList ++ z :: R.toList) ++ keys up).Perm (z :: (L.toList ++ (R.toList ++ keys up))) := by
        rw [← List.append_assoc, ← List.cons_append]
        exact List.perm_middle.append_right _
      refine (List.Perm.swap ..).nodup_iff.mpr (List.nodup_cons.mpr ⟨?_, hp.nodup_iff.mp h2.nodup'⟩)
      simp only [List.mem_cons, List.mem_append, not_or]
      exact ⟨hyz, hyL, hyR, hyu⟩
  obtain ⟨h', hk'⟩ := hready.takePlace
  refine ⟨at_append.mpr (hRe ▸ at_far.mp h'), hT.kept (hk3.trans hk')⟩

end Myos.Rbtree

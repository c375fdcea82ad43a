/-
  Myos.Rbtree.Shape — when the nodes in memory are a tree: the tree below a place and the path
  of its parents, as in `Lib.RedBlack`, read off the pointers.

  `At t T up`: the pointer at the place is that of `T`, each node of `T` and of the path has the
  links and the colour it has there, and no node is in two places. The place can be moved up and
  down (`at_join`). What changes a node elsewhere does not matter (`Sub.congr`, `Above.congr`).
-/

import Mathlib
import Myos.Rbtree.Nodes

namespace Myos.Rbtree

open Myos.Lib
open Myos.Lib.RedBlack hiding Tree

variable {α : Type*}

/-- The pointer to a tree. -/
def ptr (nil : α) : RedBlack.Tree α → α
  | .nil => nil
  | .node _ _ k _ => k

/-- The parent pointer of a place. -/
def upPtr (nil : α) : List (Parent α) → α
  | [] => nil
  | q :: _ => q.key

def mkNode (p : α) (s : Side) (near far : α) (c : Color) : RbNode α :=
  match s with
  | .left => ⟨p, near, far, c⟩
  | .right => ⟨p, far, near, c⟩

/-- The nodes on the way up from a place and in the trees beside it. -/
def keys (up : List (Parent α)) : List α := before up ++ after up

/-! ## Sides -/

@[simp] theorem flip_flip (s : Side) : s.flip.flip = s := by cases s <;> rfl

@[simp] theorem flip_ne (s : Side) : s.flip ≠ s := by cases s <;> decide

@[simp] theorem ne_flip (s : Side) : s ≠ s.flip := by cases s <;> decide

theorem join_flip (s : Side) (c : Color) (a b : RedBlack.Tree α) (k : α) : join s.flip c b k a = join s c a k b := by
  cases s <;> rfl

/-- A tree that is not empty, with its near child on the side wanted. -/
theorem exists_join (s : Side) {T : RedBlack.Tree α} (h : T ≠ .nil) : ∃ c a k b, T = join s c a k b := by
  cases T with
  | nil => exact absurd rfl h
  | node c l k r =>
    cases s
    · exact ⟨c, l, k, r, rfl⟩
    · exact ⟨c, r, k, l, rfl⟩

@[simp] theorem ptr_join (nil : α) (s : Side) (c : Color) (a b : RedBlack.Tree α) (k : α) : ptr nil (join s c a k b) = k := by
  cases s <;> rfl

@[simp] theorem color_join (s : Side) (c : Color) (a b : RedBlack.Tree α) (k : α) : (join s c a k b).color = c := by
  cases s <;> rfl

@[simp] theorem paint_join (s : Side) (c c' : Color) (a b : RedBlack.Tree α) (k : α) :
    (join s c a k b).paint c' = join s c' a k b := by
  cases s <;> rfl

theorem join_ne_nil (s : Side) (c : Color) (a b : RedBlack.Tree α) (k : α) : join s c a k b ≠ .nil := by
  cases s <;> simp [join]

theorem mem_join {s : Side} {c : Color} {a b : RedBlack.Tree α} {k x : α} :
    x ∈ (join s c a k b).toList ↔ x = k ∨ x ∈ a.toList ∨ x ∈ b.toList := by
  cases s <;> simp [join] <;> tauto

theorem join_nodup {s : Side} {c : Color} {a b : RedBlack.Tree α} {k : α} : (join s c a k b).toList.Nodup ↔
    (k :: (a.toList ++ b.toList)).Nodup := by
  refine List.Perm.nodup_iff ?_
  cases s
  · exact List.perm_middle
  · exact List.perm_middle.trans ((List.perm_append_comm).cons k)

theorem keys_cons (q : Parent α) (up : List (Parent α)) :
    (keys (q :: up)).Perm (q.key :: (q.sibling.toList ++ keys up)) := by
  obtain ⟨s, c, k, T⟩ := q
  cases s
  · exact List.perm_middle.trans ((List.perm_append_comm_assoc ..).cons k)
  · show ((before up ++ (T.toList ++ [k])) ++ after up).Perm (k :: (T.toList ++ (before up ++ after up)))
    rw [List.append_assoc, List.append_assoc]
    refine (List.perm_append_comm_assoc ..).trans ?_
    have : (before up ++ ([k] ++ after up)).Perm (k :: (before up ++ after up)) := List.perm_middle
    exact (this.append_left _).trans List.perm_middle

theorem mem_keys_cons {q : Parent α} {up : List (Parent α)} {x : α} :
    x ∈ keys (q :: up) ↔ x = q.key ∨ x ∈ q.sibling.toList ∨ x ∈ keys up := by
  rw [(keys_cons q up).mem_iff, List.mem_cons, List.mem_append]

theorem mem_fill {T : RedBlack.Tree α} {up : List (Parent α)} {x : α} : x ∈ (fill up T).toList ↔ x ∈ T.toList ∨ x ∈ keys up := by
  rw [fill_toList, keys]
  simp only [List.mem_append]
  tauto

theorem fill_nodup {T : RedBlack.Tree α} {up : List (Parent α)} : (fill up T).toList.Nodup ↔ (T.toList ++ keys up).Nodup := by
  refine List.Perm.nodup_iff ?_
  rw [fill_toList, keys, List.append_assoc]
  exact List.perm_append_comm_assoc ..

theorem fill_append (a b : List (Parent α)) (T : RedBlack.Tree α) : fill (a ++ b) T = fill b (fill a T) := by
  induction a generalizing T with
  | nil => rfl
  | cons q a ih => exact ih _

theorem mem_keys_append {a b : List (Parent α)} {x : α} : x ∈ keys (a ++ b) ↔ x ∈ keys a ∨ x ∈ keys b := by
  induction a with
  | nil => simp [keys, before, after]
  | cons q a ih => rw [List.cons_append, mem_keys_cons, mem_keys_cons, ih]; tauto

/-! ## The tree in memory -/

section

variable {t t' : RbTree α}

@[simp] theorem setNode_nil [DecidableEq α] (t : RbTree α) (x : α) (n : RbNode α) : (t.setNode x n).nil = t.nil := rfl
@[simp] theorem setNode_root [DecidableEq α] (t : RbTree α) (x : α) (n : RbNode α) : (t.setNode x n).root = t.root := rfl
@[simp] theorem setNode_node [DecidableEq α] (t : RbTree α) (x : α) (n : RbNode α) :
    (t.setNode x n).node = Function.update t.node x n := rfl

theorem mkNode_child (p : α) (s : Side) (near far : α) (c : Color) : (mkNode p s near far c).child s = near := by
  cases s <;> rfl

theorem mkNode_far (p : α) (s : Side) (near far : α) (c : Color) : (mkNode p s near far c).child s.flip = far := by
  cases s <;> rfl

@[simp] theorem mkNode_parent (p : α) (s : Side) (near far : α) (c : Color) : (mkNode p s near far c).parent = p := by
  cases s <;> rfl

@[simp] theorem mkNode_color (p : α) (s : Side) (near far : α) (c : Color) : (mkNode p s near far c).color = c := by
  cases s <;> rfl

theorem mkNode_withChild (p : α) (s : Side) (near far x : α) (c : Color) :
    (mkNode p s near far c).withChild s x = mkNode p s x far c := by
  cases s <;> rfl

theorem mkNode_withFar (p : α) (s : Side) (near far x : α) (c : Color) :
    (mkNode p s near far c).withChild s.flip x = mkNode p s near x c := by
  cases s <;> rfl

theorem mkNode_setParent (p p' : α) (s : Side) (near far : α) (c : Color) :
    { mkNode p s near far c with parent := p' } = mkNode p' s near far c := by
  cases s <;> rfl

theorem mkNode_setColor (p : α) (s : Side) (near far : α) (c c' : Color) :
    { mkNode p s near far c with color := c' } = mkNode p s near far c' := by
  cases s <;> rfl

/-- Below a place with parent `p`. -/
def Sub (t : RbTree α) : α → RedBlack.Tree α → Prop
  | _, .nil => True
  | p, .node c l k r => k ≠ t.nil ∧ t.node k = ⟨p, ptr t.nil l, ptr t.nil r, c⟩ ∧ Sub t k l ∧ Sub t k r

/-- Above a place with the pointer `x`. -/
def Above (t : RbTree α) : α → List (Parent α) → Prop
  | x, [] => t.root = x
  | x, q :: up => q.key ≠ t.nil ∧ t.node q.key = mkNode (upPtr t.nil up) q.side x (ptr t.nil q.sibling) q.color ∧
      Sub t q.key q.sibling ∧ Above t q.key up

structure At (t : RbTree α) (T : RedBlack.Tree α) (up : List (Parent α)) : Prop where
  sub : Sub t (upPtr t.nil up) T
  above : Above t (ptr t.nil T) up
  nodup : (fill up T).toList.Nodup
  black : t.color t.nil = .black

/-- The whole memory holds `T`. -/
abbrev Holds (t : RbTree α) (T : RedBlack.Tree α) : Prop := At t T []

theorem sub_join {s : Side} {c : Color} {a b : RedBlack.Tree α} {k p : α} : Sub t p (join s c a k b) ↔
    k ≠ t.nil ∧ t.node k = mkNode p s (ptr t.nil a) (ptr t.nil b) c ∧ Sub t k a ∧ Sub t k b := by
  cases s
  · exact Iff.rfl
  · exact and_congr_right fun _ => and_congr_right fun _ => and_comm

theorem Sub.ne_nil {T : RedBlack.Tree α} : ∀ {p : α}, Sub t p T → ∀ x ∈ T.toList, x ≠ t.nil := by
  induction T with
  | nil => intro p _ x hx; cases hx
  | node c l k r ihl ihr =>
    intro p h x hx
    rcases List.mem_append.mp hx with hx | hx
    · exact ihl h.2.2.1 x hx
    rcases List.mem_cons.mp hx with rfl | hx
    · exact h.1
    · exact ihr h.2.2.2 x hx

theorem Above.ne_nil {up : List (Parent α)} : ∀ {x : α}, Above t x up → ∀ y ∈ keys up, y ≠ t.nil := by
  induction up with
  | nil => intro x _ y hy; cases hy
  | cons q up ih =>
    intro x h y hy
    rcases mem_keys_cons.1 hy with rfl | hy | hy
    · exact h.1
    · exact h.2.2.1.ne_nil y hy
    · exact ih h.2.2.2 y hy

/-- Only the nodes of the tree matter to it. -/
theorem Sub.congr {T : RedBlack.Tree α} : ∀ {p : α}, Sub t p T → t'.nil = t.nil → (∀ x ∈ T.toList, t'.node x = t.node x) →
    Sub t' p T := by
  induction T with
  | nil => intro p h _ _; exact h
  | node c l k r ihl ihr =>
    intro p ⟨h1, h2, h3, h4⟩ hn he
    refine ⟨by rw [hn]; exact h1, ?_, ihl h3 hn fun x hx => he x (by simp [hx]), ihr h4 hn fun x hx => he x (by simp [hx])⟩
    rw [he k (by simp), hn, h2]

theorem Above.congr {up : List (Parent α)} : ∀ {x : α}, Above t x up → t'.nil = t.nil → t'.root = t.root →
    (∀ y ∈ keys up, t'.node y = t.node y) → Above t' x up := by
  induction up with
  | nil => intro x h _ hr _; exact hr.trans h
  | cons q up ih =>
    intro x ⟨h1, h2, h3, h4⟩ hn hr he
    have he' : ∀ y, y = q.key ∨ y ∈ q.sibling.toList ∨ y ∈ keys up → t'.node y = t.node y := fun y hy =>
      he y (mem_keys_cons.2 hy)
    refine ⟨by rw [hn]; exact h1, ?_, h3.congr hn fun y hy => he' y (Or.inr (Or.inl hy)),
      ih h4 hn hr fun y hy => he' y (Or.inr (Or.inr hy))⟩
    rw [he' _ (Or.inl rfl), hn, h2]

/-- The place moves up to the parent. -/
theorem at_join {T : RedBlack.Tree α} {q : Parent α} {up : List (Parent α)} :
    At t T (q :: up) ↔ At t (join q.side q.color T q.key q.sibling) up := by
  have hfill : fill (q :: up) T = fill up (join q.side q.color T q.key q.sibling) := rfl
  constructor
  · intro ⟨h1, ⟨h2, h3, h4, h5⟩, h6, h7⟩
    exact ⟨sub_join.2 ⟨h2, h3, h1, h4⟩, by rw [ptr_join]; exact h5, hfill ▸ h6, h7⟩
  · intro ⟨h1, h2, h3, h4⟩
    obtain ⟨h5, h6, h7, h8⟩ := sub_join.1 h1
    rw [ptr_join] at h2
    exact ⟨h7, ⟨h5, h6, h8, h2⟩, hfill ▸ h3, h4⟩

theorem at_fill {up : List (Parent α)} : ∀ {T : RedBlack.Tree α}, At t T up ↔ Holds t (fill up T) := by
  induction up with
  | nil => intro T; exact Iff.rfl
  | cons q up ih => intro T; exact at_join.trans ih

theorem at_append {T : RedBlack.Tree α} {a up : List (Parent α)} : At t T (a ++ up) ↔ At t (fill a T) up := by
  rw [at_fill, at_fill, fill_append]

/-- The place moves down to a child. -/
theorem at_near {s : Side} {c : Color} {a b : RedBlack.Tree α} {k : α} {up : List (Parent α)} :
    At t (join s c a k b) up ↔ At t a (⟨s, c, k, b⟩ :: up) :=
  (at_join (q := ⟨s, c, k, b⟩)).symm

theorem at_far {s : Side} {c : Color} {a b : RedBlack.Tree α} {k : α} {up : List (Parent α)} :
    At t (join s c a k b) up ↔ At t b (⟨s.flip, c, k, a⟩ :: up) := by
  rw [at_join]
  dsimp only
  rw [join_flip]

/-! ## Reading -/

section

variable {T a b : RedBlack.Tree α} {q : Parent α} {up : List (Parent α)} {s : Side} {c : Color} {k : α}

theorem At.node (h : At t (join s c a k b) up) : t.node k = mkNode (upPtr t.nil up) s (ptr t.nil a) (ptr t.nil b) c :=
  (sub_join.1 h.sub).2.1

theorem At.key_ne (h : At t (join s c a k b) up) : k ≠ t.nil := (sub_join.1 h.sub).1

theorem At.near (h : At t (join s c a k b) up) : t.child s k = ptr t.nil a := by
  rw [RbTree.child, h.node, mkNode_child]

theorem At.far (h : At t (join s c a k b) up) : t.child s.flip k = ptr t.nil b := by
  rw [RbTree.child, h.node, mkNode_far]

theorem At.parent (h : At t (join s c a k b) up) : t.parent k = upPtr t.nil up := by
  rw [RbTree.parent, h.node, mkNode_parent]

theorem At.parent_of (h : At t T up) (hT : T ≠ .nil) : t.parent (ptr t.nil T) = upPtr t.nil up := by
  obtain ⟨c, a, k, b, rfl⟩ := exists_join .left hT
  rw [ptr_join]
  exact h.parent

/-- Leaves are black. -/
theorem At.color (h : At t T up) : t.color (ptr t.nil T) = T.color := by
  cases T with
  | nil => exact h.black
  | node c l k r => rw [RbTree.color, ptr, h.sub.2.1]; rfl

theorem At.nodup' (h : At t T up) : (T.toList ++ keys up).Nodup := fill_nodup.1 h.nodup

theorem At.not_mem_keys (h : At t T up) {x : α} (hx : x ∈ T.toList) : x ∉ keys up := fun hm =>
  (List.nodup_append.mp h.nodup').2.2 x hx x hm rfl

/-- The node of a tree and its two subtrees have nothing in common. -/
theorem At.apart (h : At t (join s c a k b) up) : k ∉ a.toList ∧ k ∉ b.toList ∧ ∀ x ∈ a.toList, x ∉ b.toList := by
  have hn := join_nodup.1 (List.nodup_append.mp h.nodup').1
  obtain ⟨hk, hab⟩ := List.nodup_cons.mp hn
  refine ⟨fun hm => hk (List.mem_append_left _ hm), fun hm => hk (List.mem_append_right _ hm), fun x hx hm => ?_⟩
  exact (List.nodup_append.mp hab).2.2 x hx x hm rfl

theorem ptr_mem {nil : α} {T : RedBlack.Tree α} (h : T ≠ .nil) : ptr nil T ∈ T.toList := by
  obtain ⟨c, a, k, b, rfl⟩ := exists_join .left h
  rw [ptr_join]
  exact mem_join.2 (Or.inl rfl)

theorem At.mem_ne_nil (h : At t T up) : ∀ x ∈ (fill up T).toList, x ≠ t.nil := fun x hx =>
  (mem_fill.1 hx).elim (h.sub.ne_nil x) (h.above.ne_nil x)

theorem At.ptr_eq_nil (h : At t T up) : ptr t.nil T = t.nil ↔ T = .nil := by
  constructor
  · intro he
    by_contra hT
    exact h.sub.ne_nil _ (ptr_mem hT) he
  · intro hT
    rw [hT]
    rfl

/-- Which child of its parent a node is. -/
theorem At.is_child (h : At t T (q :: up)) (hT : T ≠ .nil ∨ q.sibling ≠ .nil) (s : Side) :
    ptr t.nil T = t.child s q.key ↔ q.side = s := by
  have hj := at_join.1 h
  by_cases hs : q.side = s
  · subst hs
    exact iff_of_true hj.near.symm rfl
  · have hflip : s = q.side.flip := by
      cases hq : q.side <;> cases s <;> simp_all [Side.flip]
    refine iff_of_false (fun he => ?_) hs
    rw [hflip, hj.far] at he
    -- the two children would be one
    have hsib := at_far.1 hj
    rcases hT with hT | hT
    · have hne : q.sibling ≠ .nil := fun hn => hT (h.ptr_eq_nil.mp (by rw [he, hn]; rfl))
      exact hj.apart.2.2 _ (ptr_mem hT) (he ▸ ptr_mem hne)
    · have hne : T ≠ .nil := fun hn => hT (hsib.ptr_eq_nil.mp (by rw [← he, hn]; rfl))
      exact hj.apart.2.2 _ (ptr_mem hne) (he ▸ ptr_mem hT)

theorem At.up_color (h : At t T (q :: up)) : t.color q.key = q.color := by
  have := (at_join.1 h).color
  rwa [ptr_join, color_join] at this

theorem At.up_parent (h : At t T (q :: up)) : t.parent q.key = upPtr t.nil up := (at_join.1 h).parent

end

end

end Myos.Rbtree

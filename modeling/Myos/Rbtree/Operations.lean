/-
  Myos.Rbtree.Operations — `rb_tree_insert`, `rb_tree_delete` and `rb_tree_search` on the tree in
  memory.

  Proved: from `rb_tree_init` on, whatever is inserted and deleted, and whatever happens to the
  memory of nodes outside, each operation ends; memory holds a balanced search tree, and its nodes
  in order change by the one node.
-/

import Mathlib
import Myos.Rbtree.Fixups
import Myos.Rbtree.Links

namespace Myos.Rbtree

open Myos.Lib
open Myos.Lib.RedBlack hiding Tree

variable {α : Type*} [DecidableEq α] {t t' : RbTree α} {T L R : RedBlack.Tree α} {up : List (Parent α)} {c : Color} {y z : α}
  {compare : α → α → Int}

/-! ## Ways down -/

/-- The node at the end of a list on side `s`. -/
def outermost (s : Side) (l : List α) : Option α :=
  match s with
  | .left => l.head?
  | .right => l.getLast?

omit [DecidableEq α] in
theorem outermost_join (s : Side) (c : Color) (a b : RedBlack.Tree α) (k : α) :
    outermost s (join s c a k b).toList = (outermost s a.toList).or (some k) := by
  cases s with
  | left => exact List.head?_append
  | right =>
    show (b.toList ++ k :: a.toList).getLast? = a.toList.getLast?.or (some k)
    rw [List.append_cons, List.getLast?_append, List.getLast?_append]
    rfl

theorem At.farthest (s : Side) : ∀ {T : RedBlack.Tree α} {up : List (Parent α)}, At t T up → T ≠ .nil →
    ∃ y, Ends (fun n => t.farthest s t.nil n (ptr t.nil T)) y ∧ outermost s T.toList = some y := by
  intro T
  -- down the near side, whichever child that is
  have step : ∀ {c : Color} {a b : RedBlack.Tree α} {k : α} {up : List (Parent α)}, At t (join s c a k b) up →
      (∀ {up : List (Parent α)}, At t a up → a ≠ .nil →
        ∃ y, Ends (fun n => t.farthest s t.nil n (ptr t.nil a)) y ∧ outermost s a.toList = some y) →
      ∃ y, Ends (fun n => t.farthest s t.nil n k) y ∧ outermost s (join s c a k b).toList = some y := by
    intro c a b k up h ih
    rw [outermost_join]
    by_cases ha : a = .nil
    · subst ha
      refine ⟨k, .now fun n => if_neg (not_not.mpr h.near), ?_⟩
      cases s <;> rfl
    · obtain ⟨y, hy, ho⟩ := ih (at_near.mp h) ha
      refine ⟨y, hy.round fun n => ?_, by rw [ho]; rfl⟩
      have hn : t.child s k ≠ t.nil := by
        rw [h.near]
        exact fun e => ha ((at_near.mp h).ptr_eq_nil.mp e)
      rw [RbTree.farthest, if_pos hn, h.near]
  induction T with
  | nil => intro up _ hT; exact absurd rfl hT
  | node c l k r ihl ihr =>
    intro up h _
    cases s with
    | left => exact step (a := l) h ihl
    | right => exact step (a := r) (b := l) h ihr

/-- `z` goes to the left of `k`. -/
def precedes (compare : α → α → Int) (z k : α) : Bool := decide (compare z k < 0)

omit [DecidableEq α] in
theorem precedes_iff {k : α} : precedes compare z k = true ↔ compare z k < 0 := decide_eq_true_iff

theorem At.insertPlace (compare : α → α → Int) (z : α) : ∀ {T : RedBlack.Tree α} {up : List (Parent α)}, At t T up →
    Ends (fun n => t.insertPlace compare z n (upPtr t.nil up) (ptr t.nil T)) (upPtr t.nil (place (precedes compare) z T up)) ∧
      At t .nil (place (precedes compare) z T up) := by
  intro T
  induction T with
  | nil =>
    intro up h
    exact ⟨.now fun n => if_neg (not_not.mpr rfl), h⟩
  | node c l k r ihl ihr =>
    intro up h
    have hround : ∀ n, t.insertPlace compare z (n + 1) (upPtr t.nil up) (ptr t.nil (.node c l k r)) =
        t.insertPlace compare z n k (t.child (if compare z k < 0 then .left else .right) k) := fun n => if_pos h.sub.1
    rw [place]
    by_cases hlt : compare z k < 0
    · have hl : At t (join .left c l k r) up := h
      obtain ⟨he, ha⟩ := ihl (at_near.mp hl)
      rw [if_pos (precedes_iff.2 hlt)]
      refine ⟨he.round fun n => ?_, ha⟩
      rw [hround, if_pos hlt, hl.near]
      rfl
    · have hr : At t (join .right c r k l) up := h
      obtain ⟨he, ha⟩ := ihr (at_near.mp hr)
      rw [if_neg (mt precedes_iff.1 hlt)]
      refine ⟨he.round fun n => ?_, ha⟩
      rw [hround, if_neg hlt, hr.near]
      rfl

omit [DecidableEq α] in
/-- On which side of its parent the place is. -/
theorem place_side : ∀ (T : RedBlack.Tree α) (up : List (Parent α)), place (precedes compare) z T up = up ∨
    ∀ q ∈ (place (precedes compare) z T up).head?, q.side = if compare z q.key < 0 then .left else .right := by
  intro T
  induction T with
  | nil => intro up; exact Or.inl rfl
  | node c l k r ihl ihr =>
    intro up
    rw [place]
    right
    by_cases hlt : compare z k < 0
    · rw [if_pos (precedes_iff.2 hlt)]
      rcases ihl (⟨.left, c, k, r⟩ :: up) with h | h
      · rw [h]
        intro q hq
        cases hq
        exact (if_pos hlt).symm
      · exact h
    · rw [if_neg (mt precedes_iff.1 hlt)]
      rcases ihr (⟨.right, c, k, l⟩ :: up) with h | h
      · rw [h]
        intro q hq
        cases hq
        exact (if_neg hlt).symm
      · exact h

/-! ## Insertion -/

theorem Holds.insert {T' : RedBlack.Tree α} (h : Holds t T) (hz : z ∉ T.toList) (hn : z ≠ t.nil)
    (hi : RedBlack.insert (precedes compare) z T = some T') :
    ∃ t', Ends (fun n => t.rbTreeInsert compare n z) t' ∧ Holds t' T' ∧ Kept t t' := by
  obtain ⟨he, hp⟩ := At.insertPlace compare z h
  have hside : ∀ q ∈ (place (precedes compare) z T []).head?, q.side = if compare z q.key < 0 then .left else .right := by
    rcases place_side T [] with h | h
    · rw [h]
      intro q hq
      cases hq
    · exact h
  have hzk : z ∉ keys (place (precedes compare) z T []) := by
    rw [keys, place_keys]
    simpa [before, after] using hz
  obtain ⟨h1, k1⟩ := hp.hangIn hn hzk hside
  obtain ⟨t', hf, hT, hk⟩ := h1.insertFixup rfl hi
  rw [k1.nil] at hf
  have hroot : t.root = ptr t.nil T := h.above
  refine ⟨t', ?_, hT, k1.trans hk⟩
  rw [← hroot] at he
  exact he.bind hf

/-! ## Deletion -/

/-- When a node of colour `c` is taken out: the tree `X` that moves up, the place it moves to, and
    the colour that goes. -/
inductive Spliced (c : Color) (up : List (Parent α)) : (L R X : RedBlack.Tree α) → List (Parent α) → Color → Prop
  | noLeft {R : RedBlack.Tree α} : Spliced c up .nil R R up c
  | noRight {L : RedBlack.Tree α} : L ≠ .nil → Spliced c up L .nil L up c
  | both {L R X : RedBlack.Tree α} {cy : Color} {y : α} {down : List (Parent α)} : L ≠ .nil →
      leftmost R [] = some (cy, y, X, down) → Spliced c up L R X (down ++ ⟨.right, c, y, L⟩ :: up) cy

omit [DecidableEq α] in
theorem splice_cases {T' : RedBlack.Tree α} (h : splice c L R up = some T') : ∃ X up' cy, Spliced c up L R X up' cy ∧
    (if cy = .black then RedBlack.deleteFixup X up' else some (fill up' X)) = some T' := by
  cases L with
  | nil => exact ⟨R, up, c, .noLeft, h⟩
  | node cl ll kl rl =>
    cases R with
    | nil => exact ⟨_, up, c, .noRight nofun, h⟩
    | node cr lr kr rr =>
      obtain ⟨cy, y, X, down, hm⟩ := leftmost_node cr lr kr rr []
      simp only [splice, hm] at h
      exact ⟨X, _, cy, .both nofun hm, h⟩

omit [DecidableEq α] in
theorem leftmost_first {X : RedBlack.Tree α} {cy : Color} {down : List (Parent α)} (h : leftmost R [] = some (cy, y, X, down)) :
    outermost .left R.toList = some y := by
  obtain ⟨hf, hb, -⟩ := leftmost_spec h []
  have hR : R.toList = before (down ++ []) ++ (RedBlack.Tree.node cy .nil y X).toList ++ after (down ++ []) := by
    rw [← fill_toList, hf]
    rfl
  rw [hR, hb]
  rfl

/-- With two children the successor is found below the right one. -/
theorem At.successor {X : RedBlack.Tree α} {cy : Color} {down : List (Parent α)} (h : At t (.node c L z R) up) (hL : L ≠ .nil)
    (hm : leftmost R [] = some (cy, y, X, down)) : At t (join .left cy .nil y X) (down ++ ⟨.right, c, z, L⟩ :: up) ∧
      t.child .left z ≠ t.nil ∧ t.child .right z ≠ t.nil ∧ Ends (fun n => t.rbTreeMin t.nil n (t.child .right z)) y := by
  have hj : At t (join .right c R z L) up := h
  have hR : R ≠ .nil := fun e => by
    subst e
    cases hm
  have hl : t.child .left z = ptr t.nil L := hj.far
  have hr : t.child .right z = ptr t.nil R := hj.near
  refine ⟨?_, ?_, ?_, ?_⟩
  · have hf := (leftmost_spec hm (⟨.right, c, z, L⟩ :: up)).1
    exact at_fill.mpr (hf ▸ at_fill.mp (at_near.mp hj))
  · rw [hl]
    exact mt (at_far.mp hj).ptr_eq_nil.mp hL
  · rw [hr]
    exact mt (at_near.mp hj).ptr_eq_nil.mp hR
  · obtain ⟨y', hy, hy'⟩ := (at_near.mp hj).farthest .left hR
    rw [leftmost_first hm] at hy'
    obtain rfl := Option.some.inj hy'
    rw [hr]
    exact hy

/-- Memory before the repair. -/
theorem At.spliced {X : RedBlack.Tree α} {up' : List (Parent α)} {cy : Color} (h : At t (.node c L z R) up)
    (hs : Spliced c up L R X up' cy) : ∃ r N, (∀ n, N ≤ n → t.rbTreeDelete n z =
        if cy = .black then r.rbDeleteFixup n (ptr t.nil X) else some r) ∧
      At r X up' ∧ Told t r X (upPtr t.nil up') := by
  have hc : t.color z = c := h.color
  cases hs with
  | noLeft =>
    have hj : At t (join .left c .nil z R) up := h
    have hn : t.child .left z = t.nil := hj.near
    have hr : t.child .right z = ptr t.nil R := hj.far
    obtain ⟨h1, -, hT, -⟩ := hj.unlink
    refine ⟨_, 0, fun n _ => ?_, h1, hT⟩
    rw [RbTree.rbTreeDelete, if_pos hn, hr, hc]
  | noRight hL =>
    have hj : At t (join .right c .nil z L) up := h
    have hn : t.child .right z = t.nil := hj.near
    have hl : t.child .left z = ptr t.nil L := hj.far
    obtain ⟨h1, -, hT, -⟩ := hj.unlink
    refine ⟨_, 0, fun n _ => ?_, h1, hT⟩
    rw [RbTree.rbTreeDelete, hl, if_neg (mt (at_far.mp hj).ptr_eq_nil.mp hL), if_pos hn, hc]
  | @both _ _ _ _ y down hL hm =>
    obtain ⟨hplace, hl, hr, N, hN⟩ := h.successor hL hm
    have hcy : t.color y = cy := by
      have := hplace.color
      rwa [ptr_join, color_join] at this
    have hx : t.child .right y = ptr t.nil X := hplace.far
    refine ⟨t.moveUp z y (ptr t.nil X), N, fun n hn => ?_, ?_⟩
    · have hmin := hN n hn
      dsimp only at hmin
      rw [RbTree.rbTreeDelete, if_neg hl, if_neg hr, hmin]
      dsimp only [Option.bind_some]
      rw [hx, hcy]
    · cases down with
      | nil => exact (at_join.mp hplace).moveUp_child hL
      | cons d down => exact hplace.moveUp_below hL

theorem Holds.located (h : Holds t T) (hl : locate z T [] = some (c, L, R, up)) : At t (.node c L z R) up :=
  at_fill.mpr ((locate_sound hl).1 ▸ h)

/-- Deletion of a node of the tree. What happens to the sentinel is told by what moves up. -/
theorem Holds.delete {T' : RedBlack.Tree α} (h : Holds t T) (hd : RedBlack.delete z T = some T') :
    ∃ t', Ends (fun n => t.rbTreeDelete n z) t' ∧ Holds t' T' ∧
      ∃ c L R up X up' cy, locate z T [] = some (c, L, R, up) ∧ Spliced c up L R X up' cy ∧
        T'.toList = (fill up' X).toList ∧ Told t t' X (upPtr t.nil up') := by
  obtain ⟨⟨c, L, R, up⟩, hl, hs⟩ := Option.bind_eq_some_iff.mp hd
  obtain ⟨X, up', cy, hsp, hT'⟩ := splice_cases hs
  obtain ⟨r, N, hN, hr, ht⟩ := (h.located hl).spliced hsp
  by_cases hc : cy = .black
  · rw [if_pos hc] at hT'
    have hp : r.parent (ptr r.nil X) = upPtr r.nil up' := by
      rw [ht.nil]
      exact ht.parent hr
    obtain ⟨t', ⟨M, hM⟩, hH, hk⟩ := hr.deleteFixup up' hp hT'
    refine ⟨t', ⟨max N M, fun n hn => ?_⟩, hH, c, L, R, up, X, up', cy, hl, hsp, deleteFixup_toList up' hT',
      ht.kept hk⟩
    dsimp only
    rw [hN n (by omega), if_pos hc, ← ht.nil]
    exact hM n (by omega)
  · rw [if_neg hc] at hT'
    cases hT'
    refine ⟨r, ⟨N, fun n hn => ?_⟩, at_fill.mp hr, c, L, R, up, X, up', cy, hl, hsp, rfl, ht⟩
    dsimp only
    rw [hN n hn, if_neg hc]

/-! ## Search -/

/-- What the comparison with a node says about where the key is. -/
def towards (compare : α → α → Int) (key k : α) : Ordering :=
  if compare key k = 0 then .eq else if compare key k < 0 then .lt else .gt

omit [DecidableEq α] in
theorem towards_eq {key k : α} : towards compare key k = .eq ↔ compare key k = 0 := by
  unfold towards
  split
  · exact iff_of_true rfl ‹_›
  · next h => exact iff_of_false (by split <;> decide) h

omit [DecidableEq α] in
theorem towards_lt {key k : α} : towards compare key k = .lt ↔ compare key k < 0 := by
  unfold towards
  split
  · exact iff_of_false (by decide) (by omega)
  split
  · exact iff_of_true rfl ‹_›
  · exact iff_of_false (by decide) ‹_›

omit [DecidableEq α] in
theorem towards_gt {key k : α} : towards compare key k = .gt ↔ 0 < compare key k := by
  unfold towards
  split
  · exact iff_of_false (by decide) (by omega)
  split
  · exact iff_of_false (by decide) (by omega)
  · exact iff_of_true rfl (by omega)

theorem At.searchFrom (key : α) : ∀ {T : RedBlack.Tree α} {up : List (Parent α)}, At t T up →
    Ends (fun n => t.searchFrom compare key n (ptr t.nil T)) (RedBlack.search (towards compare key) T) := by
  intro T
  induction T with
  | nil =>
    intro up h
    exact .now fun n => if_neg (not_not.mpr rfl)
  | node c l k r ihl ihr =>
    intro up h
    have hround : ∀ n, t.searchFrom compare key (n + 1) k = if compare key k = 0 then some (some k)
        else t.searchFrom compare key n (t.child (if compare key k < 0 then .left else .right) k) := fun n => if_pos h.sub.1
    have hl : At t (join .left c l k r) up := h
    have hr : At t (join .right c r k l) up := h
    by_cases he : compare key k = 0
    · rw [RedBlack.search, towards, if_pos he]
      exact .now fun n => (hround n).trans (if_pos he)
    by_cases hlt : compare key k < 0
    · rw [RedBlack.search, towards, if_neg he, if_pos hlt]
      refine (ihl (at_near.mp hl)).round fun n => ?_
      rw [← hl.near]
      exact (hround n).trans (by rw [if_neg he, if_pos hlt])
    · rw [RedBlack.search, towards, if_neg he, if_neg hlt]
      refine (ihr (at_near.mp hr)).round fun n => ?_
      rw [← hr.near]
      exact (hround n).trans (by rw [if_neg he, if_neg hlt])

/-! ## Runs -/

/-- `compare` puts the nodes in a total order up to ties. -/
structure Comparison (compare : α → α → Int) : Prop where
  flip : ∀ a b, compare a b < 0 ↔ 0 < compare b a
  trans : ∀ a b c, compare a b ≤ 0 → compare b c ≤ 0 → compare a c ≤ 0

/-- The trees that insertions and deletions lead to, with the nodes in them, if each deletion is `ok`.
    Nodes outside are not the tree's: anything may be written to them. -/
inductive Reach (compare : α → α → Int) (ok : RbTree α → α → Prop) : RbTree α → List α → Prop where
  | init (memory : α → RbNode α) (nil : α) : Reach compare ok (RbTree.rbTreeInit memory nil) []
  | insert {t t' : RbTree α} {l : List α} {z : α} : Reach compare ok t l → z ∉ l → z ≠ t.nil →
      Ends (fun n => t.rbTreeInsert compare n z) t' → Reach compare ok t' (z :: l)
  | delete {t t' : RbTree α} {l : List α} {z : α} : Reach compare ok t l → z ∈ l → ok t z →
      Ends (fun n => t.rbTreeDelete n z) t' → Reach compare ok t' (l.erase z)
  | write {t : RbTree α} {l : List α} {x : α} (n : RbNode α) : Reach compare ok t l → x ∉ l → x ≠ t.nil →
      Reach compare ok (t.setNode x n) l

/-- Memory holds `T`, links to the parents included; the sentinel and the root are black, no red node
    has a red child, every way down passes as many black nodes, and the nodes are in order. -/
structure Correct (compare : α → α → Int) (t : RbTree α) (T : RedBlack.Tree α) : Prop where
  holds : Holds t T
  balanced : ∃ n, Balanced T .black n
  sorted : T.toList.Pairwise fun a b => compare a b ≤ 0

section

variable {l : List α} {ok : RbTree α → α → Prop}

omit [DecidableEq α] in
theorem Comparison.le_total (hc : Comparison compare) {a b : α} (h : ¬ compare a b < 0) : compare b a ≤ 0 := by
  rw [hc.flip] at h
  omega

omit [DecidableEq α] in
theorem Comparison.lt_of_lt_of_le (hc : Comparison compare) {a b d : α} (h : compare a b < 0) (h' : compare b d ≤ 0) :
    compare a d < 0 := by
  by_contra hn
  have hba := hc.trans b d a h' (hc.le_total hn)
  rw [hc.flip] at h
  omega

omit [DecidableEq α] in
theorem Comparison.lt_of_le_of_lt (hc : Comparison compare) {a b d : α} (h : compare a b ≤ 0) (h' : compare b d < 0) :
    compare a d < 0 := by
  by_contra hn
  have hdb := hc.trans d a b (hc.le_total hn) h
  rw [hc.flip] at h'
  omega

omit [DecidableEq α] in
theorem Correct.ordered {compare : α → α → Int} (h : Correct compare t T) : Ordered (fun a b => compare a b ≤ 0) T :=
  ⟨h.balanced, h.sorted⟩

theorem Correct.init (memory : α → RbNode α) (nil : α) : Correct compare (RbTree.rbTreeInit memory nil) .nil := by
  have hb : (RbTree.rbTreeInit memory nil).color nil = .black := by
    show (Function.update memory nil ⟨nil, nil, nil, .black⟩ nil).color = .black
    rw [Function.update_self]
  exact ⟨⟨trivial, rfl, List.nodup_nil, hb⟩, ⟨0, .nil⟩, List.Pairwise.nil⟩

theorem Correct.insert (hc : Comparison compare) (h : Correct compare t T) (hz : z ∉ T.toList) (hn : z ≠ t.nil) :
    ∃ t' T' b a, Ends (fun n => t.rbTreeInsert compare n z) t' ∧ Correct compare t' T' ∧ T.toList = b ++ a ∧
      T'.toList = b ++ z :: a ∧ (∀ x ∈ b, compare x z ≤ 0) ∧ (∀ x ∈ a, compare z x < 0) ∧ Kept t t' := by
  obtain ⟨T', hi, ho, -⟩ : ∃ T', RedBlack.insert (precedes compare) z T = some T' ∧ Ordered (fun a b => compare a b ≤ 0) T' ∧
      T'.toList.Perm (z :: T.toList) := h.ordered.insert hc.trans fun k _ => by
    by_cases hlt : compare z k < 0
    · rw [if_pos (precedes_iff.2 hlt)]
      exact hlt.le
    · rw [if_neg (mt precedes_iff.1 hlt)]
      exact hc.le_total hlt
  obtain ⟨t', he, hH, hk⟩ := h.holds.insert hz hn hi
  obtain ⟨hT, hT'⟩ := insert_toList hi
  have hcut : (∀ a ∈ before (place (precedes compare) z T []), precedes compare z a = false) ∧
      ∀ a ∈ after (place (precedes compare) z T []), precedes compare z a = true := place_cut
    (fun a b hab hz => precedes_iff.2 (hc.lt_of_lt_of_le (precedes_iff.1 hz) hab)) T [] h.sorted
    (fun a ha => by cases ha) (fun a ha => by cases ha)
  refine ⟨t', T', _, _, he, ⟨hH, ho.balanced, ho.sorted⟩, hT, hT', fun x hx => ?_, fun x hx => ?_, hk⟩
  · exact hc.le_total fun hlt => by rw [← precedes_iff, hcut.1 x hx] at hlt; cases hlt
  · exact precedes_iff.1 (hcut.2 x hx)

theorem Correct.delete (h : Correct compare t T) (hz : z ∈ T.toList) :
    ∃ t' T', Ends (fun n => t.rbTreeDelete n z) t' ∧ Correct compare t' T' ∧ T'.toList = T.toList.erase z ∧
      ∃ c L R up X up' cy, locate z T [] = some (c, L, R, up) ∧ Spliced c up L R X up' cy ∧
        T'.toList = (fill up' X).toList ∧ Told t t' X (upPtr t.nil up') := by
  obtain ⟨T', b, a, hd, ho, hT, hT'⟩ := h.ordered.delete_cut hz
  obtain ⟨t', he, hH, hs⟩ := h.holds.delete hd
  refine ⟨t', T', he, ⟨hH, ho.balanced, ho.sorted⟩, ?_, hs⟩
  have hnd : T.toList.Nodup := h.holds.nodup
  rw [hT] at hnd
  have hzb : z ∉ b := fun hm => (List.nodup_append.mp hnd).2.2 z hm z (List.mem_cons_self ..) rfl
  rw [hT, hT', List.erase_append_right _ hzb, List.erase_cons_head]

theorem Correct.search (hc : Comparison compare) (h : Correct compare t T) (key : α) :
    ∃ r, Ends (fun n => t.rbTreeSearch compare n key) r ∧ (∀ n, r = some n → n ∈ T.toList ∧ compare key n = 0) ∧
      (r = none → ∀ n ∈ T.toList, compare key n ≠ 0) := by
  have he : Ends (fun n => t.searchFrom compare key n (ptr t.nil T)) _ := h.holds.searchFrom key
  have hroot : t.root = ptr t.nil T := h.holds.above
  rw [← hroot] at he
  refine ⟨_, he, fun n hr => ?_, fun hr n hm h0 => ?_⟩
  · obtain ⟨hm, heq⟩ := search_mem hr
    exact ⟨hm, towards_eq.1 heq⟩
  · refine search_none (r := fun a b => compare a b ≤ 0) (fun a b hab ha => ?_) (fun a b hab hb => ?_) h.sorted hr n hm
      (towards_eq.2 h0)
    · exact towards_lt.2 (hc.lt_of_lt_of_le (towards_lt.1 ha) hab)
    · have hkb := (hc.flip b key).mpr (towards_gt.1 hb)
      exact towards_gt.2 ((hc.flip a key).mp (hc.lt_of_le_of_lt hab hkb))

/-- Memory outside the tree does not matter. -/
theorem Correct.write {compare : α → α → Int} (h : Correct compare t T) {x : α} (hx : x ∉ T.toList) (hn : x ≠ t.nil)
    (n : RbNode α) : Correct compare (t.setNode x n) T := by
  have ho : ∀ w, w ≠ x → (t.setNode x n).node w = t.node w := fun w hw => Function.update_of_ne hw ..
  refine ⟨⟨h.holds.sub.congr rfl fun w hw => ho w (ne_of_mem_of_not_mem hw hx), h.holds.above, h.holds.nodup, ?_⟩, h.balanced,
    h.sorted⟩
  show ((t.setNode x n).node t.nil).color = .black
  rw [ho _ hn.symm]
  exact h.holds.black

/-- Every tree that is reached is a balanced search tree over its nodes. -/
theorem Reach.correct (hc : Comparison compare) (h : Reach compare ok t l) : ∃ T, Correct compare t T ∧ T.toList.Perm l := by
  induction h with
  | init memory nil => exact ⟨.nil, .init memory nil, List.Perm.refl _⟩
  | insert _ hz hn he ih =>
    obtain ⟨T, hT, hp⟩ := ih
    obtain ⟨t', T', b, a, he', hT', hb, hb', -, -, -⟩ := hT.insert hc (fun hm => hz (hp.mem_iff.mp hm)) hn
    refine ⟨T', he.unique he' ▸ hT', ?_⟩
    rw [hb']
    exact List.perm_middle.trans ((hb ▸ hp).cons _)
  | delete _ hz _ he ih =>
    obtain ⟨T, hT, hp⟩ := ih
    obtain ⟨t', T', he', hT', hl, -⟩ := hT.delete (hp.mem_iff.mpr hz)
    refine ⟨T', he.unique he' ▸ hT', ?_⟩
    rw [hl]
    exact hp.erase _
  | write n _ hx hn ih =>
    obtain ⟨T, hT, hp⟩ := ih
    exact ⟨T, hT.write (fun hm => hx (hp.mem_iff.mp hm)) hn n, hp⟩

/-- In every tree that is reached each operation ends and does what it is for. -/
theorem operations_correct (hc : Comparison compare) (h : Reach compare ok t l) : ∃ T, Correct compare t T ∧ T.toList.Perm l ∧
    (∀ z, z ∉ l → z ≠ t.nil → ∃ t' T' b a, Ends (fun n => t.rbTreeInsert compare n z) t' ∧ Correct compare t' T' ∧
      T.toList = b ++ a ∧ T'.toList = b ++ z :: a ∧ (∀ x ∈ b, compare x z ≤ 0) ∧ ∀ x ∈ a, 0 < compare x z) ∧
    (∀ z ∈ l, ∃ t' T', Ends (fun n => t.rbTreeDelete n z) t' ∧ Correct compare t' T' ∧ T'.toList = T.toList.erase z) ∧
    ∀ key, ∃ r, Ends (fun n => t.rbTreeSearch compare n key) r ∧ (∀ x, r = some x → x ∈ l ∧ compare key x = 0) ∧
      (r = none → ∀ x ∈ l, compare key x ≠ 0) := by
  obtain ⟨T, hT, hp⟩ := h.correct hc
  refine ⟨T, hT, hp, fun z hz hn => ?_, fun z hz => ?_, fun key => ?_⟩
  · obtain ⟨t', T', b, a, he, hT', hb, hb', hle, hlt, -⟩ := hT.insert hc (fun hm => hz (hp.mem_iff.mp hm)) hn
    exact ⟨t', T', b, a, he, hT', hb, hb', hle, fun x hx => (hc.flip z x).mp (hlt x hx)⟩
  · obtain ⟨t', T', he, hT', hl, -⟩ := hT.delete (hp.mem_iff.mpr hz)
    exact ⟨t', T', he, hT', hl⟩
  · obtain ⟨r, he, hs, hno⟩ := hT.search hc key
    exact ⟨r, he, fun x hx => ⟨hp.mem_iff.mp (hs x hx).1, (hs x hx).2⟩, fun hr x hx => hno hr x (hp.mem_iff.mpr hx)⟩

end

/-- Nodes that are their own keys. -/
def byNumber (a b : Nat) : Int := a - b

theorem byNumber_comparison : Comparison byNumber := by
  refine ⟨fun a b => ?_, fun a b c h h' => ?_⟩
  · unfold byNumber
    omega
  · unfold byNumber at *
    omega

/-- Two nodes are inserted; then each operation is correct. -/
theorem operations_correct_two : ∃ t T, Reach byNumber (fun _ _ => True) t [1, 2] ∧ Correct byNumber t T ∧ T.toList.Perm [1, 2] ∧
    (∃ t' T', Ends (fun n => t.rbTreeDelete n 2) t' ∧ Correct byNumber t' T' ∧ T'.toList = T.toList.erase 2) ∧
    ∃ r, Ends (fun n => t.rbTreeSearch byNumber n 1) r ∧ (r = none → ∀ x ∈ [1, 2], byNumber 1 x ≠ 0) := by
  have h0 : Reach byNumber (fun _ _ => True) (RbTree.rbTreeInit (fun _ => ⟨0, 0, 0, .red⟩) 0) [] := .init _ 0
  obtain ⟨t1, T1, b, a, he1, hT1, hb, hb1, -, -, hk1⟩ :=
    (Correct.init (fun _ => ⟨0, 0, 0, .red⟩) 0).insert byNumber_comparison (z := 2) (by decide) (by decide)
  have h1 := h0.insert (by decide) (by decide) he1
  obtain ⟨rfl, rfl⟩ := List.append_eq_nil_iff.mp hb.symm
  obtain ⟨t2, T2, -, -, he2, -⟩ := hT1.insert byNumber_comparison (z := 1) (by rw [hb1]; decide) (by rw [hk1.nil]; decide)
  have h2 := h1.insert (by decide) (by rw [hk1.nil]; decide) he2
  obtain ⟨T, hT, hp, -, hd, hs⟩ := operations_correct byNumber_comparison h2
  obtain ⟨r, hr, -, hno⟩ := hs 1
  exact ⟨t2, T, h2, hT, hp, hd 2 (by decide), r, hr, hno⟩

end Myos.Rbtree

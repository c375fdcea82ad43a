/-
  Myos.Lib.RedBlack — red-black trees edited at a place: the tree below it and the path of its
  parents up to the root. `insert` hangs a node in and repairs upwards, `delete` takes a node
  out and repairs upwards, as the loops over a tree with parent pointers do. Where such a loop
  would rotate, follow or colour the sentinel the operation is `none`.

  Proved: on a balanced tree neither operation is `none` and the result is balanced; the keys
  in order are those of before with the one key more or less, at its place in the order.
-/

import Mathlib

namespace Myos.Lib.RedBlack

inductive Color where
  | red
  | black
  deriving DecidableEq, Repr

inductive Side where
  | left
  | right
  deriving DecidableEq, Repr

def Side.flip : Side → Side
  | .left => .right
  | .right => .left

inductive Tree (α : Type*) where
  | nil
  | node (color : Color) (left : Tree α) (key : α) (right : Tree α)
  deriving Repr

/-- A node on the way up from a place, which lies on `side` of it; `sibling` is its other child. -/
structure Parent (α : Type*) where
  side : Side
  color : Color
  key : α
  sibling : Tree α

variable {α : Type*}

def Tree.color : Tree α → Color
  | .nil => .black
  | .node c _ _ _ => c

def Tree.paint (c : Color) : Tree α → Tree α
  | .nil => .nil
  | .node _ l k r => .node c l k r

def Tree.toList : Tree α → List α
  | .nil => []
  | .node _ l k r => l.toList ++ k :: r.toList

/-- The node with `near` on the given side. -/
def join : Side → Color → Tree α → α → Tree α → Tree α
  | .left, c, near, k, far => .node c near k far
  | .right, c, near, k, far => .node c far k near

/-- The tree with `t` put at the place. -/
def fill : List (Parent α) → Tree α → Tree α
  | [], t => t
  | p :: up, t => fill up (join p.side p.color t p.key p.sibling)

/-- Turns a node down to the given side; the child on its other side comes up. -/
def rotate : Side → Tree α → Option (Tree α)
  | .left, .node c a k (.node c' b k' d) => some (.node c' (.node c a k b) k' d)
  | .right, .node c (.node c' a k' b) k d => some (.node c' a k' (.node c b k d))
  | _, _ => none

/-! ## Search and insertion -/

def search (cmp : α → Ordering) : Tree α → Option α
  | .nil => none
  | .node _ l k r =>
    match cmp k with
    | .eq => some k
    | .lt => search cmp l
    | .gt => search cmp r

/-- The empty place a new key goes to. -/
def place (lt : α → α → Bool) (z : α) : Tree α → List (Parent α) → List (Parent α)
  | .nil, up => up
  | .node c l k r, up => if lt z k then place lt z l (⟨.left, c, k, r⟩ :: up) else place lt z r (⟨.right, c, k, l⟩ :: up)

/-- `z` is red; while its parent is red too the two are recoloured or turned. -/
def insertFixup : Tree α → List (Parent α) → Option (Tree α)
  | z, [] => some (z.paint .black)
  | z, [p] => if p.color = .red then none else some ((fill [p] z).paint .black)
  | z, p :: g :: up =>
    if p.color = .black then some ((fill (p :: g :: up) z).paint .black)
    else if g.sibling.color = .red then
      insertFixup (join g.side .red (join p.side .black z p.key p.sibling) g.key (g.sibling.paint .black)) up
    else
      let inner := join p.side .red z p.key p.sibling
      -- a node on the inner side is first turned out
      (if p.side = g.side then some inner else rotate g.side inner).bind fun outer =>
        (rotate g.side.flip (join g.side .red (outer.paint .black) g.key g.sibling)).map fun t =>
          (fill up t).paint .black

def insert (lt : α → α → Bool) (z : α) (t : Tree α) : Option (Tree α) :=
  insertFixup (.node .red .nil z .nil) (place lt z t [])

/-! ## Deletion -/

/-- The first node in order: its colour, key, right child and parents. -/
def leftmost : Tree α → List (Parent α) → Option (Color × α × Tree α × List (Parent α))
  | .nil, _ => none
  | .node c .nil k r, up => some (c, k, r, up)
  | .node c l k r, up => leftmost l (⟨.left, c, k, r⟩ :: up)

/-- What one round with a black sibling leaves at the parent: the lack of a black node moved
    up to it, or gone. -/
inductive Round (α : Type*) where
  | up (t : Tree α)
  | done (t : Tree α)

def Tree.near : Side → Tree α → Tree α
  | _, .nil => .nil
  | .left, .node _ l _ _ => l
  | .right, .node _ _ _ r => r

/-- The far child of the sibling is red: it is turned up and takes the parent's colour. -/
def outward (s : Side) (c : Color) (k : α) (x : Tree α) : Tree α → Option (Round α)
  | .nil => none
  | .node cw l kw r =>
    let w := Tree.node cw l kw r
    (rotate s (join s .black x k (join s c (w.near s) kw ((w.near s.flip).paint .black)))).map .done

/-- `x` on side `s` of its parent (of colour `c`, key `k`) lacks a black node; its sibling is
    black. -/
def blackRound (s : Side) (c : Color) (k : α) (x : Tree α) : Tree α → Option (Round α)
  | .nil => none
  | .node cw l kw r =>
    let w := Tree.node cw l kw r
    if (w.near s).color = .black ∧ (w.near s.flip).color = .black then some (.up (join s c x k (w.paint .red)))
    else if (w.near s.flip).color = .black then
      (rotate s.flip (join s .red ((w.near s).paint .black) kw (w.near s.flip))).bind (outward s c k x)
    else outward s c k x w

def deleteFixup : Tree α → List (Parent α) → Option (Tree α)
  | x, [] => some (x.paint .black)
  | x, p :: up =>
    if x.color = .red then some (fill (p :: up) (x.paint .black))
    else
      match p.sibling with
      | .node .red l kw r =>
        -- turned up over the parent, which is red now: the loop ends there at the latest
        let w := Tree.node .red l kw r
        let up' := ⟨p.side, .black, kw, w.near p.side.flip⟩ :: up
        match blackRound p.side .red p.key x (w.near p.side) with
        | none => none
        | some (.up t) => some (fill up' (t.paint .black))
        | some (.done t) => some ((fill up' t).paint .black)
      | w =>
        match blackRound p.side p.color p.key x w with
        | none => none
        | some (.up t) => deleteFixup t up
        | some (.done t) => some ((fill up t).paint .black)

/-- Takes the node with these children and colour out: it is spliced out, or its successor is
    and moves to its place. -/
def splice (c : Color) (l r : Tree α) (up : List (Parent α)) : Option (Tree α) :=
  match l, r with
  | .nil, r => if c = .black then deleteFixup r up else some (fill up r)
  | l, .nil => if c = .black then deleteFixup l up else some (fill up l)
  | l, r =>
    match leftmost r [] with
    | none => none
    | some (cy, y, x, down) =>
      let up' := down ++ ⟨.right, c, y, l⟩ :: up
      if cy = .black then deleteFixup x up' else some (fill up' x)

/-- Where the node with key `z` is. -/
def locate [DecidableEq α] (z : α) : Tree α → List (Parent α) → Option (Color × Tree α × Tree α × List (Parent α))
  | .nil, _ => none
  | .node c l k r, up =>
    if k = z then some (c, l, r, up)
    else (locate z l (⟨.left, c, k, r⟩ :: up)).or (locate z r (⟨.right, c, k, l⟩ :: up))

def delete [DecidableEq α] (z : α) (t : Tree α) : Option (Tree α) :=
  (locate z t []).bind fun (c, l, r, up) => splice c l r up

/-! ## The keys in order -/

/-- The keys before and behind the place. -/
def before : List (Parent α) → List α
  | [] => []
  | ⟨.left, _, _, _⟩ :: up => before up
  | ⟨.right, _, k, t⟩ :: up => before up ++ (t.toList ++ [k])

def after : List (Parent α) → List α
  | [] => []
  | ⟨.left, _, k, t⟩ :: up => k :: (t.toList ++ after up)
  | ⟨.right, _, _, _⟩ :: up => after up

@[simp] theorem nil_toList : (Tree.nil : Tree α).toList = [] := rfl

@[simp] theorem node_toList (c : Color) (l : Tree α) (k : α) (r : Tree α) :
    (Tree.node c l k r).toList = l.toList ++ k :: r.toList := rfl

@[simp] theorem paint_toList (c : Color) (t : Tree α) : (t.paint c).toList = t.toList := by
  cases t <;> rfl

theorem fill_toList (t : Tree α) (up : List (Parent α)) : (fill up t).toList = before up ++ t.toList ++ after up := by
  induction up generalizing t with
  | nil => simp [fill, before, after]
  | cons p up ih =>
    obtain ⟨s, c, k, sib⟩ := p
    rw [fill, ih]
    cases s <;> simp [join, before, after]

/-- What is put at the place matters for the order only by its keys. -/
theorem fill_congr {t t' : Tree α} (h : t.toList = t'.toList) (up : List (Parent α)) :
    (fill up t).toList = (fill up t').toList := by rw [fill_toList, fill_toList, h]

theorem join_congr {t t' u u' : Tree α} (h : t.toList = t'.toList) (hu : u.toList = u'.toList) (s : Side) (c c' : Color)
    (k : α) : (join s c t k u).toList = (join s c' t' k u').toList := by
  cases s <;> simp [join, h, hu]

theorem rotate_toList {s : Side} {t t' : Tree α} (h : rotate s t = some t') : t'.toList = t.toList := by
  cases s <;> unfold rotate at h <;> split at h <;> cases h <;> simp_all

theorem near_toList {s : Side} {c b : Color} {l r : Tree α} {k : α} :
    (join s b ((Tree.node c l k r).near s) k ((Tree.node c l k r).near s.flip)).toList = (Tree.node c l k r).toList := by
  cases s <;> rfl

theorem insertFixup_toList (z : Tree α) (up : List (Parent α)) {t : Tree α} (h : insertFixup z up = some t) :
    t.toList = (fill up z).toList := by
  induction z, up using insertFixup.induct with
  | case1 z => cases h; simp [fill]
  | case2 z p hp => rw [insertFixup, if_pos hp] at h; cases h
  | case3 z p hp => rw [insertFixup, if_neg hp] at h; cases h; simp
  | case4 z p g up hp => rw [insertFixup, if_pos hp] at h; cases h; simp
  | case5 z p g up hp hg ih =>
    rw [insertFixup, if_neg hp, if_pos hg] at h
    rw [ih h, fill, fill]
    exact fill_congr (join_congr (join_congr rfl rfl _ _ _ _) (paint_toList _ _) _ _ _ _) up
  | case6 z p g up hp hg =>
    rw [insertFixup, if_neg hp, if_neg hg] at h
    obtain ⟨outer, ho, h⟩ := Option.bind_eq_some_iff.mp h
    obtain ⟨top, ht, rfl⟩ := Option.map_eq_some_iff.mp h
    have houter : outer.toList = (join p.side .red z p.key p.sibling).toList := by
      split at ho
      · cases ho; rfl
      · exact rotate_toList ho
    rw [paint_toList, fill, fill]
    refine fill_congr ((rotate_toList ht).trans (join_congr ?_ rfl _ _ _ _)) up
    rw [paint_toList, houter]
    exact join_congr rfl rfl _ _ _ _

theorem outward_toList {s : Side} {c : Color} {k : α} {x w : Tree α} {r : Round α} (h : outward s c k x w = some r) :
    ∃ t, r = .done t ∧ t.toList = (join s c x k w).toList := by
  cases w with
  | nil => cases h
  | node cw l kw u =>
    obtain ⟨t, ht, rfl⟩ := Option.map_eq_some_iff.mp h
    refine ⟨t, rfl, (rotate_toList ht).trans (join_congr rfl ?_ _ _ _ _)⟩
    rw [← near_toList (s := s) (b := c)]
    exact join_congr rfl (paint_toList _ _) _ _ _ _

/-- The tree a round leaves, wherever it goes on from there. -/
def Round.tree : Round α → Tree α
  | .up t => t
  | .done t => t

theorem blackRound_toList {s : Side} {c : Color} {k : α} {x w : Tree α} {r : Round α}
    (h : blackRound s c k x w = some r) : r.tree.toList = (join s c x k w).toList := by
  cases w with
  | nil => cases h
  | node cw l kw u =>
    rw [blackRound] at h
    split at h
    · cases h
      exact join_congr rfl (paint_toList _ _) _ _ _ _
    · split at h
      · obtain ⟨w', hw, h⟩ := Option.bind_eq_some_iff.mp h
        obtain ⟨t, rfl, ht⟩ := outward_toList h
        refine ht.trans (join_congr rfl ?_ _ _ _ _)
        rw [rotate_toList hw, ← near_toList (s := s) (b := .red)]
        exact join_congr (paint_toList _ _) rfl _ _ _ _
      · obtain ⟨t, rfl, ht⟩ := outward_toList h
        exact ht

theorem deleteFixup_toList (up : List (Parent α)) : ∀ {x t : Tree α}, deleteFixup x up = some t →
    t.toList = (fill up x).toList := by
  induction up with
  | nil => intro x t h; cases h; simp [fill]
  | cons p up ih =>
    intro x t h
    unfold deleteFixup at h
    split at h
    · cases h
      exact fill_congr (paint_toList _ _) _
    · split at h
      · next l kw r hs =>
        have hturn : ∀ t, t.toList = (join p.side .red x p.key ((Tree.node .red l kw r).near p.side)).toList →
            (fill (⟨p.side, .black, kw, (Tree.node .red l kw r).near p.side.flip⟩ :: up) t).toList =
              (fill (p :: up) x).toList := by
          intro t ht
          rw [fill, fill, hs]
          refine fill_congr ?_ up
          cases hp : p.side <;> rw [hp] at ht <;> simp [join, Tree.near, Side.flip] at ht ⊢ <;> simp [ht]
        dsimp only at h
        split at h
        · cases h
        · next hr => cases h; exact hturn _ ((paint_toList _ _).trans (blackRound_toList hr))
        · next hr => cases h; exact (paint_toList _ _).trans (hturn _ (blackRound_toList hr))
      · split at h
        · cases h
        · next hr =>
          rw [ih h, fill]
          exact fill_congr (blackRound_toList hr) up
        · next hr =>
          cases h
          rw [paint_toList, fill]
          exact fill_congr (blackRound_toList hr) up

/-! ## Balance -/

/-- No red node has a red child, and every way down passes `n` black nodes. -/
inductive Balanced : Tree α → Color → Nat → Prop where
  | nil : Balanced .nil .black 0
  | red {l r : Tree α} {k : α} {n : Nat} : Balanced l .black n → Balanced r .black n → Balanced (.node .red l k r) .red n
  | black {l r : Tree α} {k : α} {c c' : Color} {n : Nat} : Balanced l c n → Balanced r c' n →
      Balanced (.node .black l k r) .black (n + 1)

/-- A balanced tree with a place in it for one that is balanced with `n` and, if the parent is
    red or missing, black. -/
inductive Hole : List (Parent α) → Color → Nat → Prop where
  | root {n : Nat} : Hole [] .black n
  | red {s : Side} {k : α} {t : Tree α} {up : List (Parent α)} {n : Nat} : Balanced t .black n → Hole up .red n →
      Hole (⟨s, .red, k, t⟩ :: up) .black n
  | black {s : Side} {k : α} {t : Tree α} {up : List (Parent α)} {c c' : Color} {n : Nat} : Balanced t c' n →
      Hole up .black (n + 1) → Hole (⟨s, .black, k, t⟩ :: up) c n

theorem Balanced.color {t : Tree α} {c : Color} {n : Nat} (h : Balanced t c n) : t.color = c := by cases h <;> rfl

theorem Balanced.paint {t : Tree α} {c : Color} {n : Nat} (h : Balanced t c n) :
    ∃ n', Balanced (t.paint .black) .black n' := by
  cases h with
  | nil => exact ⟨0, .nil⟩
  | red hl hr => exact ⟨_, .black hl hr⟩
  | black hl hr => exact ⟨_, .black hl hr⟩

theorem Balanced.paint_of_black {t : Tree α} {n : Nat} (h : Balanced t .black n) : t.paint .black = t := by
  cases h <;> rfl

theorem Balanced.joinRed {a b : Tree α} {n : Nat} (ha : Balanced a .black n) (hb : Balanced b .black n) (s : Side) (k : α) :
    Balanced (join s .red a k b) .red n := by
  cases s
  · exact .red ha hb
  · exact .red hb ha

theorem Balanced.joinBlack {a b : Tree α} {c c' : Color} {n : Nat} (ha : Balanced a c n) (hb : Balanced b c' n) (s : Side)
    (k : α) : Balanced (join s .black a k b) .black (n + 1) := by
  cases s
  · exact .black ha hb
  · exact .black hb ha

theorem Hole.black_of {up : List (Parent α)} {c : Color} {n : Nat} (h : Hole up c n) : Hole up .black n := by
  cases h with
  | root => exact .root
  | red ht hu => exact .red ht hu
  | black ht hu => exact .black ht hu

theorem Hole.filled {up : List (Parent α)} {c : Color} {n : Nat} (h : Hole up c n) :
    ∀ {t : Tree α}, Balanced t c n → ∃ n', Balanced (fill up t) .black n' := by
  induction h with
  | root => intro t ht; exact ⟨_, ht⟩
  | red hs _ ih => intro t ht; exact ih (ht.joinRed hs _ _)
  | black hs _ ih => intro t ht; exact ih (ht.joinBlack hs _ _)

theorem Hole.filled_painted {up : List (Parent α)} {c : Color} {n : Nat} (h : Hole up c n) {t : Tree α}
    (ht : Balanced t c n) : ∃ n', Balanced ((fill up t).paint .black) .black n' := by
  obtain ⟨n', h'⟩ := h.filled ht
  exact ⟨n', by rw [h'.paint_of_black]; exact h'⟩

theorem rotate_flip (s : Side) (c c' : Color) (a b d : Tree α) (k k' : α) :
    rotate s.flip (join s c (join s c' a k b) k' d) = some (join s c' a k (join s c b k' d)) := by
  cases s <;> rfl

theorem rotate_join (s : Side) (c c' : Color) (a b d : Tree α) (k k' : α) :
    rotate s (join s c a k (join s c' b k' d)) = some (join s c' (join s c a k b) k' d) := by
  cases s <;> rfl

/-- A node that is an inner grandchild is turned out. -/
theorem rotate_inner {s s' : Side} (hs : s ≠ s') (c c' : Color) (a b d : Tree α) (k k' : α) :
    rotate s' (join s c (join s c' a k b) k' d) = some (join s' c' (join s' c d k' b) k a) := by
  cases s <;> cases s' <;> first | exact absurd rfl hs | rfl

/-- A red node can be seen with its near child on either side. -/
theorem Balanced.redNode {z : Tree α} {n : Nat} (h : Balanced z .red n) (s : Side) :
    ∃ a k b, z = join s .red a k b ∧ Balanced a .black n ∧ Balanced b .black n := by
  cases h with
  | red hl hr =>
    cases s
    · exact ⟨_, _, _, rfl, hl, hr⟩
    · exact ⟨_, _, _, rfl, hr, hl⟩

theorem insertFixup_balanced (z : Tree α) (up : List (Parent α)) : ∀ {c : Color} {n : Nat}, Balanced z .red n →
    Hole up c n → ∃ t n', insertFixup z up = some t ∧ Balanced t .black n' := by
  induction z, up using insertFixup.induct with
  | case1 z =>
    intro c n hz _
    obtain ⟨n', h'⟩ := hz.paint
    exact ⟨_, n', rfl, h'⟩
  | case2 z p hp =>
    intro c n _ hu
    cases hu with
    | red _ hu => cases hu
    | black => cases hp
  | case3 z p hp =>
    intro c n hz hu
    cases hu with
    | red => exact absurd rfl hp
    | black ht hu =>
      obtain ⟨n', h'⟩ := (Hole.black ht hu).filled_painted hz
      exact ⟨_, n', by rw [insertFixup, if_neg hp], h'⟩
  | case4 z p g up hp =>
    intro c n hz hu
    cases hu with
    | red => cases hp
    | black ht hu =>
      obtain ⟨n', h'⟩ := (Hole.black ht hu).filled_painted hz
      exact ⟨_, n', by rw [insertFixup, if_pos hp], h'⟩
  | case5 z p g up hp hg ih =>
    intro c n hz hu
    cases hu with
    | black => exact absurd rfl hp
    | red ht hu =>
      cases hu with
      | @black _ _ t' _ _ _ _ hs hu =>
        rw [insertFixup, if_neg hp, if_pos hg]
        have hs' : Balanced (t'.paint .black) .black (n + 1) := by
          cases hs with
          | nil => cases hg
          | red hl hr => exact .black hl hr
          | black => cases hg
        exact ih ((hz.joinBlack ht _ _).joinRed hs' _ _) hu
  | case6 z p g up hp hg =>
    intro c n hz hu
    cases hu with
    | black => exact absurd rfl hp
    | @red s k t _ _ ht hu =>
      cases hu with
      | @black s' k' t' up c _ _ hs hu =>
        rw [insertFixup, if_neg hp, if_neg hg]
        have hs' : Balanced t' .black n := by
          cases hs with
          | nil => exact .nil
          | red => exact absurd rfl hg
          | black hl hr => exact .black hl hr
        dsimp only
        -- the outer of the two red nodes comes up over both others
        have hout : ∃ o l j r, (if s = s' then some (join s .red z k t) else rotate s' (join s .red z k t)) = some o ∧
            o = join s' .red l j r ∧ Balanced l .red n ∧ Balanced r .black n := by
          by_cases e : s = s'
          · subst e
            exact ⟨_, z, k, t, by rw [if_pos rfl], rfl, hz, ht⟩
          · rw [if_neg e]
            obtain ⟨a, j, b, rfl, ha, hb⟩ := hz.redNode s
            exact ⟨_, _, _, _, rotate_inner e .red .red a b t j k, rfl, ht.joinRed hb _ _, ha⟩
        obtain ⟨o, l, j, r, ho, rfl, hl, hr⟩ := hout
        rw [ho, Option.bind_some]
        have hpaint : (join s' .red l j r).paint .black = join s' .black l j r := by cases s' <;> rfl
        rw [hpaint, rotate_flip, Option.map_some]
        obtain ⟨n', h'⟩ := hu.filled_painted (hl.joinBlack (hr.joinRed hs' s' k') s' j)
        exact ⟨_, n', rfl, h'⟩

/-- A tree that lacks one black node where one of `n + 1` belongs; painting a red root black
    makes up for it. -/
def Short (t : Tree α) (n : Nat) : Prop :=
  Balanced t .black n ∨ t.color = .red ∧ Balanced (t.paint .black) .black (n + 1)

/-- The black height of a node over children with `n`. -/
def rise : Color → Nat → Nat
  | .red, n => n
  | .black, n => n + 1

theorem Balanced.node {a b : Tree α} {n : Nat} (ha : Balanced a .black n) (hb : Balanced b .black n) (s : Side) (c : Color)
    (k : α) : Balanced (join s c a k b) c (rise c n) := by
  cases c
  · exact ha.joinRed hb s k
  · exact ha.joinBlack hb s k

/-- A black node can be seen with its near child on either side. -/
theorem Balanced.blackNode {w : Tree α} {n : Nat} (h : Balanced w .black (n + 1)) :
    ∃ cl cr l k r, w = .node .black l k r ∧ Balanced l cl n ∧ Balanced r cr n := by
  cases h with
  | black hl hr => exact ⟨_, _, _, _, _, rfl, hl, hr⟩

theorem near_join (s : Side) (c : Color) (a b : Tree α) (k : α) : (join s c a k b).near s = a := by cases s <;> rfl

theorem far_join (s : Side) (c : Color) (a b : Tree α) (k : α) : (join s c a k b).near s.flip = b := by cases s <;> rfl

theorem outward_join (s : Side) (c cw : Color) (k kw : α) (x near far : Tree α) :
    outward s c k x (join s cw near kw far) = some (.done (join s c (join s .black x k near) kw (far.paint .black))) := by
  cases s <;> rfl

theorem outward_balanced {s : Side} {c cn : Color} {x near far : Tree α} {n : Nat} (hx : Balanced x .black n)
    (hn : Balanced near cn n) (hf : Balanced far .red n) (k kw : α) :
    Balanced (join s c (join s .black x k near) kw (far.paint .black)) c (rise c (n + 1)) := by
  have hf' : Balanced (far.paint .black) .black (n + 1) := by
    cases hf with
    | red hl hr => exact .black hl hr
  exact (hx.joinBlack hn s k).node hf' s c kw

theorem blackRound_join (s : Side) (c cw : Color) (k kw : α) (x near far : Tree α) :
    blackRound s c k x (join s cw near kw far) =
      if near.color = .black ∧ far.color = .black then some (.up (join s c x k (join s .red near kw far)))
      else if far.color = .black then (rotate s.flip (join s .red (near.paint .black) kw far)).bind (outward s c k x)
      else outward s c k x (join s cw near kw far) := by
  cases s <;> rfl

theorem blackRound_balanced {s : Side} {c : Color} {k : α} {x w : Tree α} {n : Nat} (hx : Balanced x .black n)
    (hw : Balanced w .black (n + 1)) : (∃ t, blackRound s c k x w = some (.up t) ∧ Short t (rise c n) ∧ (c = .red → t.color = .red)) ∨
      ∃ t, blackRound s c k x w = some (.done t) ∧ Balanced t c (rise c (n + 1)) := by
  obtain ⟨cn, cf, near, kw, far, rfl, hn, hf⟩ : ∃ cn cf near kw far, w = join s .black near kw far ∧
      Balanced near cn n ∧ Balanced far cf n := by
    obtain ⟨cl, cr, l, kw, r, rfl, hl, hr⟩ := hw.blackNode
    cases s
    · exact ⟨_, _, l, kw, r, rfl, hl, hr⟩
    · exact ⟨_, _, r, kw, l, rfl, hr, hl⟩
  rw [blackRound_join, hn.color, hf.color]
  by_cases hb : cn = .black ∧ cf = .black
  · obtain ⟨rfl, rfl⟩ := hb
    rw [if_pos ⟨rfl, rfl⟩]
    have hw' := hn.joinRed hf s kw
    refine Or.inl ⟨_, rfl, ?_, fun e => by subst e; cases s <;> rfl⟩
    cases c
    · exact Or.inr ⟨by cases s <;> rfl, by have := hx.joinBlack hw' s k; cases s <;> exact this⟩
    · exact Or.inl (hx.joinBlack hw' s k)
  · rw [if_neg hb]
    refine Or.inr ?_
    cases cf with
    | red =>
      rw [if_neg (by decide), outward_join]
      exact ⟨_, rfl, outward_balanced hx hn hf k kw⟩
    | black =>
      rw [if_pos rfl]
      have hr : Balanced near .red n := by
        cases cn with
        | red => exact hn
        | black => exact absurd ⟨rfl, rfl⟩ hb
      obtain ⟨a, j, b, rfl, ha, hb'⟩ := hr.redNode s
      have hpaint : (join s .red a j b).paint .black = join s .black a j b := by cases s <;> rfl
      rw [hpaint, rotate_flip, Option.bind_some, outward_join]
      exact ⟨_, rfl, outward_balanced hx ha (hb'.joinRed hf s kw) k j⟩

theorem Short.painted {x : Tree α} {n : Nat} (h : Short x n) : ∃ n', Balanced (x.paint .black) .black n' :=
  h.elim (fun h => h.paint) fun h => ⟨_, h.2⟩

theorem deleteFixup_balanced (up : List (Parent α)) : ∀ {x : Tree α} {n : Nat}, Short x n → Hole up .black (n + 1) →
    ∃ t n', deleteFixup x up = some t ∧ Balanced t .black n' := by
  induction up with
  | nil =>
    intro x n hx _
    obtain ⟨n', h'⟩ := hx.painted
    exact ⟨_, n', rfl, h'⟩
  | cons p up ih =>
    intro x n hx hu
    rw [deleteFixup]
    rcases hx with hx | ⟨hred, hx⟩
    · rw [if_neg (by rw [hx.color]; decide)]
      -- with a black sibling: one round, and perhaps on from the parent
      have hround : ∀ {s : Side} {c : Color} {k : α} {w : Tree α}, Balanced w .black (n + 1) → Hole up c (rise c (n + 1)) →
          ∃ t n', (match blackRound s c k x w with
            | none => none
            | some (.up t) => deleteFixup t up
            | some (.done t) => some ((fill up t).paint .black)) = some t ∧ Balanced t .black n' := by
        intro s c k w hw hup
        rcases blackRound_balanced (s := s) (c := c) (k := k) hx hw with ⟨t, hr, ht, -⟩ | ⟨t, hr, ht⟩ <;> rw [hr]
        · exact ih ht (by cases c <;> exact hup.black_of)
        · obtain ⟨n', h'⟩ := hup.filled_painted ht
          exact ⟨_, n', rfl, h'⟩
      cases hu with
      | @red s k w _ _ hw hup =>
        obtain ⟨_, _, l, kw, r, rfl, -, -⟩ := hw.blackNode
        exact hround hw hup
      | @black s k w _ _ c' _ hw hup =>
        cases hw with
        | black hl hr => exact hround (.black hl hr) hup
        | @red l r kw _ hl hr =>
          have hnear : Balanced ((Tree.node .red l kw r).near s) .black (n + 1) := by cases s <;> assumption
          have hfar : Balanced ((Tree.node .red l kw r).near s.flip) .black (n + 1) := by cases s <;> assumption
          dsimp only
          rcases blackRound_balanced (s := s) (c := .red) (k := k) hx hnear with ⟨t, hr, ht, hred⟩ | ⟨t, hr, ht⟩ <;> rw [hr]
          · have ht' := (ht.resolve_left fun h => by have := h.color; rw [hred rfl] at this; cases this).2
            obtain ⟨n', h'⟩ := (Hole.black hfar hup).filled ht'
            exact ⟨_, n', rfl, h'⟩
          · obtain ⟨n', h'⟩ := (Hole.black hfar hup).filled_painted ht
            exact ⟨_, n', rfl, h'⟩
    · rw [if_pos hred]
      obtain ⟨n', h'⟩ := hu.filled hx
      exact ⟨_, n', rfl, h'⟩

/-! ## Ordered trees -/

/-- A balanced tree whose keys stand in the order `r`. -/
structure Ordered (r : α → α → Prop) (t : Tree α) : Prop where
  balanced : ∃ n, Balanced t .black n
  sorted : t.toList.Pairwise r

theorem Ordered.nil (r : α → α → Prop) : Ordered r .nil := ⟨⟨0, .nil⟩, List.Pairwise.nil⟩

section insert

variable {r : α → α → Prop} {lt : α → α → Bool} {z : α}

theorem place_hole : ∀ {t : Tree α} {up : List (Parent α)} {c : Color} {n : Nat}, Balanced t c n → Hole up c n →
    Hole (place lt z t up) .black 0 := by
  intro t
  induction t with
  | nil => intro up c n ht hu; cases ht; exact hu
  | node c l k r ihl ihr =>
    intro up c n ht hu
    rw [place]
    cases ht with
    | red hl hr =>
      split
      · exact ihl hl (.red hr hu)
      · exact ihr hr (.red hl hu)
    | black hl hr =>
      split
      · exact ihl hl (.black hr hu)
      · exact ihr hr (.black hl hu)

theorem place_keys (t : Tree α) : ∀ up : List (Parent α),
    before (place lt z t up) ++ after (place lt z t up) = before up ++ t.toList ++ after up := by
  induction t with
  | nil => intro up; simp [place]
  | node c l k r ihl ihr =>
    intro up
    rw [place]
    split
    · rw [ihl]; simp [before, after]
    · rw [ihr]; simp [before, after]

/-- On the way down `z` stays above all that is left behind on the left and below all on the right. -/
theorem place_order (htr : ∀ a b c, r a b → r b c → r a c) (t : Tree α) : ∀ up : List (Parent α),
    t.toList.Pairwise r → (∀ k ∈ t.toList, if lt z k then r z k else r k z) → (∀ a ∈ before up, r a z) →
    (∀ a ∈ after up, r z a) → (∀ a ∈ before (place lt z t up), r a z) ∧ ∀ a ∈ after (place lt z t up), r z a := by
  induction t with
  | nil => intro up _ _ hb ha; exact ⟨hb, ha⟩
  | node c l k u ihl ihr =>
    intro up hs hz hb ha
    rw [node_toList, List.pairwise_append, List.pairwise_cons] at hs
    obtain ⟨hl, ⟨hku, hu⟩, hlk⟩ := hs
    have hk := hz k (by simp)
    rw [place]
    split
    · next hlt =>
      rw [if_pos hlt] at hk
      refine ihl _ hl (fun a ha => hz a (by simp [ha])) hb fun a h => ?_
      rcases List.mem_cons.mp h with rfl | h
      · exact hk
      · exact (List.mem_append.mp h).elim (fun h => htr _ _ _ hk (hku a h)) (ha a)
    · next hlt =>
      rw [if_neg hlt] at hk
      refine ihr _ hu (fun a ha => hz a (by simp [ha])) (fun a h => ?_) ha
      rcases List.mem_append.mp h with h | h
      · exact hb a h
      · rcases List.mem_append.mp h with h | h
        · exact htr _ _ _ (hlk a h k (by simp)) hk
        · rw [List.mem_singleton.mp h]; exact hk

/-- In a sorted tree the way down parts the keys `z` is less than from the others. -/
theorem place_cut (hm : ∀ a b, r a b → lt z a = true → lt z b = true) (t : Tree α) : ∀ up : List (Parent α),
    t.toList.Pairwise r → (∀ a ∈ before up, lt z a = false) → (∀ a ∈ after up, lt z a = true) →
    (∀ a ∈ before (place lt z t up), lt z a = false) ∧ ∀ a ∈ after (place lt z t up), lt z a = true := by
  induction t with
  | nil => intro up _ hb ha; exact ⟨hb, ha⟩
  | node c l k u ihl ihr =>
    intro up hs hb ha
    rw [node_toList, List.pairwise_append, List.pairwise_cons] at hs
    obtain ⟨hl, ⟨hku, hu⟩, hlk⟩ := hs
    rw [place]
    by_cases hlt : lt z k = true
    · rw [if_pos hlt]
      refine ihl _ hl hb fun a h => ?_
      rcases List.mem_cons.mp h with rfl | h
      · exact hlt
      · exact (List.mem_append.mp h).elim (fun h => hm _ _ (hku a h) hlt) (ha a)
    · rw [if_neg hlt]
      refine ihr _ hu (fun a h => ?_) ha
      rcases List.mem_append.mp h with h | h
      · exact hb a h
      refine Bool.eq_false_iff.mpr fun hz => hlt ?_
      rcases List.mem_append.mp h with h | h
      · exact hm _ _ (hlk a h k (by simp)) hz
      · exact List.mem_singleton.mp h ▸ hz

/-- The keys after an insertion: `z` between those before its place and those behind. -/
theorem insert_toList {t t' : Tree α} (h : insert lt z t = some t') :
    t.toList = before (place lt z t []) ++ after (place lt z t []) ∧
      t'.toList = before (place lt z t []) ++ z :: after (place lt z t []) := by
  have hl := insertFixup_toList _ _ h
  rw [fill_toList] at hl
  refine ⟨?_, by rw [hl]; simp⟩
  rw [place_keys]
  simp [before, after]

/-- Insertion succeeds and puts the new key at its place in the order. -/
theorem Ordered.insert {t : Tree α} (h : Ordered r t) (htr : ∀ a b c, r a b → r b c → r a c)
    (hz : ∀ k ∈ t.toList, if lt z k then r z k else r k z) :
    ∃ t', RedBlack.insert lt z t = some t' ∧ Ordered r t' ∧ t'.toList.Perm (z :: t.toList) := by
  obtain ⟨n, hb⟩ := h.balanced
  have hh : Hole (place lt z t []) .black 0 := place_hole hb .root
  obtain ⟨t', n', hi, hb'⟩ := insertFixup_balanced _ _ (.red .nil .nil) hh
  have hkeys : before (place lt z t []) ++ after (place lt z t []) = _ := place_keys t []
  have ho : (∀ a ∈ before (place lt z t []), r a z) ∧ ∀ a ∈ after (place lt z t []), r z a :=
    place_order htr t [] h.sorted hz (by simp [before]) (by simp [after])
  obtain ⟨ho1, ho2⟩ := ho
  have hlist := insertFixup_toList _ _ hi
  rw [fill_toList] at hlist
  simp only [before, after, List.nil_append, List.append_nil] at hkeys
  generalize before (place lt z t []) = b at *
  generalize after (place lt z t []) = a at *
  simp only [node_toList, nil_toList, List.nil_append, List.append_assoc, List.cons_append] at hlist
  refine ⟨t', hi, ⟨⟨n', hb'⟩, ?_⟩, ?_⟩
  · have hs := h.sorted
    rw [← hkeys, List.pairwise_append] at hs
    rw [hlist, List.pairwise_append, List.pairwise_cons]
    refine ⟨hs.1, ⟨ho2, hs.2.1⟩, fun x hx y hy => ?_⟩
    rcases List.mem_cons.mp hy with rfl | hy
    · exact ho1 x hx
    · exact hs.2.2 x hx y hy
  · rw [hlist, ← hkeys]
    exact List.perm_middle

end insert

/-! ## Search -/

theorem search_mem {cmp : α → Ordering} {k : α} : ∀ {t : Tree α}, search cmp t = some k → k ∈ t.toList ∧ cmp k = .eq := by
  intro t h
  induction t with
  | nil => cases h
  | node c l j r ihl ihr =>
    rw [search] at h
    split at h
    · next he => cases h; exact ⟨by simp, he⟩
    · exact ⟨by simp [(ihl h).1], (ihl h).2⟩
    · exact ⟨by simp [(ihr h).1], (ihr h).2⟩

/-- The search misses no key of a sorted tree. -/
theorem search_none {r : α → α → Prop} {cmp : α → Ordering} (hlt : ∀ a b, r a b → cmp a = .lt → cmp b = .lt)
    (hgt : ∀ a b, r a b → cmp b = .gt → cmp a = .gt) : ∀ {t : Tree α}, t.toList.Pairwise r → search cmp t = none →
    ∀ k ∈ t.toList, cmp k ≠ .eq := by
  intro t
  induction t with
  | nil => intro _ _ k hk; cases hk
  | node c l j u ihl ihr =>
    intro hs h k hk
    rw [node_toList, List.pairwise_append, List.pairwise_cons] at hs
    obtain ⟨hl, ⟨hju, hu⟩, hlj⟩ := hs
    rw [search] at h
    rcases List.mem_append.mp hk with hk | hk
    · have hkj := hlj k hk j (by simp)
      split at h
      · cases h
      · exact ihl hl h k hk
      · next hj => rw [hgt _ _ hkj hj]; decide
    rcases List.mem_cons.mp hk with rfl | hk
    · split at h
      · cases h
      · next hj => rw [hj]; decide
      · next hj => rw [hj]; decide
    · split at h
      · cases h
      · next hj => rw [hlt _ _ (hju k hk) hj]; decide
      · exact ihr hu h k hk

section delete

/-- A node without left child is spliced out. -/
theorem unlink_balanced {c : Color} {k : α} {x : Tree α} {up : List (Parent α)} {n : Nat}
    (hb : Balanced (.node c .nil k x) c n) (hu : Hole up c n) :
    ∃ t n', (if c = .black then deleteFixup x up else some (fill up x)) = some t ∧ Balanced t .black n' ∧
      t.toList = (fill up x).toList := by
  cases hb with
  | red hl hx =>
    obtain ⟨n', h'⟩ := hu.black_of.filled hx
    exact ⟨_, n', by rw [if_neg (by decide)], h', rfl⟩
  | @black _ _ _ _ c' _ hl hx =>
    cases hl
    have hs : Short x 0 := by
      cases hx with
      | nil => exact Or.inl .nil
      | red hl hr => exact Or.inr ⟨rfl, .black hl hr⟩
    obtain ⟨t, n', ht, h'⟩ := deleteFixup_balanced up hs hu
    exact ⟨t, n', by rw [if_pos rfl]; exact ht, h', deleteFixup_toList up ht⟩

/-- The way down to the first node of a tree, and what is put there. -/
theorem leftmost_spec : ∀ {t : Tree α} {down0 down : List (Parent α)} {cy : Color} {y : α} {x : Tree α},
    leftmost t down0 = some (cy, y, x, down) → ∀ up : List (Parent α),
      fill (down ++ up) (.node cy .nil y x) = fill (down0 ++ up) t ∧ before (down ++ up) = before (down0 ++ up) ∧
      ∀ c n, Balanced t c n → Hole (down0 ++ up) c n → ∃ m, Balanced (.node cy .nil y x) cy m ∧ Hole (down ++ up) cy m := by
  intro t
  induction t with
  | nil => intro _ _ _ _ _ h; cases h
  | node c l k r ihl _ =>
    intro down0 down cy y x h up
    cases l with
    | nil =>
      cases h
      refine ⟨rfl, rfl, fun c n hb hu => ?_⟩
      have := hb.color
      subst this
      exact ⟨n, hb, hu⟩
    | node c' l' k' r' =>
      obtain ⟨h1, h2, h3⟩ := ihl h up
      refine ⟨h1, h2, fun c0 n hb hu => ?_⟩
      cases hb with
      | red hl hr => exact h3 _ _ hl (.red hr hu)
      | black hl hr => exact h3 _ _ hl (.black hr hu)

theorem leftmost_node (c : Color) (l : Tree α) (k : α) (r : Tree α) :
    ∀ up : List (Parent α), ∃ cy y x down, leftmost (.node c l k r) up = some (cy, y, x, down) := by
  induction l generalizing c k r with
  | nil => intro up; exact ⟨c, k, r, up, rfl⟩
  | node c' l' k' r' ih _ => intro up; exact ih c' k' r' _

theorem splice_balanced {c : Color} {l r : Tree α} {z : α} {up : List (Parent α)} {n : Nat}
    (hb : Balanced (.node c l z r) c n) (hu : Hole up c n) :
    ∃ t n', splice c l r up = some t ∧ Balanced t .black n' ∧
      t.toList = before up ++ (l.toList ++ r.toList) ++ after up := by
  cases l with
  | nil =>
    obtain ⟨t, n', ht, h', hl⟩ := unlink_balanced hb hu
    exact ⟨t, n', ht, h', by rw [hl, fill_toList]; rfl⟩
  | node c1 l1 k1 r1 =>
    cases r with
    | nil =>
      have hb' : Balanced (.node c .nil z (.node c1 l1 k1 r1)) c n := by
        cases hb with
        | red hl hr => exact .red hr hl
        | black hl hr => exact .black hr hl
      obtain ⟨t, n', ht, h', hl⟩ := unlink_balanced hb' hu
      exact ⟨t, n', ht, h', by rw [hl, fill_toList, nil_toList, List.append_nil]⟩
    | node c2 l2 k2 r2 =>
      obtain ⟨cy, y, x, down, hm⟩ := leftmost_node c2 l2 k2 r2 []
      obtain ⟨h1, h2, h3⟩ := leftmost_spec hm (⟨.right, c, y, .node c1 l1 k1 r1⟩ :: up)
      rw [List.nil_append] at h1 h2 h3
      have hq : ∃ m, Balanced (.node cy .nil y x) cy m ∧ Hole (down ++ ⟨.right, c, y, .node c1 l1 k1 r1⟩ :: up) cy m := by
        cases hb with
        | red hl hr => exact h3 _ _ hr (.red hl hu)
        | black hl hr => exact h3 _ _ hr (.black hl hu)
      obtain ⟨m, hy, hq⟩ := hq
      obtain ⟨t, n', ht, h', hl⟩ := unlink_balanced hy hq
      refine ⟨t, n', by simp only [splice, hm]; exact ht, h', ?_⟩
      -- the successor stands where the node stood, and its old place holds the rest
      have hk := congrArg Tree.toList h1
      rw [fill_toList, fill_toList, h2] at hk
      rw [hl, fill_toList, h2]
      simp only [before, after, node_toList, nil_toList, List.append_assoc, List.nil_append, List.cons_append,
        List.append_cancel_left_eq, List.cons.injEq, true_and] at hk ⊢
      rw [hk]

variable [DecidableEq α] {z : α}

theorem locate_sound : ∀ {t : Tree α} {up up' : List (Parent α)} {c : Color} {l r : Tree α},
    locate z t up = some (c, l, r, up') → fill up' (.node c l z r) = fill up t ∧
      ∀ c0 n, Balanced t c0 n → Hole up c0 n → ∃ m, Balanced (.node c l z r) c m ∧ Hole up' c m := by
  intro t
  induction t with
  | nil => intro _ _ _ _ _ h; cases h
  | node c0 l0 k r0 ihl ihr =>
    intro up up' c l r h
    rw [locate] at h
    split at h
    · next e =>
      cases h
      subst e
      refine ⟨rfl, fun c0 n hb hu => ?_⟩
      have := hb.color
      subst this
      exact ⟨n, hb, hu⟩
    · rcases Option.or_eq_some_iff.mp h with h | ⟨-, h⟩
      · obtain ⟨h1, h2⟩ := ihl h
        refine ⟨h1, fun c1 n hb hu => ?_⟩
        cases hb with
        | red hl hr => exact h2 _ _ hl (.red hr hu)
        | black hl hr => exact h2 _ _ hl (.black hr hu)
      · obtain ⟨h1, h2⟩ := ihr h
        refine ⟨h1, fun c1 n hb hu => ?_⟩
        cases hb with
        | red hl hr => exact h2 _ _ hr (.red hl hu)
        | black hl hr => exact h2 _ _ hr (.black hl hu)

theorem locate_of_mem : ∀ {t : Tree α}, z ∈ t.toList → ∀ up : List (Parent α), (locate z t up).isSome := by
  intro t
  induction t with
  | nil => intro h; cases h
  | node c l k r ihl ihr =>
    intro h up
    rw [locate]
    split
    · rfl
    · next e =>
      rw [Option.isSome_or, Bool.or_eq_true]
      rcases List.mem_append.mp h with h | h
      · exact Or.inl (ihl h _)
      · exact Or.inr (ihr ((List.mem_cons.mp h).resolve_left fun e' => e e'.symm) _)

/-- Deletion of a key of the tree succeeds and takes it out from between the others. -/
theorem Ordered.delete_cut {r : α → α → Prop} {t : Tree α} (h : Ordered r t) (hz : z ∈ t.toList) :
    ∃ t' b a, RedBlack.delete z t = some t' ∧ Ordered r t' ∧ t.toList = b ++ z :: a ∧ t'.toList = b ++ a := by
  obtain ⟨n, hb⟩ := h.balanced
  obtain ⟨⟨c, l, u, up⟩, hl⟩ := Option.isSome_iff_exists.mp (locate_of_mem hz [])
  obtain ⟨h1, h2⟩ := locate_sound hl
  obtain ⟨m, hm, hu⟩ := h2 _ _ hb .root
  obtain ⟨t', n', ht, h', hk⟩ := splice_balanced hm hu
  have ht0 : t.toList = (before up ++ l.toList) ++ z :: (u.toList ++ after up) := by
    have : t.toList = before up ++ (l.toList ++ z :: u.toList) ++ after up := by
      rw [← node_toList c, ← fill_toList, h1]
      rfl
    rw [this]
    simp only [List.append_assoc, List.cons_append]
  have hk' : t'.toList = (before up ++ l.toList) ++ (u.toList ++ after up) := by
    rw [hk]
    simp only [List.append_assoc]
  have hsub : t'.toList.Sublist t.toList := by
    rw [hk', ht0]
    exact (List.Sublist.refl _).append (List.sublist_cons_self ..)
  exact ⟨t', _, _, by rw [RedBlack.delete, hl]; exact ht, ⟨⟨n', h'⟩, h.sorted.sublist hsub⟩, ht0, hk'⟩

/-- Deletion of a key of the tree succeeds and takes out this one key. -/
theorem Ordered.delete {r : α → α → Prop} {t : Tree α} (h : Ordered r t) (hz : z ∈ t.toList) :
    ∃ t', RedBlack.delete z t = some t' ∧ Ordered r t' ∧ t.toList.Perm (z :: t'.toList) := by
  obtain ⟨t', b, a, hd, ho, ht, ht'⟩ := h.delete_cut hz
  refine ⟨t', hd, ho, ?_⟩
  rw [ht, ht']
  exact List.perm_middle

end delete

end Myos.Lib.RedBlack

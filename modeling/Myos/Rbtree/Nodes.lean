/-
  Myos.Rbtree.Nodes — the red-black tree of `kernel/ds/rbtree.c`: nodes with parent, left and
  right pointers in memory.

  A pointer is an element of `α`; the memory has a node at each. The leaves and the parent of
  the root are the one node `nil`. The mirrored halves of the code are one definition over the
  side; a loop has a number of rounds it may take, and is `none` when they are used up.
-/

import Mathlib
import Myos.Lib.RedBlack

namespace Myos.Rbtree

open Myos.Lib.RedBlack

structure RbNode (α : Type*) where
  parent : α
  left : α
  right : α
  color : Color
  deriving DecidableEq, Repr

/-- `rb_tree_t` and the memory of the nodes; `compare` is an argument of the operations. -/
structure RbTree (α : Type*) where
  node : α → RbNode α
  root : α
  nil : α

variable {α : Type*} [DecidableEq α]

def RbNode.child (n : RbNode α) : Side → α
  | .left => n.left
  | .right => n.right

def RbNode.withChild (n : RbNode α) : Side → α → RbNode α
  | .left, x => { n with left := x }
  | .right, x => { n with right := x }

namespace RbTree

def parent (t : RbTree α) (x : α) : α := (t.node x).parent
def child (t : RbTree α) (s : Side) (x : α) : α := (t.node x).child s
def color (t : RbTree α) (x : α) : Color := (t.node x).color

def setNode (t : RbTree α) (x : α) (n : RbNode α) : RbTree α := { t with node := Function.update t.node x n }

def setParent (t : RbTree α) (x p : α) : RbTree α := t.setNode x { t.node x with parent := p }
def setChild (t : RbTree α) (s : Side) (x c : α) : RbTree α := t.setNode x ((t.node x).withChild s c)
def setColor (t : RbTree α) (x : α) (c : Color) : RbTree α := t.setNode x { t.node x with color := c }

/-- `rb_tree_init`; `kmalloc` has answered `nil`, whatever the memory holds elsewhere. -/
def rbTreeInit (memory : α → RbNode α) (nil : α) : RbTree α :=
  { node := Function.update memory nil ⟨nil, nil, nil, .black⟩, root := nil, nil := nil }

/-! ## Ways through the tree -/

/-- `rb_tree_min` and `rb_tree_max`; `rbNil` is `RB_NIL(tree)`. -/
def farthest (s : Side) (rbNil : α) (t : RbTree α) : (fuel : Nat) → α → Option α
  | 0, _ => none
  | fuel + 1, x => if t.child s x ≠ rbNil then farthest s rbNil t fuel (t.child s x) else some x

def rbTreeMin (rbNil : α) (t : RbTree α) (fuel : Nat) (x : α) : Option α := farthest .left rbNil t fuel x
def rbTreeMax (rbNil : α) (t : RbTree α) (fuel : Nat) (x : α) : Option α := farthest .right rbNil t fuel x

/-- Up to the first node that is its own parent. -/
def climb (t : RbTree α) : (fuel : Nat) → α → Option α
  | 0, _ => none
  | fuel + 1, x => if t.parent x ≠ x then climb t fuel (t.parent x) else some x

/-- Up from `node` as long as it is the child on side `s` of `p`. -/
def ascend (s : Side) (rbNil : α) (t : RbTree α) : (fuel : Nat) → (node p : α) → Option α
  | 0, _, _ => none
  | fuel + 1, node, p => if p ≠ rbNil ∧ node = t.child s p then ascend s rbNil t fuel p (t.parent p) else some p

/-- `rb_tree_next` (`s` is right) and `rb_tree_prev` (left). The header is taken to lie around the
    node the climb ends at: its `nil` is then the first word of that node, its parent. -/
def neighbour (s : Side) (t : RbTree α) (fuel : Nat) (node : α) : Option α :=
  (t.climb fuel (t.parent node)).bind fun nilNode =>
    let rbNil := t.parent nilNode
    if t.child s node ≠ rbNil then farthest s.flip rbNil t fuel (t.child s node)
    else ascend s rbNil t fuel node (t.parent node)

def rbTreeNext (t : RbTree α) (fuel : Nat) (node : α) : Option α := neighbour .right t fuel node
def rbTreePrev (t : RbTree α) (fuel : Nat) (node : α) : Option α := neighbour .left t fuel node

/-- From `cur` down; the outer `none` is for the rounds, the inner one is NULL. -/
def searchFrom (compare : α → α → Int) (key : α) (t : RbTree α) : (fuel : Nat) → α → Option (Option α)
  | 0, _ => none
  | fuel + 1, cur =>
    if cur ≠ t.nil then
      let cmp := compare key cur
      if cmp = 0 then some (some cur)
      else searchFrom compare key t fuel (t.child (if cmp < 0 then .left else .right) cur)
    else some none

def rbTreeSearch (compare : α → α → Int) (t : RbTree α) (fuel : Nat) (key : α) : Option (Option α) :=
  searchFrom compare key t fuel t.root

/-! ## Rotations -/

/-- What pointed to `u` from above points to `v`. -/
def relink (t : RbTree α) (u v : α) : RbTree α :=
  if t.parent u = t.nil then { t with root := v }
  else if u = t.child .left (t.parent u) then t.setChild .left (t.parent u) v
  else t.setChild .right (t.parent u) v

/-- A child that is not `nil` gets the parent `x`. -/
def adopt (t : RbTree α) (c x : α) : RbTree α := if c ≠ t.nil then t.setParent c x else t

/-- `x` goes down to side `s`. -/
def rotate (s : Side) (t : RbTree α) (x : α) : RbTree α :=
  let y := t.child s.flip x
  let t := t.setChild s.flip x (t.child s y)
  let t := t.adopt (t.child s y) x
  let t := t.setParent y (t.parent x)
  let t := t.relink x y
  (t.setChild s y x).setParent x y

def rbLeftRotate (t : RbTree α) (x : α) : RbTree α := rotate .left t x
def rbRightRotate (t : RbTree α) (y : α) : RbTree α := rotate .right t y

def rbTransplant (t : RbTree α) (u v : α) : RbTree α :=
  let t := t.relink u v
  t.setParent v (t.parent u)

/-! ## Insertion -/

/-- One round for a red `z` whose red parent is the child on side `s`. -/
def insertRound (s : Side) (t : RbTree α) (z : α) : RbTree α × α :=
  let y := t.child s.flip (t.parent (t.parent z))
  if t.color y = .red then
    let t := t.setColor (t.parent z) .black
    let t := t.setColor y .black
    let t := t.setColor (t.parent (t.parent z)) .red
    (t, t.parent (t.parent z))
  else
    let (t, z) := if z = t.child s.flip (t.parent z) then (t.rotate s (t.parent z), t.parent z) else (t, z)
    let t := t.setColor (t.parent z) .black
    let t := t.setColor (t.parent (t.parent z)) .red
    (t.rotate s.flip (t.parent (t.parent z)), z)

def rbInsertFixup : (fuel : Nat) → RbTree α → α → Option (RbTree α)
  | 0, _, _ => none
  | fuel + 1, t, z =>
    if t.color (t.parent z) = .red then
      let r := if t.parent z = t.child .left (t.parent (t.parent z)) then insertRound .left t z else insertRound .right t z
      rbInsertFixup fuel r.1 r.2
    else some (t.setColor t.root .black)

/-- The last node on the way down, `y`, when `x` is `nil`. -/
def insertPlace (compare : α → α → Int) (z : α) (t : RbTree α) : (fuel : Nat) → (y x : α) → Option α
  | 0, _, _ => none
  | fuel + 1, y, x =>
    if x ≠ t.nil then insertPlace compare z t fuel x (t.child (if compare z x < 0 then .left else .right) x) else some y

def rbTreeInsert (compare : α → α → Int) (fuel : Nat) (t : RbTree α) (z : α) : Option (RbTree α) :=
  (insertPlace compare z t fuel t.nil t.root).bind fun y =>
    let t := t.setParent z y
    let t := if y = t.nil then { t with root := z }
      else if compare z y < 0 then t.setChild .left y z else t.setChild .right y z
    let t := t.setChild .left z t.nil
    let t := t.setChild .right z t.nil
    let t := t.setColor z .red
    rbInsertFixup fuel t z

/-! ## Deletion -/

/-- The rest of a round for a black `x` on side `s`: `w`, its sibling, is black. -/
def siblingRound (s : Side) (t : RbTree α) (x w : α) : RbTree α × α :=
  if t.color (t.child s w) = .black ∧ t.color (t.child s.flip w) = .black then (t.setColor w .red, t.parent x)
  else
    let (t, w) :=
      if t.color (t.child s.flip w) = .black then
        let t := t.setColor (t.child s w) .black
        let t := t.setColor w .red
        let t := t.rotate s.flip w
        (t, t.child s.flip (t.parent x))
      else (t, w)
    let t := t.setColor w (t.color (t.parent x))
    let t := t.setColor (t.parent x) .black
    let t := t.setColor (t.child s.flip w) .black
    let t := t.rotate s (t.parent x)
    (t, t.root)

def deleteRound (s : Side) (t : RbTree α) (x : α) : RbTree α × α :=
  let w := t.child s.flip (t.parent x)
  if t.color w = .red then
    let t := t.setColor w .black
    let t := t.setColor (t.parent x) .red
    let t := t.rotate s (t.parent x)
    siblingRound s t x (t.child s.flip (t.parent x))
  else siblingRound s t x w

def rbDeleteFixup : (fuel : Nat) → RbTree α → α → Option (RbTree α)
  | 0, _, _ => none
  | fuel + 1, t, x =>
    if x ≠ t.root ∧ t.color x = .black then
      let r := if x = t.child .left (t.parent x) then deleteRound .left t x else deleteRound .right t x
      rbDeleteFixup fuel r.1 r.2
    else some (t.setColor x .black)

/-- The successor `y` of `z` takes its place; `x` takes the place of `y`. -/
def moveUp (t : RbTree α) (z y x : α) : RbTree α :=
  let t :=
    if t.parent y = z then t.setParent x y
    else
      let t := t.rbTransplant y x
      let t := t.setChild .right y (t.child .right z)
      t.setParent (t.child .right y) y
  let t := t.rbTransplant z y
  let t := t.setChild .left y (t.child .left z)
  let t := t.setParent (t.child .left y) y
  t.setColor y (t.color z)

def rbTreeDelete (fuel : Nat) (t : RbTree α) (z : α) : Option (RbTree α) :=
  if t.child .left z = t.nil then
    let x := t.child .right z
    let r := t.rbTransplant z x
    if t.color z = .black then rbDeleteFixup fuel r x else some r
  else if t.child .right z = t.nil then
    let x := t.child .left z
    let r := t.rbTransplant z x
    if t.color z = .black then rbDeleteFixup fuel r x else some r
  else
    (rbTreeMin t.nil t fuel (t.child .right z)).bind fun y =>
      let x := t.child .right y
      let r := t.moveUp z y x
      if t.color y = .black then rbDeleteFixup fuel r x else some r

end RbTree

end Myos.Rbtree

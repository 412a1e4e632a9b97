/-
A position in a tree.

Nodes have no link to their parent, so a cursor keeps the way from the root to its
node; here the node itself comes first and the root last.  The empty way is the
*ghost*, which lies between the last entry and the first: one step forward from it
leads to the first entry, one step back to the last.

The two directions differ only in the side they prefer, so each move is written
once for a `Side`.
-/
import SharedForest.Traversal
import SharedForest.Text.Quoted

set_option autoImplicit false

namespace SharedForest

/-- Left or right. -/
inductive Side where
  | left
  | right
deriving DecidableEq

/-- The other side. -/
def Side.flip : Side → Side
  | .left => .right
  | .right => .left

/-- The link of a cell on one side. -/
def Cell.child {ν : Type} (c : Cell ν) : Side → Option Nat
  | .left => c.left
  | .right => c.right

/-- The way from a node up to the root of its tree; empty at the ghost. -/
abbrev Cursor := List Nat

namespace Cursor

variable {K Q V T : Type}

/-- At the root, or at the ghost of an empty tree. -/
def atRoot (root : Option Nat) : Cursor := root.toList

/-- The node the cursor is at. -/
def current (c : Cursor) : Option Nat := c.head?

/-- How far the current node is from the root. -/
def depth (c : Cursor) : Option Nat :=
  match c with
  | [] => none
  | _ :: above => some above.length

/-- Go down from `t` on one side as far as possible. -/
def descend (s : NodeStore K V T) (side : Side) (c : Cursor) (t : Option Nat) :
    Except Fault Cursor :=
  s.walk (fun i cell c => (i :: c, cell.child side)) c t

/-- Climb until a node has been left on its parent's `near` side; the ghost if there is none. -/
def climb (s : NodeStore K V T) (near : Side) : Cursor → Except Fault Cursor
  | [] => .ok []
  | [_] => .ok []
  | child :: parent :: above => do
    if (← s.read parent).child near = some child then
      return parent :: above
    else
      climb s near (parent :: above)

/-- One step in order towards `side`, through the ghost at the end. -/
def advance (s : NodeStore K V T) (root : Option Nat) (side : Side) (c : Cursor) :
    Except Fault Cursor := do
  match c with
  | [] => descend s side.flip [] root
  | i :: _ =>
    match (← s.read i).child side with
    | some child => descend s side.flip c (some child)
    | none => climb s side.flip c

/-- The next entry in order. -/
def next (s : NodeStore K V T) (root : Option Nat) (c : Cursor) : Except Fault Cursor :=
  c.advance s root .right

/-- The entry before. -/
def prev (s : NodeStore K V T) (root : Option Nat) (c : Cursor) : Except Fault Cursor :=
  c.advance s root .left

/-- At the first entry. -/
def front (s : NodeStore K V T) (root : Option Nat) : Except Fault Cursor := next s root []

/-- At the last entry. -/
def back (s : NodeStore K V T) (root : Option Nat) : Except Fault Cursor := prev s root []

/-- The parent, if the node has one. -/
def parent? (c : Cursor) : Option Cursor :=
  match c with
  | _ :: parent :: above => some (parent :: above)
  | _ => none

/-- The child on one side, if there is one. -/
def child? (s : NodeStore K V T) (side : Side) (c : Cursor) : Except Fault (Option Cursor) :=
  match c with
  | [] => .ok none
  | i :: _ => do
    match (← s.read i).child side with
    | some j => return some (j :: c)
    | none => return none

/-- The entry at the node of a cursor; none at the ghost. -/
def entry (s : NodeStore K V T) (c : Cursor) : Except Fault (Option (K × V)) :=
  match c with
  | [] => .ok none
  | i :: _ => do return some (← s.read i).data.entry

/-- The entry of the child on one side. -/
def childEntry (s : NodeStore K V T) (side : Side) (c : Cursor) :
    Except Fault (Option (K × V)) := do
  match ← c.child? s side with
  | some c => c.entry s
  | none => return none

/-- The entry of the parent. -/
def parentEntry (s : NodeStore K V T) (c : Cursor) : Except Fault (Option (K × V)) :=
  match c.parent? with
  | some c => c.entry s
  | none => .ok none

/-- The number of entries below and at the current node. -/
def subtreeSize (s : NodeStore K V T) (c : Cursor) : Except Fault Nat :=
  Subtree.size s c.current

/-- The aggregate of the current node's subtree. -/
def subtreeAggregate (s : NodeStore K V T) (c : Cursor) : Except Fault (Option T) :=
  match c with
  | [] => .ok none
  | i :: _ => do return some (← s.read i).data.aggregate

/-- How many entries come before the subtree of a node, counted up along the way to the root. -/
def before (s : NodeStore K V T) : Cursor → Except Fault Nat
  | [] => .ok 0
  | [_] => .ok 0
  | child :: parent :: above => do
    let cell ← s.read parent
    let rest ← before s (parent :: above)
    if cell.right = some child then
      return (← Subtree.size s cell.left) + 1 + rest
    else
      return rest

/-- How many entries come before the current one; none at the ghost. -/
def index (s : NodeStore K V T) (c : Cursor) : Except Fault (Option Nat) :=
  match c with
  | [] => .ok none
  | i :: _ => do
    let own ← Subtree.size s (← s.read i).left
    return some (own + (← before s c))

/-- Go down towards `key` and stay at the deepest node that has it, or from which it lies on the
side `toward`; the ghost if there is none. -/
def seekBy [Ord Q] [KeyView K Q] (s : NodeStore K V T) (root : Option Nat) (toward : Ordering)
    (key : Q) : Except Fault Cursor := do
  let (_, kept) ← s.walk (fun i cell (way, kept) =>
    let here := i :: way
    let order := sought key cell.data.key
    let kept := if order = .eq ∨ order = toward then here else kept
    ((here, kept), match order with
      | .lt => cell.left
      | .eq => none
      | .gt => cell.right)) (([], []) : Cursor × Cursor) root
  return kept

/-- At the first entry whose key is not below `key`. -/
def seek [Ord Q] [KeyView K Q] (s : NodeStore K V T) (root : Option Nat) (key : Q) :
    Except Fault Cursor :=
  seekBy s root .lt key

/-- At the last entry whose key is not above `key`. -/
def seekBack [Ord Q] [KeyView K Q] (s : NodeStore K V T) (root : Option Nat) (key : Q) :
    Except Fault Cursor :=
  seekBy s root .gt key

/-- A traversal of the current node's subtree. -/
def below (s : NodeStore K V T) (c : Cursor) : Except Fault Traversal :=
  Traversal.full s c.current

/-- The debug text of a cursor in a tree of a given version; the root comes first. -/
def debug (version : Nat) (c : Cursor) : String :=
  "Cursor \x7b version: " ++ toString version
    ++ ", path: " ++ Text.bracketed toString c.reverse ++ " \x7d"

end Cursor

end SharedForest

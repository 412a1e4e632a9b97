/-
Looking things up in a subtree.

Every search is a walk from the root along one path, told apart only by what is
done at a node and which child comes next.  All of them answer with slots.  A
search by rank is the one walk that also needs the sizes of children.
-/
import SharedForest.Node
import SharedForest.Key.Sought

set_option autoImplicit false

namespace SharedForest

/-- Where a search ended, relative to the entry it reports. -/
inductive SearchResult (α : Type) where
  | empty
  /-- The target sorts just before this entry. -/
  | leftOf (a : α)
  | here (a : α)
  /-- The target sorts just after this entry. -/
  | rightOf (a : α)
deriving DecidableEq

namespace SearchResult

variable {α β : Type}

/-- Change the reported entry. -/
def map (f : α → β) : SearchResult α → SearchResult β
  | .empty => .empty
  | .leftOf a => .leftOf (f a)
  | .here a => .here (f a)
  | .rightOf a => .rightOf (f a)

/-- The entry that was hit. -/
def here? : SearchResult α → Option α
  | .here a => some a
  | _ => none

/-- The entry that is reported, whether hit or not. -/
def entry? : SearchResult α → Option α
  | .empty => none
  | .leftOf a => some a
  | .here a => some a
  | .rightOf a => some a

/-- The name of the outcome. -/
def label : SearchResult α → String
  | .empty => "Empty"
  | .leftOf _ => "LeftOf"
  | .here _ => "Here"
  | .rightOf _ => "RightOf"

/-- The debug text of a result whose entry is written as `write` says. -/
def debug (write : α → String) (r : SearchResult α) : String :=
  match r.entry? with
  | none => r.label
  | some a => r.label ++ "(" ++ write a ++ ")"

end SearchResult

namespace Subtree

variable {K Q V T : Type}

/-- The node whose key compares equal to `key`. -/
def find [Ord Q] [KeyView K Q] (s : NodeStore K V T) (root : Option Nat) (key : Q) :
    Except Fault (Option Nat) :=
  s.walk (fun i c _ =>
    match sought key c.data.key with
    | .lt => (none, c.left)
    | .gt => (none, c.right)
    | .eq => (some i, none)) none root

/-- The leftmost node. -/
def first (s : NodeStore K V T) (root : Option Nat) : Except Fault (Option Nat) :=
  s.walk (fun i c _ => (some i, c.left)) none root

/-- The rightmost node. -/
def last (s : NodeStore K V T) (root : Option Nat) : Except Fault (Option Nat) :=
  s.walk (fun i c _ => (some i, c.right)) none root

/-- How many entries a subtree says it has. -/
def size (s : NodeStore K V T) (root : Option Nat) : Except Fault Nat :=
  match root with
  | none => .ok 0
  | some i => do return (← s.read i).data.size.toNat

/-- The node with `rank` entries before it.  The rank still to go shrinks on every step to the
right, so even in a circle of links there are at most `rank + 1` rounds. -/
def select (s : NodeStore K V T) (root : Option Nat) (rank : Nat) :
    Except Fault (Option Nat) := do
  let (_, found) ← s.walkFor (fun i c (rank, _) => do
    let before ← size s c.left
    match compare rank before with
    | .lt => pure ((rank, none), c.left)
    | .eq => pure ((rank, some i), none)
    | .gt => pure ((rank - (before + 1), none), c.right)) (s.reach * (rank + 1)) (rank, none) root
  return found

/-- Search with a function that orders an entry against the target: `lt` says that the entry
sorts before it. -/
def searchBy (s : NodeStore K V T) (root : Option Nat) (order : K → V → Ordering) :
    Except Fault (SearchResult Nat) :=
  s.walk (fun i c _ =>
    match order c.data.key c.data.value with
    | .gt => (.leftOf i, c.left)
    | .eq => (.here i, none)
    | .lt => (.rightOf i, c.right)) .empty root

/-- How many keys satisfy `below`, which must hold for the first keys in order and no others. -/
def countWhile (s : NodeStore K V T) (root : Option Nat) (below : K → Bool) :
    Except Fault Nat :=
  s.walkFor (fun _ c count => do
    if below c.data.key then
      pure (count + ((← size s c.left) + 1), c.right)
    else
      pure (count, c.left)) s.reach 0 root

end Subtree

end SharedForest

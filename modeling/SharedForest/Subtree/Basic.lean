/-
Subtrees that an action owns.

A subtree is the slot of its root, or absent.  The functions here and in the
modules that follow own the subtrees they are given: each argument brings one
reference along, the result carries one, and whatever else was held is dropped.
Nodes are never changed.  `expose` takes one apart, which shares its children and
drops the node, and `assemble` makes a new one with fresh caches; every other
change to a tree is made of these two.
-/
import SharedForest.Node

set_option autoImplicit false

namespace SharedForest

namespace Subtree

open StoreM

variable {K V T : Type}

/-- The cached height of a subtree, zero for an absent one. -/
def height (t : Option Nat) : NodeM K V T UInt32 := do
  match t with
  | none => pure 0
  | some i => pure (← read i).data.height

/-- Whether there is a root and it is red. -/
def isRed (t : Option Nat) : NodeM K V T Bool := do
  match t with
  | none => pure false
  | some i => pure ((← read i).data.color == .red)

/-- Whether the left child of node `i` is red. -/
def leftIsRed (i : Nat) : NodeM K V T Bool := do
  isRed (← read i).left

/-- Whether the right child of node `i` is red. -/
def rightIsRed (i : Nat) : NodeM K V T Bool := do
  isRed (← read i).right

/-- The node of a subtree, if there is one. -/
def peek (t : Option Nat) : NodeM K V T (Option (Node K V T)) := do
  match t with
  | none => pure none
  | some i => pure (some (← read i).data)

/-- Make a node over two owned subtrees. -/
def assemble (aug : Augment K V T) (l : Option Nat) (k : K) (v : V) (c : Color)
    (r : Option Nat) : NodeM K V T Nat := do
  let (left, right) ← guarding (r.toList ++ l.toList) do
    let left ← peek l
    let right ← peek r
    pure (left, right)
  noteSize (1 + Node.entries left + Node.entries right)
  allocate ⟨l, r, Node.ofChildren aug left k v c right⟩

/-- A node taken apart; the children are owned. -/
structure Exposed (K V : Type) where
  left : Option Nat
  key : K
  value : V
  color : Color
  right : Option Nat

/-- Take a node apart. -/
def expose (t : Nat) : NodeM K V T (Exposed K V) := do
  let cell ← guarding [t] (read t)
  let left ← guarding [t] (share cell.left)
  let right ← guarding (left.toList ++ [t]) (share cell.right)
  guarding (left.toList ++ right.toList) (release t)
  pure ⟨left, cell.data.key, cell.data.value, cell.data.color, right⟩

/-- The same subtree with a root of color `c`. -/
def paint (aug : Augment K V T) (t : Nat) (c : Color) : NodeM K V T Nat := do
  let cell ← guarding [t] (read t)
  if cell.data.color = c then
    pure t
  else
    let e ← expose t
    assemble aug e.left e.key e.value c e.right

/-- The same subtree with a black root, if it has one. -/
def blacken (aug : Augment K V T) (t : Option Nat) : NodeM K V T (Option Nat) := do
  match t with
  | none => pure none
  | some i => some <$> paint aug i .black

end Subtree

end SharedForest

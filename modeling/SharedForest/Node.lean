/-
The payload of a tree node.

Next to its entry and its color a node caches three facts about its subtree: the
number of black nodes on every way down, the number of entries, and the aggregate.
The caches are filled in once, when the node is made; a node never changes.
-/
import SharedForest.Store.Reclaim
import SharedForest.Augment

set_option autoImplicit false

namespace SharedForest

/-- The color of a node. -/
inductive Color where
  | red
  | black
deriving DecidableEq

/-- What a node adds to the black height of its subtree. -/
def Color.weight : Color → UInt32
  | .red => 0
  | .black => 1

/-- The name of a color. -/
def Color.name : Color → String
  | .red => "red"
  | .black => "black"

/-- An entry with its color and the caches of its subtree. -/
structure Node (K V T : Type) where
  key : K
  value : V
  color : Color
  /-- Black nodes on a way from here down to an absent child, this node included. -/
  height : UInt32
  /-- Entries in the subtree. -/
  size : UInt32
  aggregate : T

namespace Node

variable {K V T : Type}

/-- Key and value. -/
def entry (n : Node K V T) : K × V := (n.key, n.value)

/-- The black height that leaves the node itself out. -/
def innerHeight (n : Node K V T) : UInt32 := n.height - n.color.weight

/-- How many entries a subtree says it has, given its root. -/
def entries (root : Option (Node K V T)) : Nat := (root.map (·.size.toNat)).getD 0

/-- A node over two subtrees, with its caches filled in from theirs. -/
def ofChildren (aug : Augment K V T) (left : Option (Node K V T)) (k : K) (v : V) (c : Color)
    (right : Option (Node K V T)) : Node K V T where
  key := k
  value := v
  color := c
  height := (left.map (·.height)).getD 0 + c.weight
  size := 1 + (left.map (·.size)).getD 0 + (right.map (·.size)).getD 0
  aggregate := aug.aggregate (left.map (·.aggregate)) k v (right.map (·.aggregate))

end Node

/-- A store of tree nodes. -/
abbrev NodeStore (K V T : Type) := Store (Node K V T)

/-- An action on a store of tree nodes. -/
abbrev NodeM (K V T : Type) := StoreM (Node K V T)

end SharedForest

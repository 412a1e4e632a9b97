/-
Splitting a subtree at a key, and the updates made of it.

`split` goes down the search path of the key, takes each node on it apart, and on
the way back joins the halves that hang off the path.  Inserting and removing are
a split and a join each.
-/
import SharedForest.Subtree.Join
import SharedForest.Key.Sought

set_option autoImplicit false

namespace SharedForest

namespace Subtree

open StoreM

variable {K Q V T : Type}

/-- The outcome of a split: the entries below the key, the value at it, the entries above. -/
structure Parts (V : Type) where
  below : Option Nat
  found : Option V
  above : Option Nat

/-- Split a subtree at `key`, descending at most as often as the first argument says. -/
def splitFor [Ord Q] [KeyView K Q] (aug : Augment K V T) (key : Q) :
    Nat → Option Nat → NodeM K V T (Parts V)
  | _, none => pure ⟨none, none, none⟩
  | 0, some _ => endless
  | steps + 1, some i => do
    let cell ← guarding [i] (read i)
    let e ← expose i
    match sought key cell.data.key with
    | .lt =>
      let p ← guarding e.right.toList (splitFor aug key steps e.left)
      let above ← guarding p.below.toList (join aug p.above e.key e.value e.right)
      pure ⟨p.below, p.found, some above⟩
    | .gt =>
      let p ← guarding e.left.toList (splitFor aug key steps e.right)
      let below ← guarding p.above.toList (join aug e.left e.key e.value p.below)
      pure ⟨some below, p.found, p.above⟩
    | .eq => pure ⟨e.left, some e.value, e.right⟩

/-- Split a subtree at `key`. -/
def split [Ord Q] [KeyView K Q] (aug : Augment K V T) (t : Option Nat) (key : Q) :
    NodeM K V T (Parts V) := do
  splitFor aug key (← depthBound) t

/-- The subtree with `v` at `k`, whatever was there.  The root is black. -/
def insert [Ord K] (aug : Augment K V T) (t : Option Nat) (k : K) (v : V) : NodeM K V T Nat := do
  let p ← split aug t k
  let t ← join aug p.below k v p.above
  paint aug t .black

/-- The subtree without `key`, and the value that was there.  The root is black. -/
def remove [Ord Q] [KeyView K Q] (aug : Augment K V T) (t : Option Nat) (key : Q) :
    NodeM K V T (Option Nat × Option V) := do
  let p ← split aug t key
  let t ← append aug p.below p.above
  let t ← blacken aug t
  pure (t, p.found)

end Subtree

end SharedForest

/-
Building a balanced subtree in one pass.

The first half of the entries goes to the left, the next one into the root, the
rest to the right, and so on down.  All levels but the deepest come out full; the
nodes of the deepest level are red, all others black, and a single node is black.
-/
import SharedForest.Subtree.Basic

set_option autoImplicit false

namespace SharedForest

namespace Subtree

open StoreM

variable {K V T : Type}

/-- Build from the first `n` of `items`, at a depth where level `redDepth` is to be red; the
entries left over are handed back. -/
def buildLevel (aug : Augment K V T) (redDepth : Nat) (items : List (K × V)) (n depth : Nat) :
    NodeM K V T (Option Nat × List (K × V)) :=
  if n = 0 then pure (none, items)
  else do
    let (l, items) ← buildLevel aug redDepth items ((n - 1) / 2) (depth + 1)
    match items with
    | [] => guarding l.toList (refuse (.invariantViolation .endedEarly))
    | (k, v) :: items =>
      let (r, items) ← guarding l.toList
        (buildLevel aug redDepth items (n - 1 - (n - 1) / 2) (depth + 1))
      let color := if depth = redDepth ∧ depth ≠ 0 then .red else .black
      let root ← assemble aug l k v color r
      pure (some root, items)
termination_by n
decreasing_by all_goals omega

/-- A balanced subtree of the first `n` of `items`, which must be in increasing key order. -/
def build (aug : Augment K V T) (items : List (K × V)) (n : Nat) :
    NodeM K V T (Option Nat) := do
  let (root, _) ← buildLevel aug n.log2 items n 0
  pure root

end Subtree

end SharedForest

/-
The ways an operation can end without a result.

A *refusal* is an answer: the caller asked for something that the store, the keys
or the forest do not allow, and everything the operation had built is given back.
A *fault* is not an answer but a broken promise of the caller, such as reading a
place that holds nothing.  The two are kept apart because only refusals can arise
from handles that the library itself has given out.
-/
set_option autoImplicit false

namespace SharedForest

/-- What is wrong with a subtree, or with entries from which one was to be built. -/
inductive Defect where
  | rootNotLive (slot : Nat)
  | rootNotBlack
  | notLive (slot : Nat)
  | unreferenced (slot : Nat)
  | outOfOrder (slot : Nat)
  | redPair (slot : Nat)
  | unevenBlack (slot : Nat) (left right : Nat)
  | staleHeight (slot : Nat)
  | staleSize (slot : Nat) (cached held : Nat)
  | staleAggregate (slot : Nat)
  /-- Some key of the left operand is not below the key to join at. -/
  | leftReachesKey
  /-- Some key of the right operand is not above the key to join at. -/
  | rightReachesKey
  /-- Two trees to be concatenated are not one below the other. -/
  | overlap
  /-- The key at `position` is not above the one before it. -/
  | notIncreasing (position : Nat)
  /-- Fewer entries than announced. -/
  | endedEarly
deriving DecidableEq

/-- The wording of a defect. -/
def Defect.message : Defect → String
  | .rootNotLive i => s!"root {i} is not live"
  | .rootNotBlack => "root is not black"
  | .notLive i => s!"node {i} is not live"
  | .unreferenced i => s!"node {i} has no references"
  | .outOfOrder i => s!"node {i} is out of key order"
  | .redPair i => s!"red node {i} has a red child"
  | .unevenBlack i l r => s!"black height mismatch under node {i}: {l} != {r}"
  | .staleHeight i => s!"node {i} caches a stale black height"
  | .staleSize i cached held => s!"node {i} caches size {cached} but holds {held}"
  | .staleAggregate i => s!"node {i} caches a stale aggregate"
  | .leftReachesKey => "left tree reaches the join key"
  | .rightReachesKey => "right tree reaches the join key"
  | .overlap => "concatenated trees overlap"
  | .notIncreasing p => s!"keys are not strictly increasing at position {p}"
  | .endedEarly => "sorted input ended early"

/-- The answer of an operation that will not be carried out. -/
inductive Refusal where
  | keyNotFound
  | invariantViolation (defect : Defect)
  /-- Every one of the `limit` places is taken. -/
  | capacityExceeded (limit : Nat)
  /-- A tree of another forest was handed in. -/
  | foreignTree
deriving DecidableEq

/-- The wording of a refusal. -/
def Refusal.message : Refusal → String
  | .keyNotFound => "key not found"
  | .invariantViolation d => "invariant violation: " ++ d.message
  | .capacityExceeded limit => s!"arena capacity exceeded ({limit} nodes)"
  | .foreignTree => "trees belong to different forests"

/-- A broken promise about the contents of a store. -/
inductive Fault where
  /-- A place was read that holds nothing. -/
  | notLive (slot : Nat)
  /-- A reference was counted on a place that does not exist. -/
  | neverAllocated (slot : Nat)
  /-- A descent took more steps than there are places, so it goes round in a circle. -/
  | endless
deriving DecidableEq

/-- The wording of a fault. -/
def Fault.message : Fault → String
  | .notLive i => s!"node {i} is not live"
  | .neverAllocated i => s!"node index {i} was never allocated"
  | .endless => "links go round in a circle"

/-- Either kind of ending without a result. -/
inductive Failure where
  | refused (why : Refusal)
  | fault (what : Fault)
deriving DecidableEq

/-- The wording of a failure. -/
def Failure.message : Failure → String
  | .refused r => r.message
  | .fault f => f.message

end SharedForest

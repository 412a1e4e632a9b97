/-
The union of two subtrees.

The second subtree drives: each of its nodes splits the first one, and the halves
are united with the children.  A key that both hold is settled by a merge function
that may carry a state of its own from call to call, for instance a record of the
calls.  That state outlives a failure, so the union runs on the pair of store and
state rather than returning the state with its result.
-/
import SharedForest.Subtree.Split

set_option autoImplicit false

namespace SharedForest

/-- An action on `σ` that carries a state `γ` along, which a failure does not undo. -/
abbrev CarryM (γ σ α : Type) := EStateM Failure (σ × γ) α

namespace CarryM

variable {γ σ α : Type}

/-- An action that leaves the carried state alone. -/
def lift (action : EStateM Failure σ α) : CarryM γ σ α := fun (s, g) =>
  match action s with
  | .ok a s' => .ok a (s', g)
  | .error e s' => .error e (s', g)

/-- Step the carried state. -/
def step (f : γ → α × γ) : CarryM γ σ α := fun (s, g) =>
  let (a, g') := f g
  .ok a (s, g')

/-- Hold the references in `held` while an action runs. -/
def guarding {ν : Type} (held : List Nat) (action : CarryM γ (Store ν) α) :
    CarryM γ (Store ν) α := fun s =>
  match action s with
  | .ok a s' => .ok a s'
  | .error e s' => lift (StoreM.giveBack held e) s'

/-- Run an action from a carried state; the state it ends in comes with the result. -/
def runFrom (g : γ) (action : CarryM γ σ α) : EStateM Failure σ (α × γ) := fun s =>
  match action (s, g) with
  | .ok a (s', g') => .ok (a, g') s'
  | .error e (s', _) => .error e s'

end CarryM

/-- A merge function that keeps a record of its calls, the latest first. -/
def recordCalls {K V : Type} (merge : K → V → V → V) (key : K) (ours theirs : V)
    (calls : List (K × V × V)) : V × List (K × V × V) :=
  (merge key ours theirs, (key, ours, theirs) :: calls)

namespace Subtree

open CarryM

variable {γ K V T : Type}

/-- The value for the key of an exposed node, given the value that was found at it. -/
def settle {σ : Type} (merge : K → V → V → γ → V × γ) (e : Exposed K V) (found : Option V) :
    CarryM γ σ V :=
  match found with
  | some ours => step (merge e.key ours e.value)
  | none => pure e.value

/-- Unite two subtrees, descending in the second at most as often as the first number says. -/
def unionFor [Ord K] (aug : Augment K V T) (merge : K → V → V → γ → V × γ) :
    Nat → Option Nat → Option Nat → CarryM γ (NodeStore K V T) (Option Nat)
  | _, t, none => pure t
  | _, none, some j => pure (some j)
  | 0, some _, some _ => lift endless
  | steps + 1, some i, some j => do
    let e ← guarding [i] (lift (expose j))
    let p ← guarding (e.left.toList ++ e.right.toList) (lift (split aug (some i) e.key))
    let v ← settle merge e p.found
    let l ← guarding (p.above.toList ++ e.right.toList)
      (unionFor aug merge steps p.below e.left)
    let r ← guarding l.toList (unionFor aug merge steps p.above e.right)
    some <$> lift (join aug l e.key v r)

/-- The union of two subtrees.  For a key in both, `merge key first second` is the value. -/
def union [Ord K] (aug : Augment K V T) (merge : K → V → V → γ → V × γ)
    (t₁ t₂ : Option Nat) : CarryM γ (NodeStore K V T) (Option Nat) := do
  unionFor aug merge (← lift depthBound) t₁ t₂

end Subtree

end SharedForest

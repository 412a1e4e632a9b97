/-
Single steps of a traversal, as data.

A list of pulls is a way of using a traversal; what it yields is a list of the same
length.
-/
import SharedForest.Traversal

set_option autoImplicit false

namespace SharedForest

/-- One use of a traversal. -/
inductive Pull where
  /-- Take the next entry. -/
  | next
  /-- Take the next entry from the end. -/
  | nextBack
  /-- Ask how many are left. -/
  | remaining
  /-- Ask for a lower and an upper bound of how many are left. -/
  | bounds
  /-- Skip some entries and take the one after them. -/
  | nth (n : Nat)
  /-- Skip some entries from the end and take the one before them. -/
  | nthBack (n : Nat)
  /-- Take all that is left. -/
  | drain
  /-- Take all that is left, from the end. -/
  | drainBack
  /-- Look at all that is left without taking it. -/
  | fork
  /-- Look at all that is left, from the end, without taking it. -/
  | forkBack

/-- What one use of a traversal yields. -/
inductive Yield (K V : Type) where
  | entry (e : Option (K × V))
  | count (n : Nat)
  | bounds (low high : Nat)
  | entries (es : List (K × V))

namespace Traversal

variable {K V T : Type}

/-- Use a traversal once. -/
def pull (s : NodeStore K V T) (t : Traversal) : Pull → Except Fault (Yield K V × Traversal)
  | .next => do
    let (e, t) ← t.nextEntry s
    return (.entry e, t)
  | .nextBack => do
    let (e, t) ← t.nextBackEntry s
    return (.entry e, t)
  | .remaining => return (.count t.remaining, t)
  | .bounds => return (.bounds t.remaining t.remaining, t)
  | .nth n => do
    let (e, t) ← skipThen (·.nextEntry s) n t
    return (.entry e, t)
  | .nthBack n => do
    let (e, t) ← skipThen (·.nextBackEntry s) n t
    return (.entry e, t)
  | .drain => do
    let (es, t) ← t.drain s
    return (.entries es, t)
  | .drainBack => do
    let (es, t) ← t.drainBack s
    return (.entries es, t)
  | .fork => return (.entries (← t.drain s).1, t)
  | .forkBack => return (.entries (← t.drainBack s).1, t)

/-- Use a traversal several times. -/
def pulls (s : NodeStore K V T) : Traversal → List Pull →
    Except Fault (List (Yield K V) × Traversal)
  | t, [] => .ok ([], t)
  | t, p :: ps => do
    let (y, t) ← t.pull s p
    let (ys, t) ← pulls s t ps
    return (y :: ys, t)

end Traversal

end SharedForest

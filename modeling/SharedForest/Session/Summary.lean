/-
What is told about a tree.

A summary has four facts that are always told, and five more for those who ask.
-/
import SharedForest.Session.Basic
import SharedForest.Cursor.Tour

set_option autoImplicit false

namespace SharedForest

/-- Which further facts a summary tells. -/
structure Aspects where
  shape : Bool := false
  print : Bool := false
  validity : Bool := false
  entries : Bool := false
  stats : Bool := false

/-- Facts about a tree; those not asked for are absent. -/
structure Summary (K V T : Type) where
  version : UInt64
  size : Nat
  blackHeight : Nat
  aggregate : Option T
  shape : Option String
  print : Option String
  validity : Option (Except Defect Unit)
  entries : Option (List (K × V))
  stats : Option Stats

/-- What is told about one key of a tree. -/
structure Probe (K V : Type) where
  value : Option V
  contained : Bool
  rank : Nat
  /-- The first key that is not below. -/
  atOrAfter : Option K
  /-- The last key that is not above. -/
  atOrBefore : Option K

namespace Forest

variable {K Q V T : Type}

/-- Tell about a tree. -/
def summarize [Ord K] [BEq T] [Written K] [Written V] (aspects : Aspects) (f : Forest K V T)
    (t : Snapshot) : Except Fault (Summary K V T) := do
  return {
    version := t.version
    size := ← f.size t
    blackHeight := ← f.blackHeight t
    aggregate := ← f.aggregate t
    shape := if aspects.shape then some (f.shape t) else none
    print := if aspects.print then some (f.print t) else none
    validity := if aspects.validity then some (f.validate t) else none
    entries := ← if aspects.entries then some <$> f.entries t else pure none
    stats := if aspects.stats then some f.stats else none }

/-- Tell about one key. -/
def probe [Ord Q] [KeyView K Q] (f : Forest K V T) (t : Snapshot) (key : Q) :
    Except Fault (Probe K V) := do
  return {
    value := ← f.get? t key
    contained := ← f.containsKey t key
    rank := ← f.rank t key
    atOrAfter := (← (← Cursor.seek f.store t.root key).entry f.store).map (·.1)
    atOrBefore := (← (← Cursor.seekBack f.store t.root key).entry f.store).map (·.1) }

/-- Use a traversal of a tree, or of a range of it. -/
def browse [Ord Q] [KeyView K Q] (f : Forest K V T) (t : Snapshot)
    (range : Option (Bound Q × Bound Q)) (pulls : List Pull) : Except Fault (List (Yield K V)) := do
  let position ← match range with
    | none => f.traverse t
    | some (start, stop) => f.traverseRange t start stop
  return (← position.pulls f.store pulls).1

/-- Move a cursor through a tree. -/
def tour [Ord Q] [KeyView K Q] (f : Forest K V T) (t : Snapshot) (start : TourStart Q)
    (moves : List (Move Q)) : Except Fault (List (Sight K V T)) :=
  Cursor.tour f.store t.root t.version.toNat start moves

end Forest

end SharedForest

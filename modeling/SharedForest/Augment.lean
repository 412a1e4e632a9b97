/-
What every node remembers about its subtree.

An augmentation summarizes one entry and combines the values of adjacent runs of
entries.  Nodes cache the value of their whole subtree.  `combine` is always given
the part that comes first in key order on the left, so it need not be commutative;
only where it is associative does the cached value depend on the entries alone.
-/
set_option autoImplicit false

namespace SharedForest

/-- The value of a node from the values of its children: left part, own entry, right part, with
absent children skipped. -/
def inOrderAggregate {K V T : Type} (summarize : K → V → T) (combine : T → T → T)
    (left : Option T) (key : K) (value : V) (right : Option T) : T :=
  let own := summarize key value
  let first := match left with
    | some l => combine l own
    | none => own
  match right with
  | some r => combine first r
  | none => first

/-- An augmentation with values in `T` for entries of `K` and `V`. -/
structure Augment (K V T : Type) where
  summarize : K → V → T
  combine : T → T → T
  /-- The value of a node from the values of its children. -/
  aggregate : Option T → K → V → Option T → T := inOrderAggregate summarize combine
  /-- The debug text of the augmentation itself. -/
  title : String := "FnAugment \x7b .. \x7d"

/-- Nothing is remembered. -/
def Augment.trivial (K V : Type) : Augment K V Unit where
  summarize _ _ := ()
  combine _ _ := ()
  title := "NoAugment"

end SharedForest

/-
Numbers in a circle of seven, a comparison that is no order.

Each number is below the three that follow it and above the three before it, so
`compare` is not transitive.  Nothing here sorts such keys in any sense; they show
which rules of a tree hold without an order.
-/
import SharedForest.Text.Quoted

set_option autoImplicit false

namespace SharedForest

/-- A number compared by how far it is to the next one round the circle. -/
structure Cyclic where
  value : Int64

namespace Cyclic

/-- The steps from `a` forward to `b`, less than seven. -/
def steps (a b : Cyclic) : Int := (b.value.toInt - a.value.toInt) % 7

instance : Ord Cyclic := ⟨fun a b =>
  if a.steps b = 0 then .eq
  else if a.steps b ≤ 3 then .lt
  else .gt⟩

instance : Written Cyclic where
  debug c := Written.debug c.value
  plain c := Written.plain c.value

end Cyclic

end SharedForest

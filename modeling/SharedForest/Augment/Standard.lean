/-
Ready-made augmentations.

Numbers are 64-bit words and sums wrap.  Two of these are here because they are
awkward: `undefinedBelowZero` has a value that is not even equal to itself, and
`levels` does not follow the usual rule for combining a node with its children.
-/
import SharedForest.Augment
import SharedForest.Text.Quoted

set_option autoImplicit false

namespace SharedForest

/-- Values that have a size as a number. -/
class Weighed (V : Type) where
  weight : V → Int64

instance : Weighed Int64 := ⟨id⟩

/-- A string weighs as much as its encoding has bytes. -/
instance : Weighed String := ⟨fun s => Int64.ofNat s.utf8ByteSize⟩

/-- A number, or no number at all. -/
inductive Tally where
  | number (n : Int64)
  | undefined

namespace Tally

/-- Numbers are compared; what is undefined equals nothing, itself included. -/
instance : BEq Tally where
  beq
    | .number a, .number b => a == b
    | _, _ => false

/-- The sum, undefined if either part is. -/
def add : Tally → Tally → Tally
  | .number a, .number b => .number (a + b)
  | _, _ => .undefined

end Tally

namespace Augment

variable {K V : Type}

/-- The sum of all weights. -/
def sum [Weighed V] : Augment K V Int64 where
  summarize _ v := Weighed.weight v
  combine a b := a + b

/-- The largest weight. -/
def largest [Weighed V] : Augment K V Int64 where
  summarize _ v := Weighed.weight v
  combine a b := max a b

/-- All keys in order, written one after the other. -/
def concatenated [Written K] : Augment K V String where
  summarize k _ := Written.plain k
  combine a b := a ++ b

/-- All keys in order, with brackets that show how they were combined; not associative. -/
def bracketed [Written K] : Augment K V String where
  summarize k _ := Written.plain k
  combine a b := "(" ++ a ++ " " ++ b ++ ")"

/-- The sum of all weights, undefined as soon as one is negative. -/
def undefinedBelowZero [Weighed V] : Augment K V Tally where
  summarize _ v := if Weighed.weight v < 0 then .undefined else .number (Weighed.weight v)
  combine := Tally.add

/-- The smallest and the largest weight. -/
def ends [Weighed V] : Augment K V (Int64 × Int64) where
  summarize _ v := (Weighed.weight v, Weighed.weight v)
  combine a b := (min a.1 b.1, max a.2 b.2)
  title := "Ends"

/-- The number of levels, whatever the entries are. -/
def levels : Augment K V Int64 where
  summarize _ _ := 1
  combine a b := max a b
  aggregate left _ _ right := 1 + max (left.getD 0) (right.getD 0)
  title := "Height"

end Augment

end SharedForest

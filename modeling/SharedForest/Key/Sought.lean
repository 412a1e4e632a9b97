/-
What a key can be looked up by.

A tree with keys `K` may be asked about things that are not keys but stand for one,
such as a part of a text for the text.  All that a look-up ever does with such a
thing is to compare it with the view of a stored key.
-/
set_option autoImplicit false

namespace SharedForest

/-- Keys of `K` can be looked up by things of `Q`; `view` is what a stored key is for them. -/
class KeyView (K Q : Type) where
  view : K → Q

/-- A key can be looked up by itself, and is unless something else is said. -/
@[default_instance]
instance {K : Type} : KeyView K K := ⟨id⟩

/-- How a sought key compares with a stored one. -/
def sought {K Q : Type} [Ord Q] [KeyView K Q] (key : Q) (k : K) : Ordering :=
  compare key (KeyView.view k)

/-- How a stored key compares with a sought one. -/
def stored {K Q : Type} [Ord Q] [KeyView K Q] (k : K) (key : Q) : Ordering :=
  compare (KeyView.view k) key

end SharedForest

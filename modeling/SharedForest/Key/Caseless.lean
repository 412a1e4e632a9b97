/-
Strings as keys that ignore the case of the letters A to Z.

Keys that differ in case alone are the same key, but the text of each is kept, so
it shows which of them a tree has stored.
-/
import SharedForest.Text.Quoted

set_option autoImplicit false

namespace SharedForest

/-- A string whose case does not count. -/
structure Caseless where
  text : String

namespace Caseless

/-- The text with every letter from A to Z in lower case. -/
def folded (c : Caseless) : String := c.text.map Char.toLower

instance : Ord Caseless := ⟨fun a b => compare a.folded b.folded⟩

instance : Written Caseless where
  debug c := Written.debug c.text
  plain c := c.text

end Caseless

end SharedForest

/-
Why something that was asked for by name was not done.

Either the name holds nothing, or it does and what was to be done with it failed.
-/
import SharedForest.Failure

set_option autoImplicit false

namespace SharedForest

/-- Why something that was asked for by name was not done. -/
inductive Trouble where
  | noForest (number : Nat)
  | noTree (name : String)
  | noWalk (name : String)
  | noLink
  | failed (failure : Failure)
deriving DecidableEq

/-- The wording of a trouble. -/
def Trouble.message : Trouble → String
  | .noForest n => s!"no forest {n}"
  | .noTree name => "no tree " ++ name
  | .noWalk name => "no iterator " ++ name
  | .noLink => "no link"
  | .failed failure => failure.message

end SharedForest

/-
Options of a store, fixed when it is made.
-/
set_option autoImplicit false

namespace SharedForest

/-- When a place whose count has dropped to zero is taken back. -/
inductive Reclamation where
  /-- At once, by the release that dropped the last reference. -/
  | immediate
  /-- Later: it is retired, and retired places are taken back together as soon as
  `batch` of them wait, or when a collection is asked for. -/
  | deferred (batch : Nat)
deriving DecidableEq

/-- The debug text of a reclamation policy. -/
def Reclamation.debug : Reclamation → String
  | .immediate => "Immediate"
  | .deferred batch => "Deferred \x7b batch: " ++ toString batch ++ " \x7d"

/-- The largest number of places a store can have; a slot is a 32-bit number, and the two
largest of those are kept out of use. -/
def maxPlaces : Nat := 4294967294

/-- Options of a store. -/
structure Config where
  /-- Places created up front. -/
  initialCapacity : Nat := 0
  /-- How many places there may ever be. -/
  maxNodes : Nat := maxPlaces
  reclamation : Reclamation := .immediate
deriving DecidableEq

namespace Config

/-- Create `n` places up front. -/
def withInitialCapacity (c : Config) (n : Nat) : Config := { c with initialCapacity := n }

/-- Allow at most `n` places, and never more than `maxPlaces`. -/
def withMaxNodes (c : Config) (n : Nat) : Config := { c with maxNodes := min n maxPlaces }

/-- Take places back as `r` says. -/
def withReclamation (c : Config) (r : Reclamation) : Config := { c with reclamation := r }

/-- The debug text of a configuration. -/
def debug (c : Config) : String :=
  "ForestConfig \x7b initial_capacity: " ++ toString c.initialCapacity
    ++ ", max_nodes: " ++ toString c.maxNodes
    ++ ", reclamation: " ++ c.reclamation.debug ++ " \x7d"

end Config

end SharedForest

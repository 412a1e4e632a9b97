/-
Actions on a store.

An action may end in a failure, and what it did to the store until then stays
done: that is the order of the two layers in `StoreM`.  Whoever holds references
when a failure passes through gives them back, and `guarding` is the one place
where this is written down: it names the references that are held while an inner
action runs.  The order of the list matters, because it is the order in which
places become free and are handed out again.
-/
import SharedForest.Store.Basic

set_option autoImplicit false

namespace SharedForest

/-- An action on a store with payload `ν`. -/
abbrev StoreM (ν α : Type) := EStateM Failure (Store ν) α

namespace StoreM

variable {ν α : Type}

/-- Read the store without changing it. -/
def view (f : Store ν → Except Fault α) : StoreM ν α := fun s =>
  match f s with
  | .ok a => .ok a s
  | .error e => .error (.fault e) s

/-- The cell at a slot that must be live. -/
def read (i : Nat) : StoreM ν (Cell ν) := view (·.read i)

/-- End with an answer instead of a result. -/
def refuse (why : Refusal) : StoreM ν α := throw (.refused why)

end StoreM

end SharedForest

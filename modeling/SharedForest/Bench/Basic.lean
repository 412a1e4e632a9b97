/-
A bench: one bare store, and references held under names.

Where a session hands out snapshots of trees, a bench works on the places
themselves.  A name holds at most one reference.  Slots may also be given as plain
numbers, and then it is up to the user whose reference is meant.
-/
import SharedForest.Store.Reclaim
import SharedForest.Session.Trouble
import SharedForest.Session.Names

set_option autoImplicit false

namespace SharedForest

/-- A store and named references into it. -/
structure Bench (ν : Type) where
  store : Store ν
  links : Names Nat := {}

/-- An action on a bench. -/
abbrev BenchM (ν α : Type) := EStateM Trouble (Bench ν) α

namespace Bench

variable {ν α : Type}

/-- A bench with an empty store. -/
def new (config : Config) : Bench ν := { store := .new config }

/-- Act on the store. -/
def onStore (action : StoreM ν α) : BenchM ν α := fun b =>
  match action b.store with
  | .ok a store => .ok a { b with store }
  | .error e store => .error (.failed e) { b with store }

/-- The slot a name holds a reference to. -/
def link (name : String) : BenchM ν Nat := do
  match (← get).links.get? name with
  | some i => pure i
  | none => throw .noLink

/-- Take the reference from a name; nothing if it holds none. -/
def take (name : Option String) : BenchM ν (Option Nat) := do
  match name with
  | none => pure none
  | some name =>
    let held := (← get).links.get? name
    modify fun b => { b with links := b.links.erase name }
    pure held

/-- Let a name hold `root`, or nothing, and drop the reference it held before. -/
def keep (name : String) (root : Option Nat) : BenchM ν Unit := do
  let old := (← get).links.get? name
  modify fun b =>
    { b with
      links := match root with
        | some i => b.links.put name i
        | none => b.links.erase name }
  onStore (StoreM.unshare old)

end Bench

end SharedForest

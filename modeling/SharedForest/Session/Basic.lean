/-
A session: several forests, and handles kept under names.

A handle is held in one of three ways: as a named tree, inside a named walk that
owns the tree it goes through, or in the registry of a forest.  A session gives a
handle up only when it is told to, or when its name is taken by another one, and the
new handle is always made before the old one goes.
-/
import SharedForest.Forest.Reading
import SharedForest.Session.Trouble
import SharedForest.Session.Names
import SharedForest.Traversal.Pull

set_option autoImplicit false

namespace SharedForest

/-- A traversal that owns the tree it goes through. -/
structure Walk where
  tree : Snapshot
  position : Traversal

/-- Forests, named trees and named walks. -/
structure Session (K V T : Type) where
  /-- The forest at each position has that position as its number. -/
  forests : Array (Forest K V T)
  trees : Names Snapshot := {}
  walks : Names Walk := {}

/-- An action on a session. -/
abbrev SessionM (K V T α : Type) := EStateM Trouble (Session K V T) α

namespace Session

variable {K V T α : Type}

/-- Fresh forests, all with one augmentation. -/
def new (augment : Augment K V T) (configs : List Config) : Session K V T where
  forests := (configs.mapIdx fun id config => Forest.new id augment config).toArray

/-- Every handle the session holds, registered ones included. -/
def handles (s : Session K V T) : List Snapshot :=
  s.trees.all ++ s.walks.all.map (·.tree)
    ++ s.forests.toList.flatMap fun f => f.registry.map (·.2)

/-- Act on one forest. -/
def onForest (number : Nat) (action : ForestM K V T α) : SessionM K V T α := fun s =>
  match s.forests[number]? with
  | none => .error (.noForest number) s
  | some f =>
    match action f with
    | .ok a f => .ok a { s with forests := s.forests.setIfInBounds number f }
    | .error e f => .error (.failed e) { s with forests := s.forests.setIfInBounds number f }

/-- Read one forest. -/
def onView (number : Nat) (look : Forest K V T → Except Fault α) : SessionM K V T α := fun s =>
  match s.forests[number]? with
  | none => .error (.noForest number) s
  | some f =>
    match look f with
    | .ok a => .ok a s
    | .error e => .error (.failed (.fault e)) s

/-- The tree under a name. -/
def tree (name : String) : SessionM K V T Snapshot := do
  match (← get).trees.get? name with
  | some t => pure t
  | none => throw (.noTree name)

/-- The walk under a name. -/
def walk (name : String) : SessionM K V T Walk := do
  match (← get).walks.get? name with
  | some w => pure w
  | none => throw (.noWalk name)

/-- A tree with the forest it is of. -/
def look (s : Session K V T) (name : String) : Except Trouble (Forest K V T × Snapshot) :=
  match s.trees.get? name with
  | none => .error (.noTree name)
  | some t =>
    match s.forests[t.forest]? with
    | none => .error (.noForest t.forest)
    | some f => .ok (f, t)

/-- Give a handle up. -/
def discard (t : Snapshot) : SessionM K V T Unit := onForest t.forest (Forest.drop t)

/-- Keep a handle under a name, and give up the one that was there. -/
def keep (name : String) (t : Snapshot) : SessionM K V T Unit := do
  let old := (← get).trees.get? name
  modify fun s => { s with trees := s.trees.put name t }
  if let some old := old then discard old

end Session

end SharedForest

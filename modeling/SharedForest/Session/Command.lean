/-
What a session can be told to do.

A command changes a session; `exec` carries it out.  A command that makes a tree
keeps it under a name and then takes a note of it.  What is noted is up to the
caller: `exec` works with any function of the forest and the new handle, and is only
particular about the moment, which is after the handle has been kept and the one
that had the name before has been given up.
-/
import SharedForest.Session.Basic

set_option autoImplicit false

namespace SharedForest

/-- A command; trees and walks are given by name, forests by number.  Keys that are only looked up
may be given by what stands for them, a `Q`. -/
inductive Command (K V : Type) (Q : Type := K) where
  | empty (forest : Nat) (dest : String)
  | ofSorted (forest : Nat) (items : List (K × V)) (dest : String)
  | ofEntries (forest : Nat) (items : List (K × V)) (dest : String)
  | insert (tree : String) (key : K) (value : V) (dest : String)
  | remove (tree : String) (key : Q) (dest : String)
  | tryRemove (tree : String) (key : Q) (dest : String)
  | split (tree : String) (key : Q) (below above : String)
  | join (left : String) (key : K) (value : V) (right dest : String)
  | concat (left right dest : String)
  | union (ours theirs : String) (merge : K → V → V → V) (dest : String)
  | copy (tree dest : String)
  | drop (tree : String)
  /-- Turn a named tree into a named walk through it. -/
  | intoWalk (tree walk : String)
  | pull (walk : String) (pulls : List Pull)
  | dropWalk (walk : String)
  | register (forest : Nat) (tree : String)
  | lookup (forest : Nat) (version : UInt64) (dest : String)
  /-- Take a tree out of a registry, and keep it under a name or give it up. -/
  | unregister (forest : Nat) (version : UInt64) (dest : Option String)
  | collect (forest : Nat)

/-- What a command answers; `ω` is what is noted of a tree. -/
inductive Outcome (K V ω : Type) where
  | stored (note : ω)
  /-- There was no tree to keep. -/
  | nothing
  /-- Whether the tree is the same as the one the key was to be removed from. -/
  | removed (note : ω) (same : Bool)
  | removedValue (note : ω) (value : V)
  | split (below : ω) (found : Option V) (above : ω)
  /-- Each call of the merge function with its arguments, in order. -/
  | united (note : ω) (calls : List (K × V × V))
  | flag (b : Bool)
  | count (n : Nat)
  | version (v : UInt64)
  | yields (ys : List (Yield K V))

namespace Session

variable {K Q V T ω : Type}

/-- Keep a tree under a name and take a note of it. -/
def store (note : Forest K V T → Snapshot → Except Fault ω) (dest : String) (t : Snapshot) :
    SessionM K V T ω := do
  keep dest t
  onView t.forest (note · t)

/-- Carry out a command, with `sort` to put entries in order. -/
def execBy [Ord K] [Ord Q] [KeyView K Q] (sort : List (K × V) → List (K × V))
    (note : Forest K V T → Snapshot → Except Fault ω) :
    Command K V Q → SessionM K V T (Outcome K V ω)
  | .empty forest dest => do
    let t ← onForest forest Forest.empty
    return .stored (← store note dest t)
  | .ofSorted forest items dest => do
    let t ← onForest forest (Forest.ofSorted items)
    return .stored (← store note dest t)
  | .ofEntries forest items dest => do
    let t ← onForest forest (Forest.ofEntriesBy sort items)
    return .stored (← store note dest t)
  | .insert name key value dest => do
    let t ← tree name
    let t' ← onForest t.forest (Forest.insert t key value)
    return .stored (← store note dest t')
  | .remove name key dest => do
    let t ← tree name
    let t' ← onForest t.forest (Forest.remove t key)
    return .removed (← store note dest t') (Forest.sameRoot t t')
  | .tryRemove name key dest => do
    let t ← tree name
    let (t', value) ← onForest t.forest (Forest.tryRemove t key)
    return .removedValue (← store note dest t') value
  | .split name key below above => do
    let t ← tree name
    let (l, found, r) ← onForest t.forest (Forest.split t key)
    -- The first note is taken before the second part is kept: both may have the same name.
    let l ← store note below l
    let r ← store note above r
    return .split l found r
  | .join left key value right dest => do
    let l ← tree left
    let r ← tree right
    let t ← onForest l.forest (Forest.join l key value r)
    return .stored (← store note dest t)
  | .concat left right dest => do
    let l ← tree left
    let r ← tree right
    let t ← onForest l.forest (Forest.concat l r)
    return .stored (← store note dest t)
  | .union ours theirs merge dest => do
    let a ← tree ours
    let b ← tree theirs
    let (t, calls) ← onForest a.forest
      (CarryM.runFrom [] (Forest.union (recordCalls merge) a b))
    return .united (← store note dest t) calls.reverse
  | .copy name dest => do
    let t ← tree name
    let t' ← onForest t.forest (Forest.copy t)
    return .stored (← store note dest t')
  | .drop name => do
    match (← get).trees.get? name with
    | none => return .flag false
    | some t =>
      modify fun s => { s with trees := s.trees.erase name }
      discard t
      return .flag true
  | .intoWalk name dest => do
    let t ← tree name
    let position ← onView t.forest (·.traverse t)
    let old := (← get).walks.get? dest
    modify fun s =>
      { s with trees := s.trees.erase name, walks := s.walks.put dest ⟨t, position⟩ }
    if let some old := old then discard old.tree
    return .count position.remaining
  | .pull name pulls => do
    let w ← walk name
    let (ys, position) ← onView w.tree.forest fun f => w.position.pulls f.store pulls
    modify fun s => { s with walks := s.walks.put name { w with position } }
    return .yields ys
  | .dropWalk name => do
    match (← get).walks.get? name with
    | none => return .flag false
    | some w =>
      modify fun s => { s with walks := s.walks.erase name }
      discard w.tree
      return .flag true
  | .register forest name => do
    let t ← tree name
    return .version (← onForest forest (Forest.register t))
  | .lookup forest version dest => do
    match ← onForest forest (Forest.lookup version) with
    | some t => return .stored (← store note dest t)
    | none => return .nothing
  | .unregister forest version dest => do
    match ← onForest forest (Forest.unregister version), dest with
    | some t, some dest => return .stored (← store note dest t)
    | some t, none =>
      discard t
      return .flag true
    | none, _ => return .flag false
  | .collect forest => do
    return .count (← onForest forest Forest.collect)

/-- Carry out a command. -/
def exec [Ord K] [Ord Q] [KeyView K Q] (note : Forest K V T → Snapshot → Except Fault ω) :
    Command K V Q → SessionM K V T (Outcome K V ω) :=
  execBy Forest.sortByKey note

/-- Carry out commands one after another, up to the first that fails; the last outcome. -/
def execWhile [Ord K] [Ord Q] [KeyView K Q] (note : Forest K V T → Snapshot → Except Fault ω) :
    List (Command K V Q) → SessionM K V T (Outcome K V ω)
  | [] => return .nothing
  | [c] => exec note c
  | c :: cs => do
    let _ ← exec note c
    execWhile note cs

/-- Carry out commands one after another, whatever their outcomes, with `sort` to put entries in
order. -/
def execAllBy [Ord K] [Ord Q] [KeyView K Q] (sort : List (K × V) → List (K × V)) :
    List (Command K V Q) → Session K V T → Session K V T
  | [], s => s
  | c :: cs, s =>
    match execBy sort (fun _ _ => .ok ()) c s with
    | .ok _ s' => execAllBy sort cs s'
    | .error _ s' => execAllBy sort cs s'

end Session

end SharedForest

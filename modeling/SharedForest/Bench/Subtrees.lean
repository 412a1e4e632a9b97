/-
Working on bare subtrees.

The commands hand owned subtrees to the algorithms and keep what comes back under
names, red roots included.  A node can also be stored as it is, with links and
caches that need not be right; what the algorithms then do is up to them.

As in a session, a note is taken of each result.  Here it is taken before the result
is kept, so what the name held before is still there.
-/
import SharedForest.Bench.Basic
import SharedForest.Subtree.Union
import SharedForest.Subtree.Build

set_option autoImplicit false

namespace SharedForest

/-- A command on a bench of subtrees.  A subtree that is consumed is given by the name that holds
it; a name that holds nothing, or no name, stands for the absent one. -/
inductive SubtreeCommand (K V T : Type) where
  /-- Store a node as it is.  Plain slots are used where no held subtree is given. -/
  | plant (left right : Option String) (bareLeft bareRight : Option Nat) (node : Node K V T)
      (dest : String)
  | assemble (left : Option String) (key : K) (value : V) (color : Color) (right : Option String)
      (dest : String)
  | build (items : List (K × V)) (count : Nat) (dest : String)
  | join (left : Option String) (key : K) (value : V) (right : Option String) (dest : String)
  | append (left right : Option String) (dest : String)
  | split (tree : Option String) (key : K) (below above : String)
  | insert (tree : Option String) (key : K) (value : V) (dest : String)
  | remove (tree : Option String) (key : K) (dest : String)
  | union (ours theirs : Option String) (merge : K → V → V → V) (dest : String)
  | blacken (tree : Option String) (dest : String)
  /-- Take one more reference to the root of a subtree, given by its slot. -/
  | share (root : Option Nat) (dest : String)
  | drop (name : String)
  | collect

/-- What such a command answers; `ω` is what is noted of a subtree that is not absent. -/
inductive SubtreeOutcome (K V ω : Type) where
  | slot (i : Nat)
  | shown (note : Option ω)
  | split (below : Option ω) (found : Option V) (above : Option ω)
  | removed (note : Option ω) (found : Option V)
  | united (note : Option ω) (calls : List (K × V × V))
  | count (n : Nat)
  | stats (s : Stats)

namespace Bench

variable {K V T ω : Type}

/-- A note of an owned subtree.  If it cannot be taken, the subtree is given back, and before it
what else is held. -/
def noteOf (note : NodeStore K V T → Nat → Except Fault ω) (held : List Nat)
    (root : Option Nat) : BenchM (Node K V T) (Option ω) := do
  match root with
  | none => pure none
  | some i => some <$> onStore (StoreM.guarding (held ++ [i]) (StoreM.view (note · i)))

/-- Take a note of an owned subtree and keep it under a name. -/
def present (note : NodeStore K V T → Nat → Except Fault ω) (dest : String) (root : Option Nat)
    (held : List Nat := []) : BenchM (Node K V T) (Option ω) := do
  let shown ← noteOf note held root
  keep dest root
  pure shown

/-- Carry out a command with an augmentation. -/
def execSubtree [Ord K] (aug : Augment K V T) (note : NodeStore K V T → Nat → Except Fault ω) :
    SubtreeCommand K V T → BenchM (Node K V T) (SubtreeOutcome K V ω)
  | .plant left right bareLeft bareRight node dest => do
    let l ← take left
    let r ← take right
    let i ← onStore (StoreM.allocate ⟨l.or bareLeft, r.or bareRight, node⟩)
    keep dest (some i)
    return .slot i
  | .assemble left key value color right dest => do
    let l ← take left
    let r ← take right
    let i ← onStore (Subtree.assemble aug l key value color r)
    return .shown (← present note dest (some i))
  | .build items count dest => do
    let root ← onStore (Subtree.build aug items count)
    return .shown (← present note dest root)
  | .join left key value right dest => do
    let l ← take left
    let r ← take right
    let i ← onStore (Subtree.join aug l key value r)
    return .shown (← present note dest (some i))
  | .append left right dest => do
    let l ← take left
    let r ← take right
    let root ← onStore (Subtree.append aug l r)
    return .shown (← present note dest root)
  | .split tree key below above => do
    let t ← take tree
    let p ← onStore (Subtree.split aug t key)
    let l ← present note below p.below p.above.toList
    let r ← present note above p.above
    return .split l p.found r
  | .insert tree key value dest => do
    let t ← take tree
    let i ← onStore (Subtree.insert aug t key value)
    return .shown (← present note dest (some i))
  | .remove tree key dest => do
    let t ← take tree
    let (root, found) ← onStore (Subtree.remove aug t key)
    return .removed (← present note dest root) found
  | .union ours theirs merge dest => do
    let a ← take ours
    let b ← take theirs
    let (root, calls) ← onStore
      (CarryM.runFrom [] (Subtree.union aug (recordCalls merge) a b))
    return .united (← present note dest root) calls.reverse
  | .blacken tree dest => do
    let t ← take tree
    let root ← onStore (Subtree.blacken aug t)
    return .shown (← present note dest root)
  | .share root dest => do
    let shared ← onStore (StoreM.share root)
    let store := (← get).store
    keep dest shared
    return .count ((shared.map fun i => (store.refs i).toNat).getD 0)
  | .drop name => do
    keep name none
    return .stats (← get).store.stats
  | .collect => do return .count (← onStore StoreM.collect)

end Bench

end SharedForest

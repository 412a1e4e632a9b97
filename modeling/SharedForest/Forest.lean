/-
A forest: one store, one augmentation, and the snapshots taken of it.

A snapshot is a handle on a tree.  It owns one reference to the root and carries a
version, a tag that every newly derived tree gets afresh and copies share.  No
function here changes a tree that a snapshot shows: each returns a new snapshot, or
refuses and leaves every other snapshot as it was.  A forest also keeps a registry,
which is a list of snapshots by version, in increasing order.
-/
import SharedForest.Subtree.Union
import SharedForest.Subtree.Build
import SharedForest.Subtree.Search

set_option autoImplicit false

namespace SharedForest

/-- A handle on a tree of some forest. -/
structure Snapshot where
  /-- The number of the forest. -/
  forest : Nat
  root : Option Nat
  version : UInt64
deriving DecidableEq

/-- A forest with trees from keys `K` to values `V`. -/
structure Forest (K V T : Type) where
  id : Nat
  store : NodeStore K V T
  augment : Augment K V T
  /-- How many snapshots have been derived. -/
  derived : Nat
  /-- Registered snapshots, versions increasing. -/
  registry : List (UInt64 × Snapshot)

/-- An action on a forest. -/
abbrev ForestM (K V T α : Type) := EStateM Failure (Forest K V T) α

namespace Forest

variable {γ K Q V T α : Type}

/-- A forest with nothing in it. -/
def new (id : Nat) (augment : Augment K V T) (config : Config) : Forest K V T where
  id
  store := .new config
  augment
  derived := 0
  registry := []

/-- An action on the store of a forest. -/
def onStore (action : Augment K V T → NodeM K V T α) : ForestM K V T α := fun f =>
  match action f.augment f.store with
  | .ok a store => .ok a { f with store }
  | .error e store => .error e { f with store }

/-- An action on the store of a forest that carries a state along. -/
def onStoreCarrying (action : Augment K V T → CarryM γ (NodeStore K V T) α) :
    CarryM γ (Forest K V T) α := fun (f, g) =>
  match action f.augment (f.store, g) with
  | .ok a (store, g) => .ok a ({ f with store }, g)
  | .error e (store, g) => .error e ({ f with store }, g)

/-- Refuse to answer. -/
def refuse (why : Refusal) : ForestM K V T α := throw (.refused why)

/-! ## Snapshots -/

/-- A snapshot, under a new version, of a tree whose root the caller owns.  Versions are 64-bit
words, handed out in order. -/
def derive (root : Option Nat) : ForestM K V T Snapshot := fun f =>
  .ok ⟨f.id, root, UInt64.ofNat f.derived⟩ { f with derived := f.derived + 1 }

/-- One more handle on the same tree, under the same version. -/
def copy (t : Snapshot) : ForestM K V T Snapshot := do
  let _ ← onStore fun _ => StoreM.share t.root
  pure t

/-- Give a handle up. -/
def drop (t : Snapshot) : ForestM K V T Unit :=
  onStore fun _ => StoreM.unshare t.root

/-- Whether a snapshot is of this forest. -/
def owns (f : Forest K V T) (t : Snapshot) : Bool := t.forest == f.id

/-- Go on only if the snapshot is of this forest. -/
def requireOwn (t : Snapshot) : ForestM K V T Unit := do
  unless (← get).owns t do refuse .foreignTree

/-! ## Making trees -/

/-- A tree without entries. -/
def empty : ForestM K V T Snapshot := derive none

/-- The first position whose key is not above the key before it. -/
def firstDisorder [Ord K] : List (K × V) → Nat → Option Nat
  | a :: b :: rest, i =>
    if compare a.1 b.1 = .lt then firstDisorder (b :: rest) (i + 1) else some (i + 1)
  | _, _ => none

/-- A tree of entries whose keys increase strictly. -/
def ofSorted [Ord K] (items : List (K × V)) : ForestM K V T Snapshot := do
  match firstDisorder items 0 with
  | some p => refuse (.invariantViolation (.notIncreasing p))
  | none =>
    let root ← onStore fun aug => Subtree.build aug items items.length
    derive root

/-- Insert an entry into a list that is sorted from the largest key down, in front of those that
are not larger. -/
def insertDescending [Ord K] (e : K × V) : List (K × V) → List (K × V)
  | [] => [e]
  | x :: xs => if compare e.1 x.1 = .lt then x :: insertDescending e xs else e :: x :: xs

/-- The entries sorted by key; entries with equal keys keep their order. -/
def sortByKey [Ord K] (items : List (K × V)) : List (K × V) :=
  (items.foldl (fun sorted e => insertDescending e sorted) []).reverse

/-- Drop every entry whose key equals that of the last entry kept before it. -/
def dropRepeats [Ord K] : List (K × V) → List (K × V)
  | [] => []
  | e :: rest => e :: go e rest
where
  go (kept : K × V) : List (K × V) → List (K × V)
    | [] => []
    | e :: rest => if compare e.1 kept.1 = .eq then go kept rest else e :: go e rest

/-- A tree of entries in any order, which `sort` is to put in order; of entries with equal keys the
first one in its result counts. -/
def ofEntriesBy [Ord K] (sort : List (K × V) → List (K × V)) (items : List (K × V)) :
    ForestM K V T Snapshot :=
  ofSorted (dropRepeats (sort items.reverse))

/-- A tree of entries in any order; of entries with equal keys the last one counts. -/
def ofEntries [Ord K] (items : List (K × V)) : ForestM K V T Snapshot :=
  ofEntriesBy sortByKey items

/-! ## Deriving trees -/

/-- The tree with `v` at `k`. -/
def insert [Ord K] (t : Snapshot) (k : K) (v : V) : ForestM K V T Snapshot := do
  let root ← onStore fun aug => do Subtree.insert aug (← StoreM.share t.root) k v
  derive (some root)

/-- The tree without `key`, and the value that was there. -/
def tryRemove [Ord Q] [KeyView K Q] (t : Snapshot) (key : Q) :
    ForestM K V T (Snapshot × V) := do
  match ← onStore fun _ => StoreM.view (Subtree.find · t.root key) with
  | none => refuse .keyNotFound
  | some _ =>
    let (root, removed) ← onStore fun aug => do
      Subtree.remove aug (← StoreM.share t.root) key
    match removed with
    | some v => return (← derive root, v)
    | none =>
      onStore fun _ => StoreM.unshare root
      refuse .keyNotFound

/-- The tree without `key`; if it has no such key, a copy of the snapshot. -/
def remove [Ord Q] [KeyView K Q] (t : Snapshot) (key : Q) : ForestM K V T Snapshot := fun f =>
  match tryRemove t key f with
  | .ok (t', _) f' => .ok t' f'
  | .error (.refused .keyNotFound) f' => copy t f'
  | .error e f' => .error e f'

/-- The trees of what is below and what is above `key`, and the value at it. -/
def split [Ord Q] [KeyView K Q] (t : Snapshot) (key : Q) :
    ForestM K V T (Snapshot × Option V × Snapshot) := do
  let (l, found, r) ← onStore fun aug => do
    let p ← Subtree.split aug (← StoreM.share t.root) key
    let l ← StoreM.guarding p.above.toList (Subtree.blacken aug p.below)
    let r ← StoreM.guarding l.toList (Subtree.blacken aug p.above)
    pure (l, p.found, r)
  let below ← derive l
  let above ← derive r
  pure (below, found, above)

/-- The key at the slot, if there is one. -/
def keyAt (slot : Option Nat) : ForestM K V T (Option K) := do
  match slot with
  | none => pure none
  | some i => pure (some (← onStore fun _ => StoreM.read i).data.key)

/-- The largest key of a tree. -/
def lastKey (t : Snapshot) : ForestM K V T (Option K) := do
  keyAt (← onStore fun _ => StoreM.view (Subtree.last · t.root))

/-- The smallest key of a tree. -/
def firstKey (t : Snapshot) : ForestM K V T (Option K) := do
  keyAt (← onStore fun _ => StoreM.view (Subtree.first · t.root))

/-- Go on only if the last key of the tree is below `k`. -/
def requireBefore [Ord K] (t : Snapshot) (k : K) : ForestM K V T Unit := do
  if let some last ← lastKey t then
    if compare last k ≠ .lt then refuse (.invariantViolation .leftReachesKey)

/-- Go on only if the first key of the tree is above `k`. -/
def requireAfter [Ord K] (t : Snapshot) (k : K) : ForestM K V T Unit := do
  if let some first ← firstKey t then
    if compare first k ≠ .gt then refuse (.invariantViolation .rightReachesKey)

/-- Go on only if the last key of the one tree is below the first key of the other. -/
def requireApart [Ord K] (left right : Snapshot) : ForestM K V T Unit := do
  match ← lastKey left, ← firstKey right with
  | some last, some first =>
    if compare last first ≠ .lt then refuse (.invariantViolation .overlap)
  | _, _ => pure ()

/-- The tree of all entries of `left`, the entry `(k, v)`, and all entries of `right`, if that is
an increasing sequence of keys. -/
def join [Ord K] (left : Snapshot) (k : K) (v : V) (right : Snapshot) :
    ForestM K V T Snapshot := do
  requireOwn right
  requireBefore left k
  requireAfter right k
  let root ← onStore fun aug => do
    let l ← StoreM.share left.root
    let r ← StoreM.share right.root
    let joined ← Subtree.join aug l k v r
    Subtree.blacken aug (some joined)
  derive root

/-- The tree of all entries of `left` and all entries of `right`, if that is an increasing sequence
of keys. -/
def concat [Ord K] (left right : Snapshot) : ForestM K V T Snapshot := do
  requireOwn right
  requireApart left right
  let root ← onStore fun aug => do
    let l ← StoreM.share left.root
    let r ← StoreM.share right.root
    let joined ← Subtree.append aug l r
    Subtree.blacken aug joined
  derive root

/-- The tree of all entries of `ours` and `theirs`.  For a key in both, `merge` settles the value;
it may keep a state from call to call. -/
def union [Ord K] (merge : K → V → V → γ → V × γ) (ours theirs : Snapshot) :
    CarryM γ (Forest K V T) Snapshot := do
  CarryM.lift (requireOwn theirs)
  let root ← onStoreCarrying fun aug => do
    let t₁ ← CarryM.lift (StoreM.share ours.root)
    let t₂ ← CarryM.lift (StoreM.share theirs.root)
    let united ← Subtree.union aug merge t₁ t₂
    CarryM.lift (Subtree.blacken aug united)
  CarryM.lift (derive root)

/-! ## The registry -/

/-- Put a snapshot into a list in order of versions; the one it replaces comes back with it. -/
def enter (t : Snapshot) : List (UInt64 × Snapshot) → List (UInt64 × Snapshot) × Option Snapshot
  | [] => ([(t.version, t)], none)
  | (v, old) :: rest =>
    if t.version < v then ((t.version, t) :: (v, old) :: rest, none)
    else if t.version = v then ((t.version, t) :: rest, some old)
    else
      let (rest, replaced) := enter t rest
      ((v, old) :: rest, replaced)

/-- Put a snapshot into the registry, and give up the one it replaces. -/
def shelve (t : Snapshot) : ForestM K V T Unit := fun f =>
  let entered := enter t f.registry
  match entered.2 with
  | some old => drop old { f with registry := entered.1 }
  | none => .ok () { f with registry := entered.1 }

/-- Keep a copy of a snapshot under its version. -/
def register (t : Snapshot) : ForestM K V T UInt64 := do
  requireOwn t
  shelve (← copy t)
  pure t.version

/-- A copy of the snapshot registered under a version. -/
def lookup (version : UInt64) : ForestM K V T (Option Snapshot) := do
  match (← get).registry.lookup version with
  | some t => some <$> copy t
  | none => pure none

/-- Take the snapshot registered under a version out of the registry. -/
def unregister (version : UInt64) : ForestM K V T (Option Snapshot) := fun f =>
  match f.registry.lookup version with
  | some t => .ok (some t) { f with registry := f.registry.filter (·.1 != version) }
  | none => .ok none f

/-- All registered versions, in increasing order. -/
def versions (f : Forest K V T) : List UInt64 := f.registry.map (·.1)

/-! ## Housekeeping -/

/-- Take back every place that waits; how many were freed. -/
def collect : ForestM K V T Nat := onStore fun _ => StoreM.collect

/-- How the places of the store are used. -/
def stats (f : Forest K V T) : Stats := f.store.stats

/-- The debug text of a forest, with `number` in the place of its own number. -/
def debug (number : String) (f : Forest K V T) : String :=
  "Forest \x7b id: " ++ number
    ++ ", trees: [" ++ ", ".intercalate (f.versions.map fun v => toString v.toNat)
    ++ "], stats: " ++ f.stats.debug ++ " \x7d"

end Forest

end SharedForest

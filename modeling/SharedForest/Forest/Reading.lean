/-
What a snapshot shows.

Nothing here changes a forest.  Reading may fault only where a snapshot was not
given out by the forest it is read in.
-/
import SharedForest.Forest
import SharedForest.Subtree.Check
import SharedForest.Subtree.Drawing
import SharedForest.Cursor

set_option autoImplicit false

namespace SharedForest

namespace Forest

variable {K Q V T : Type}

/-- What `f` says of the root of a tree, or `absent` for a tree without entries. -/
def ofRoot {α : Type} (f : Forest K V T) (t : Snapshot) (absent : α) (of : Node K V T → α) :
    Except Fault α :=
  match t.root with
  | none => .ok absent
  | some i => do return of (← f.store.read i).data

/-- The number of entries. -/
def size (f : Forest K V T) (t : Snapshot) : Except Fault Nat :=
  f.ofRoot t 0 (·.size.toNat)

/-- Whether there are no entries. -/
def isEmpty (t : Snapshot) : Bool := t.root.isNone

/-- The black nodes on every way down from the root, which is not counted. -/
def blackHeight (f : Forest K V T) (t : Snapshot) : Except Fault Nat :=
  f.ofRoot t 0 (·.innerHeight.toNat)

/-- The aggregate of all entries; none if there are no entries. -/
def aggregate (f : Forest K V T) (t : Snapshot) : Except Fault (Option T) :=
  f.ofRoot t none (some ·.aggregate)

/-- Whether two snapshots are of one forest. -/
def sameForest (a b : Snapshot) : Bool := a.forest == b.forest

/-- Whether two snapshots show the same tree because they have the same root. -/
def sameRoot (a b : Snapshot) : Bool := sameForest a b && a.root == b.root

/-- The entry at a slot that a search answered. -/
def entryAt (f : Forest K V T) (slot : Option Nat) : Except Fault (Option (K × V)) :=
  match slot with
  | none => .ok none
  | some i => do return some (← f.store.read i).data.entry

/-- The value at `key`. -/
def get? [Ord Q] [KeyView K Q] (f : Forest K V T) (t : Snapshot) (key : Q) :
    Except Fault (Option V) := do
  return (← f.entryAt (← Subtree.find f.store t.root key)).map (·.2)

/-- The value at `key`, or a refusal. -/
def tryGet [Ord Q] [KeyView K Q] (f : Forest K V T) (t : Snapshot) (key : Q) :
    Except Failure V :=
  match f.get? t key with
  | .error e => .error (.fault e)
  | .ok none => .error (.refused .keyNotFound)
  | .ok (some v) => .ok v

/-- Whether `key` has a value. -/
def containsKey [Ord Q] [KeyView K Q] (f : Forest K V T) (t : Snapshot) (key : Q) :
    Except Fault Bool := do
  return (← Subtree.find f.store t.root key).isSome

/-- How many keys are below `key`. -/
def rank [Ord Q] [KeyView K Q] (f : Forest K V T) (t : Snapshot) (key : Q) :
    Except Fault Nat :=
  Subtree.countWhile f.store t.root (stored · key == .lt)

/-- The entry with `rank` entries before it. -/
def atRank (f : Forest K V T) (t : Snapshot) (rank : Nat) : Except Fault (Option (K × V)) := do
  f.entryAt (← Subtree.select f.store t.root rank)

/-- The first entry. -/
def first (f : Forest K V T) (t : Snapshot) : Except Fault (Option (K × V)) := do
  f.entryAt (← Subtree.first f.store t.root)

/-- The last entry. -/
def last (f : Forest K V T) (t : Snapshot) : Except Fault (Option (K × V)) := do
  f.entryAt (← Subtree.last f.store t.root)

/-- Search with a function that orders an entry against the target. -/
def searchBy (f : Forest K V T) (t : Snapshot) (order : K → V → Ordering) :
    Except Fault (SearchResult (K × V)) := do
  match ← Subtree.searchBy f.store t.root order with
  | .empty => return .empty
  | .leftOf i => return .leftOf (← f.store.read i).data.entry
  | .here i => return .here (← f.store.read i).data.entry
  | .rightOf i => return .rightOf (← f.store.read i).data.entry

/-- All entries, in order. -/
def entries (f : Forest K V T) (t : Snapshot) : Except Fault (List (K × V)) :=
  Subtree.entries f.store t.root

/-- Around all entries. -/
def traverse (f : Forest K V T) (t : Snapshot) : Except Fault Traversal :=
  Traversal.full f.store t.root

/-- Around the entries whose keys lie within bounds. -/
def traverseRange [Ord Q] [KeyView K Q] (f : Forest K V T) (t : Snapshot) (start stop : Bound Q) :
    Except Fault Traversal :=
  Traversal.range f.store t.root start stop

/-- Check every rule the tree must keep. -/
def validate [Ord K] [BEq T] (f : Forest K V T) (t : Snapshot) : Except Defect Unit :=
  Subtree.check f.store f.augment t.root

/-- A picture of the nodes. -/
def print [Written K] [Written V] (f : Forest K V T) (t : Snapshot) : String :=
  Subtree.print f.store t.root ""

/-- The nodes on one line. -/
def shape [Written K] (f : Forest K V T) (t : Snapshot) : String :=
  Subtree.shape f.store t.root

end Forest

end SharedForest

/-
Going through a subtree in order, from either end.

A traversal keeps two stacks of slots.  The top of `front` is the next entry in
order and the top of `back` the next one from the end; below the top lie the nodes
that wait until everything before them is done.  The stacks overlap in the middle,
so it is `remaining` that ends the traversal from both sides at once.

A range starts with the same stacks, cut off at its bounds.
-/
import SharedForest.Subtree.Search

set_option autoImplicit false

namespace SharedForest

/-- One end of a range of keys. -/
inductive Bound (Q : Type) where
  | included (q : Q)
  | excluded (q : Q)
  | unbounded

namespace Bound

variable {K Q : Type}

/-- Whether `k` lies below a range that starts at the bound. -/
def keyBelow [Ord Q] [KeyView K Q] (start : Bound Q) (k : K) : Bool :=
  match start with
  | .included q => stored k q == .lt
  | .excluded q => stored k q != .gt
  | .unbounded => false

/-- Whether `k` does not lie beyond a range that stops at the bound. -/
def keyWithin [Ord Q] [KeyView K Q] (stop : Bound Q) (k : K) : Bool :=
  match stop with
  | .included q => stored k q != .gt
  | .excluded q => stored k q == .lt
  | .unbounded => true

end Bound

/-- The position of a traversal; stacks have their top first. -/
structure Traversal where
  front : List Nat
  back : List Nat
  remaining : Nat

namespace Traversal

variable {K Q V T : Type}

/-- Push the left spine from `t` on a stack. -/
def pushLeft (s : NodeStore K V T) (stack : List Nat) (t : Option Nat) :
    Except Fault (List Nat) :=
  s.walk (fun i c stack => (i :: stack, c.left)) stack t

/-- Push the right spine from `t` on a stack. -/
def pushRight (s : NodeStore K V T) (stack : List Nat) (t : Option Nat) :
    Except Fault (List Nat) :=
  s.walk (fun i c stack => (i :: stack, c.right)) stack t

/-- Before the first and after the last entry of a subtree. -/
def full (s : NodeStore K V T) (root : Option Nat) : Except Fault Traversal := do
  let remaining ← Subtree.size s root
  let front ← pushLeft s [] root
  let back ← pushRight s [] root
  return { front, back, remaining }

/-- Around the entries of a subtree whose keys lie within the bounds. -/
def range [Ord Q] [KeyView K Q] (s : NodeStore K V T) (root : Option Nat) (start stop : Bound Q) :
    Except Fault Traversal := do
  let front ← s.walk (fun i c stack =>
    if start.keyBelow c.data.key then (stack, c.right) else (i :: stack, c.left)) [] root
  let back ← s.walk (fun i c stack =>
    if stop.keyWithin c.data.key then (i :: stack, c.right) else (stack, c.left)) [] root
  let skipped ← Subtree.countWhile s root start.keyBelow
  let taken ← Subtree.countWhile s root stop.keyWithin
  -- Bounds the wrong way round leave nothing: the difference stops at zero.
  return { front, back, remaining := taken - skipped }

/-- The next node from the front. -/
def next (s : NodeStore K V T) (t : Traversal) : Except Fault (Option Nat × Traversal) :=
  if t.remaining = 0 then .ok (none, t)
  else
    match t.front with
    | [] => .ok (none, t)
    | i :: rest => do
      let front ← pushLeft s rest (← s.read i).right
      return (some i, { t with front, remaining := t.remaining - 1 })

/-- The next node from the back. -/
def nextBack (s : NodeStore K V T) (t : Traversal) : Except Fault (Option Nat × Traversal) :=
  if t.remaining = 0 then .ok (none, t)
  else
    match t.back with
    | [] => .ok (none, t)
    | i :: rest => do
      let back ← pushRight s rest (← s.read i).left
      return (some i, { t with back, remaining := t.remaining - 1 })

/-- The next entry from the front. -/
def nextEntry (s : NodeStore K V T) (t : Traversal) :
    Except Fault (Option (K × V) × Traversal) := do
  match ← t.next s with
  | (none, t) => return (none, t)
  | (some i, t) => return (some (← s.read i).data.entry, t)

/-- The next entry from the back. -/
def nextBackEntry (s : NodeStore K V T) (t : Traversal) :
    Except Fault (Option (K × V) × Traversal) := do
  match ← t.nextBack s with
  | (none, t) => return (none, t)
  | (some i, t) => return (some (← s.read i).data.entry, t)

/-- At most `n` entries taken with `pull`, until there is none. -/
def takeFor (pull : Traversal → Except Fault (Option (K × V) × Traversal)) :
    Nat → Traversal → Except Fault (List (K × V) × Traversal)
  | 0, t => .ok ([], t)
  | n + 1, t => do
    match ← pull t with
    | (none, t) => return ([], t)
    | (some e, t) =>
      let (es, t) ← takeFor pull n t
      return (e :: es, t)

/-- All entries that are left, from the front. -/
def drain (s : NodeStore K V T) (t : Traversal) : Except Fault (List (K × V) × Traversal) :=
  takeFor (·.nextEntry s) (t.remaining + 1) t

/-- All entries that are left, from the back. -/
def drainBack (s : NodeStore K V T) (t : Traversal) : Except Fault (List (K × V) × Traversal) :=
  takeFor (·.nextBackEntry s) (t.remaining + 1) t

/-- Skip `n` entries with `pull` and take the one after them; nothing if an end is met first. -/
def skipThen (pull : Traversal → Except Fault (Option (K × V) × Traversal)) (n : Nat)
    (t : Traversal) : Except Fault (Option (K × V) × Traversal) := do
  let (_, t) ← takeFor pull (min n t.remaining) t
  if t.remaining = 0 then return (none, t) else pull t

end Traversal

namespace Subtree

variable {K V T : Type}

/-- All entries of a subtree, in order. -/
def entries (s : NodeStore K V T) (root : Option Nat) : Except Fault (List (K × V)) := do
  let t ← Traversal.full s root
  return (← t.drain s).1

end Subtree

end SharedForest

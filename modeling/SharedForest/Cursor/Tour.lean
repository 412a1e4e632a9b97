/-
Moves of a cursor, as data.

A tour is a start and a list of moves.  Each move is answered with what there is to
see from where it leads.
-/
import SharedForest.Cursor

set_option autoImplicit false

namespace SharedForest

/-- Where a tour starts. -/
inductive TourStart (Q : Type) where
  | root
  | front
  | back
  /-- At the first entry whose key is not below `key`. -/
  | atKey (key : Q)

/-- One move of a cursor, or a look round. -/
inductive Move (Q : Type) where
  | next
  | prev
  | seek (key : Q)
  | seekBack (key : Q)
  | parent
  | child (side : Side)
  /-- Look at the neighbours without moving. -/
  | peek
  /-- Look at the entries of the current subtree, in order or from the end. -/
  | below
  | belowBack
  | debug

/-- What there is to see at a node, or at the ghost. -/
structure Position (K V T : Type) where
  entry : Option (K × V)
  depth : Option Nat
  index : Option Nat
  size : Nat
  aggregate : Option T

/-- The entries next to the current one, and the value at it. -/
structure Neighbours (K V : Type) where
  next : Option (K × V)
  prev : Option (K × V)
  parent : Option (K × V)
  left : Option (K × V)
  right : Option (K × V)
  value : Option V

/-- What is seen after a move. -/
inductive Sight (K V T : Type) where
  | position (p : Position K V T)
  /-- A move that is not always possible, and the position after it. -/
  | moved (done : Bool) (p : Position K V T)
  | neighbours (n : Neighbours K V)
  | entries (es : List (K × V))
  | text (s : String)

namespace Cursor

variable {K Q V T : Type}

/-- What there is to see at the cursor. -/
def position (s : NodeStore K V T) (c : Cursor) : Except Fault (Position K V T) := do
  return {
    entry := ← c.entry s
    depth := c.depth
    index := ← c.index s
    size := ← c.subtreeSize s
    aggregate := ← c.subtreeAggregate s }

/-- The neighbours of the current entry. -/
def neighbours (s : NodeStore K V T) (root : Option Nat) (c : Cursor) :
    Except Fault (Neighbours K V) := do
  return {
    next := ← (← c.next s root).entry s
    prev := ← (← c.prev s root).entry s
    parent := ← c.parentEntry s
    left := ← c.childEntry s .left
    right := ← c.childEntry s .right
    value := (← c.entry s).map (·.2) }

/-- Move if there is somewhere to move to. -/
def attempt (s : NodeStore K V T) (c : Cursor) (target : Option Cursor) :
    Except Fault (Sight K V T × Cursor) := do
  let c' := target.getD c
  return (.moved target.isSome (← c'.position s), c')

/-- Make one move in the tree with a given root and version. -/
def move [Ord Q] [KeyView K Q] (s : NodeStore K V T) (root : Option Nat) (version : Nat) (c : Cursor) :
    Move Q → Except Fault (Sight K V T × Cursor)
  | .next => do
    let c ← c.next s root
    return (.position (← c.position s), c)
  | .prev => do
    let c ← c.prev s root
    return (.position (← c.position s), c)
  | .seek key => do
    let c ← seek s root key
    return (.position (← c.position s), c)
  | .seekBack key => do
    let c ← seekBack s root key
    return (.position (← c.position s), c)
  | .parent => attempt s c c.parent?
  | .child side => do attempt s c (← c.child? s side)
  | .peek => return (.neighbours (← c.neighbours s root), c)
  | .below => return (.entries (← (← c.below s).drain s).1, c)
  | .belowBack => return (.entries (← (← c.below s).drainBack s).1, c)
  | .debug => return (.text (debug version c), c)

/-- Where a tour starts. -/
def start [Ord Q] [KeyView K Q] (s : NodeStore K V T) (root : Option Nat) :
    TourStart Q → Except Fault Cursor
  | .root => return atRoot root
  | .front => front s root
  | .back => back s root
  | .atKey key => seek s root key

/-- Make several moves. -/
def moves [Ord Q] [KeyView K Q] (s : NodeStore K V T) (root : Option Nat) (version : Nat) :
    Cursor → List (Move Q) → Except Fault (List (Sight K V T))
  | _, [] => .ok []
  | c, m :: ms => do
    let (sight, c) ← c.move s root version m
    return sight :: (← moves s root version c ms)

/-- The sight at the start of a tour and after each of its moves. -/
def tour [Ord Q] [KeyView K Q] (s : NodeStore K V T) (root : Option Nat) (version : Nat)
    (origin : TourStart Q) (ms : List (Move Q)) : Except Fault (List (Sight K V T)) := do
  let c ← start s root origin
  return .position (← c.position s) :: (← moves s root version c ms)

end Cursor

end SharedForest

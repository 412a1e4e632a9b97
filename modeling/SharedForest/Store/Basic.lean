/-
The store that all trees of a forest share.

A store is a table of places.  A *live* place holds a cell: two links to other
places and a payload.  Every place also carries a count of references, one per
handle and one per link of a live cell that leads to it.  Places that were used
and given back wait in `free`, first in first out; `fresh` is the first slot that
was never handed out.

This module holds the types and everything that only reads.  A read of a place
that holds nothing is a fault of the caller, and `read` is the one function that
says so; all walks through the store go through `walk`.  Links may lead in a
circle in a store that was put together by hand, so `walk` is given as many steps
as there are places, which is enough for any walk that ends.
-/
import SharedForest.Store.Table
import SharedForest.Fifo
import SharedForest.Config
import SharedForest.Failure

set_option autoImplicit false

namespace SharedForest

/-- What a live place holds: links to the left and to the right, and a payload. -/
structure Cell (ν : Type) where
  left : Option Nat
  right : Option Nat
  data : ν

/-- The slots a cell links to, left first. -/
def Cell.links {ν : Type} (c : Cell ν) : List Nat := c.left.toList ++ c.right.toList

/-- A place of a store.  The count is a 32-bit word and wraps. -/
structure Place (ν : Type) where
  refs : UInt32 := 0
  cell : Option (Cell ν) := none

namespace Place

variable {ν : Type}

/-- A place that was never used. -/
def blank : Place ν := {}

/-- Whether the place holds a cell. -/
def isLive (p : Place ν) : Bool := p.cell.isSome

end Place

/-- Numbers that did not fit where they are kept.  No operation looks at these; they give the laws
a way to say that something never happens at any moment of a run, and they are never lowered. -/
structure Alarms where
  /-- A count of references was raised past the largest 32-bit word, so it wrapped. -/
  countHigh : Bool := false
  /-- A reference was dropped on a place with a count of zero, so it wrapped. -/
  countLow : Bool := false
  /-- A cell was taken back while `live` was zero. -/
  liveLow : Bool := false
  /-- A subtree had more entries than a 32-bit word can tell. -/
  sizeHigh : Bool := false
deriving DecidableEq

/-- The store. -/
structure Store (ν : Type) where
  table : Table (Place ν)
  /-- Slots that were given back, in the order in which they will be handed out again. -/
  free : Fifo Nat
  /-- Slots whose count dropped to zero and which wait for a collection. -/
  retired : Fifo Nat
  /-- The first slot that was never handed out. -/
  fresh : Nat
  /-- How many cells were stored and not taken back. -/
  live : Nat
  /-- No slot at or above this number is ever handed out. -/
  limit : Nat
  reclamation : Reclamation
  alarms : Alarms

/-- How the places of a store are used. -/
structure Stats where
  live : Nat
  free : Nat
  retired : Nat
  highWater : Nat
deriving DecidableEq

/-- The debug text of a usage count. -/
def Stats.debug (s : Stats) : String :=
  "ArenaStats \x7b live: " ++ toString s.live ++ ", free: " ++ toString s.free
    ++ ", retired: " ++ toString s.retired ++ ", high_water: " ++ toString s.highWater ++ " \x7d"

namespace Store

variable {ν : Type}

/-- A store with no cell in it, and with the places that the configuration asks for up front. -/
def new (config : Config) : Store ν :=
  let limit := min config.maxNodes maxPlaces
  let reserve := min config.initialCapacity limit
  { table :=
      if reserve = 0 then .empty
      else Table.empty.ensure .blank (Address.locate (reserve - 1)).segment
    free := .empty
    retired := .empty
    fresh := 0
    live := 0
    limit
    reclamation := config.reclamation
    alarms := {} }

/-- The cell at slot `i`, if that place exists and is live. -/
def cell? (s : Store ν) (i : Nat) : Option (Cell ν) := (s.table.get? i).bind (·.cell)

/-- Whether slot `i` is live. -/
def contains (s : Store ν) (i : Nat) : Bool := (s.cell? i).isSome

/-- The count at slot `i`, zero where there is no place. -/
def refs (s : Store ν) (i : Nat) : UInt32 := ((s.table.get? i).map (·.refs)).getD 0

/-- How many places are live. -/
def occupied (s : Store ν) : Nat := s.table.count Place.isLive

/-- How the places are used. -/
def stats (s : Store ν) : Stats :=
  ⟨s.live, s.free.size, s.retired.size, s.fresh⟩

/-- The debug text of a store. -/
def debug (s : Store ν) : String :=
  "Arena \x7b max: " ++ toString s.limit ++ ", reclamation: " ++ s.reclamation.debug
    ++ ", stats: " ++ s.stats.debug ++ " \x7d"

/-- The cell at a slot that the caller knows to be live. -/
def read (s : Store ν) (i : Nat) : Except Fault (Cell ν) :=
  match s.cell? i with
  | some c => .ok c
  | none => .error (.notLive i)

/-! ## Walks -/

/-- One more than the number of places: no walk that visits a place at most once is longer. -/
def reach (s : Store ν) : Nat := s.table.size + 1

/-- Walk from `start`.  Each visited cell changes the accumulator and names the next slot;
the walk ends where there is none. -/
def walkFor (s : Store ν) {σ : Type}
    (visit : Nat → Cell ν → σ → Except Fault (σ × Option Nat)) :
    Nat → σ → Option Nat → Except Fault σ
  | _, acc, none => .ok acc
  | 0, _, some _ => .error .endless
  | steps + 1, acc, some i =>
    match s.read i with
    | .error e => .error e
    | .ok c =>
      match visit i c acc with
      | .error e => .error e
      | .ok (acc, next) => walkFor s visit steps acc next

/-- A walk on which no place needs to be visited twice. -/
def walk (s : Store ν) {σ : Type} (visit : Nat → Cell ν → σ → σ × Option Nat)
    (acc : σ) (start : Option Nat) : Except Fault σ :=
  s.walkFor (fun i c acc => .ok (visit i c acc)) s.reach acc start

end Store

end SharedForest

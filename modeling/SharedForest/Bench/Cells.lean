/-
Working on bare cells.

The commands are those of a client of the store that knows nothing of trees: it
stores cells, counts references up and down, and keeps some of them under names.
-/
import SharedForest.Bench.Basic

set_option autoImplicit false

namespace SharedForest

/-- A command on a bench of cells without payload. -/
inductive CellCommand where
  | allocate (left right : Option Nat)
  /-- Store so many cells without links. -/
  | leaves (count : Nat)
  /-- Store so many cells, each linked to the one before on the left. -/
  | chain (count : Nat)
  | retain (slot : Nat)
  | release (slots : List Nat)
  | collect
  | hold (dest : String) (left right : Option Nat)
  | share (dest : String) (slot : Nat)
  | copy (source dest : String)
  | drop (source : String)
  /-- Forget a held reference without dropping it. -/
  | forget (source : String)

/-- What such a command answers. -/
inductive CellOutcome where
  | done
  | slot (i : Option Nat)
  /-- The slots of stored cells, and why there are not more. -/
  | slots (is : List Nat) (ended : Option Failure)
  | stats (s : Stats)
  | count (n : Nat)
  /-- A slot with its count. -/
  | counted (i refs : Nat)
  | dropped (i refs : Nat) (live : Bool)

namespace Bench

/-- Store `n` cells without links, as far as that goes. -/
def storeLeaves : Nat → StoreM Unit (List Nat × Option Failure)
  | 0 => pure ([], none)
  | n + 1 => fun s =>
    match StoreM.allocate ⟨none, none, ()⟩ s with
    | .error e s => .ok ([], some e) s
    | .ok i s =>
      match storeLeaves n s with
      | .ok (is, e) s => .ok (i :: is, e) s
      | .error e s => .error e s

/-- Store `n` cells, each linked to the one before, the first to `below`. -/
def storeChain : Nat → Option Nat → StoreM Unit (Option Nat)
  | 0, below => pure below
  | n + 1, below => do
    let i ← StoreM.allocate ⟨below, none, ()⟩
    storeChain n (some i)

/-- Carry out a command. -/
def execCell : CellCommand → BenchM Unit CellOutcome
  | .allocate l r => do
    let i ← onStore (StoreM.allocate ⟨l, r, ()⟩)
    return .slot (some i)
  | .leaves n => do
    let (is, ended) ← onStore (storeLeaves n)
    return .slots is ended
  | .chain n => do return .slot (← onStore (storeChain n none))
  | .retain i => do
    onStore (StoreM.retain i)
    return .done
  | .release is => do
    onStore (is.forM StoreM.release)
    return .stats (← get).store.stats
  | .collect => do return .count (← onStore StoreM.collect)
  | .hold dest l r => do
    let i ← onStore (StoreM.allocate ⟨l, r, ()⟩)
    keep dest (some i)
    return .slot (some i)
  | .share dest i => do
    onStore (StoreM.retain i)
    keep dest (some i)
    return .count ((← get).store.refs i).toNat
  | .copy source dest => do
    let i ← link source
    onStore (StoreM.retain i)
    keep dest (some i)
    return .counted i ((← get).store.refs i).toNat
  | .drop source => do
    let i ← link source
    keep source none
    let s := (← get).store
    return .dropped i (s.refs i).toNat (s.contains i)
  | .forget source => do
    let i ← link source
    modify fun b => { b with links := b.links.erase source }
    return .slot (some i)

end Bench

end SharedForest

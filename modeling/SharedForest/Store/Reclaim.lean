/-
Counting references, and taking places back.

Dropping the last reference to a cell takes its place back, which drops one
reference on each place the cell links to, and so on.  The cascade is a loop over
a list of slots, so a chain of any length costs no stack.  That the loop ends is
proved here, since it could not be written down otherwise: `takeBack_measure` shows
that each round shortens the list or empties a place, and two entries can be added
only by emptying one.  After that nobody needs to look at how it is written; it goes
on by `reclaimFrom_of_ok` and `reclaimFrom_of_error`.
-/
import SharedForest.Store.Action

set_option autoImplicit false

namespace SharedForest

namespace StoreM

variable {ν α : Type}

/-! ## Counts -/

/-- Count one more reference on slot `i`. -/
def retain (i : Nat) : StoreM ν Unit := fun s =>
  match s.table.get? i with
  | none => .error (.fault (.neverAllocated i)) s
  | some p =>
    .ok () { s with
      table := s.table.modify i fun p => { p with refs := p.refs + 1 }
      alarms := { s.alarms with countHigh := s.alarms.countHigh || p.refs + 1 == 0 } }

/-- Count one reference less on slot `i`; whether that was the last one. -/
def decrement (i : Nat) : StoreM ν Bool := fun s =>
  match s.table.get? i with
  | none => .error (.fault (.neverAllocated i)) s
  | some p =>
    .ok (p.refs == 1) { s with
      table := s.table.modify i fun p => { p with refs := p.refs - 1 }
      alarms := { s.alarms with countLow := s.alarms.countLow || p.refs == 0 } }

/-! ## One round of the cascade -/

/-- Empty the place at slot `i`; what it held. -/
def vacate (i : Nat) : StoreM ν (Option (Cell ν)) := fun s =>
  match s.table.get? i with
  | none => .error (.fault (.neverAllocated i)) s
  | some p => .ok p.cell { s with table := s.table.modify i fun p => { p with cell := none } }

/-- Drop one reference on each of `links`, and put in front of `work` those whose last it was. -/
def dropLinks : List Nat → List Nat → StoreM ν (List Nat)
  | [], work => pure work
  | i :: links, work => do
    if ← decrement i then dropLinks links (i :: work) else dropLinks links work

/-- One round: empty the place at slot `i`, drop its links, and let the slot be handed out again.
The result is the work that is left.  A place that is empty already is only handed back. -/
def takeBack (i : Nat) (work : List Nat) : StoreM ν (List Nat) := do
  match ← vacate i with
  | none =>
    modify fun s => { s with free := s.free.enqueue i }
    pure work
  | some c =>
    let work ← dropLinks c.links work
    modify fun s => { s with
      live := s.live - 1
      free := s.free.enqueue i
      alarms := { s.alarms with liveLow := s.alarms.liveLow || s.live == 0 } }
    pure work

/-! ## Why the cascade ends -/

/-- A count that is lowered changes nothing about which places are occupied. -/
theorem occupied_of_decrement {i : Nat} {s s' : Store ν} {last : Bool}
    (h : decrement i s = .ok last s') : s'.occupied = s.occupied := by
  unfold decrement at h
  split at h
  · cases h
  · cases h
    exact Table.count_modify_of_eq _ _ _ _ fun _ => rfl

/-- Each link that is dropped adds one slot to the work at most. -/
theorem dropLinks_measure {links work work' : List Nat} {s s' : Store ν}
    (h : dropLinks links work s = .ok work' s') :
    s'.occupied = s.occupied ∧ work'.length ≤ work.length + links.length := by
  induction links generalizing work s with
  | nil =>
    cases h
    exact ⟨rfl, Nat.le_refl _⟩
  | cons i links ih =>
    simp only [dropLinks, bind, EStateM.bind] at h
    split at h
    · rename_i last s₁ hdec
      have hocc := occupied_of_decrement hdec
      split at h
      · have := ih h
        simp only [List.length_cons] at this ⊢
        omega
      · have := ih h
        simp only [List.length_cons]
        omega
    · cases h

/-- A cell has no more than two children. -/
theorem Cell.length_links_le (c : Cell ν) : c.links.length ≤ 2 := by
  unfold SharedForest.Cell.links
  cases c.left <;> cases c.right <;> simp

/-- Each round lowers the length of the list plus twice the number of live places. -/
theorem takeBack_measure {i : Nat} {work work' : List Nat} {s s' : Store ν}
    (h : takeBack i work s = .ok work' s') :
    work'.length + 2 * s'.occupied < work.length + 1 + 2 * s.occupied := by
  simp only [takeBack, bind, EStateM.bind] at h
  split at h
  · rename_i held s₁ hvac
    unfold vacate at hvac
    split at hvac
    · cases hvac
    · rename_i p hp
      cases hvac
      have hcount := Table.count_modify Place.isLive s.table
        (fun p => { p with cell := none }) hp
      have hempty : Place.isLive ({ p with cell := none } : Place ν) = false := rfl
      rw [hempty] at hcount
      cases hcell : p.cell with
      | none =>
        simp only [hcell] at h
        cases h
        have hp : p.isLive = false := by simp [Place.isLive, hcell]
        rw [hp] at hcount
        simp only [Store.occupied, Bool.toNat_false] at hcount ⊢
        omega
      | some c =>
        simp only [hcell, EStateM.bind] at h
        have hp : p.isLive = true := by simp [Place.isLive, hcell]
        rw [hp] at hcount
        split at h
        · rename_i rest s₂ hdrop
          cases h
          have hd := dropLinks_measure hdrop
          have hl := Cell.length_links_le c
          simp only [Store.occupied, Bool.toNat_true, Bool.toNat_false] at hcount hd ⊢
          omega
        · cases h
  · cases h

/-! ## The cascade, and what sets it off -/

/-- Rounds until no work is left, starting with the head of `work`; `freed` counts the rounds. -/
def reclaimFrom (work : List Nat) (freed : Nat) (s : Store ν) :
    EStateM.Result Failure (Store ν) Nat :=
  match work with
  | [] => .ok freed s
  | i :: rest =>
    match h : takeBack i rest s with
    | .ok work s' => reclaimFrom work (freed + 1) s'
    | .error e s' => .error e s'
termination_by work.length + 2 * s.occupied
decreasing_by
  simp only [List.length_cons]
  exact takeBack_measure h

@[simp] theorem reclaimFrom_nil (freed : Nat) (s : Store ν) :
    reclaimFrom [] freed s = .ok freed s := by
  rw [reclaimFrom]

/-- One round of the cascade, and the rest of it from there. -/
theorem reclaimFrom_of_ok {i : Nat} {rest work : List Nat} {s s' : Store ν}
    (h : takeBack i rest s = .ok work s') (freed : Nat) :
    reclaimFrom (i :: rest) freed s = reclaimFrom work (freed + 1) s' := by
  rw [reclaimFrom]
  split
  · rename_i htake
    rw [h] at htake
    cases htake
    rfl
  · rename_i htake
    rw [h] at htake
    cases htake

/-- A round that fails is the last. -/
theorem reclaimFrom_of_error {i : Nat} {rest : List Nat} {s s' : Store ν} {e : Failure}
    (h : takeBack i rest s = .error e s') (freed : Nat) :
    reclaimFrom (i :: rest) freed s = .error e s' := by
  rw [reclaimFrom]
  split
  · rename_i htake
    rw [h] at htake
    cases htake
  · rename_i htake
    rw [h] at htake
    cases htake
    rfl

/-- Take back the slots of `work` and all that only they kept alive; how many were freed. -/
def reclaim (work : List Nat) : StoreM ν Nat := reclaimFrom work 0

/-- Take back every retired slot, the latest first; how many were freed. -/
def collect : StoreM ν Nat := do
  -- The work is a stack, so what was retired last is freed first.
  let work := (← get).retired.toList.reverse
  modify fun s => { s with retired := .empty }
  reclaim work

/-- Drop one reference on slot `i`.  The place is taken back if it was the last one, at once or
as soon as enough retired slots wait. -/
def release (i : Nat) : StoreM ν Unit := do
  if ← decrement i then
    match (← get).reclamation with
    | .immediate => discard (reclaim [i])
    | .deferred batch =>
      modify fun s => { s with retired := s.retired.enqueue i }
      if max batch 1 ≤ (← get).retired.size then discard collect

/-! ## Handing places out -/

/-- The slot to be handed out next: the one given back longest ago, else the first never used. -/
def nextSlot? : StoreM ν (Option Nat) := fun s =>
  match s.free.dequeue? with
  | some (i, free) => .ok (some i) { s with free }
  | none =>
    if s.fresh < s.limit then .ok (some s.fresh) { s with fresh := s.fresh + 1 }
    else .ok none s

/-- Put a cell into the place at slot `i`, with one reference, creating the place if need be. -/
def occupy (i : Nat) (c : Cell ν) : StoreM ν Unit := modify fun s =>
  { s with
    table := (s.table.ensure .blank (Address.locate i).segment).modify i
      fun _ => { refs := 1, cell := some c }
    live := s.live + 1 }

/-- Note how many entries a subtree has whose size is about to be kept in a 32-bit word. -/
def noteSize (entries : Nat) : StoreM ν Unit := modify fun s =>
  { s with alarms :=
    { s.alarms with sizeHigh := s.alarms.sizeHigh || decide (4294967295 < entries) } }

/-- Store a cell with one reference, which belongs to the caller.  The cell's links are
references handed over with it: where no place is left they are dropped, left first. -/
def allocate (c : Cell ν) : StoreM ν Nat := do
  match ← nextSlot? with
  | some i =>
    occupy i c
    pure i
  | none =>
    c.links.forM release
    refuse (.capacityExceeded (← get).limit)

/-! ## Holding references across a failure -/

/-- Drop the references in `held`, in order, and fail.  A fault on the way replaces the failure
and does not keep the others from being dropped. -/
def giveBack : List Nat → Failure → StoreM ν α
  | [], e => throw e
  | i :: held, e => fun s =>
    match release i s with
    | .ok _ s' => giveBack held e s'
    | .error e' s' => giveBack held e' s'

/-- Run `action` while holding the references in `held`: if it fails, they are dropped in order. -/
def guarding (held : List Nat) (action : StoreM ν α) : StoreM ν α := fun s =>
  match action s with
  | .ok a s' => .ok a s'
  | .error e s' => giveBack held e s'

/-- Take a reference to the root of a subtree, which may be absent. -/
def share (root : Option Nat) : StoreM ν (Option Nat) := do
  if let some i := root then retain i
  pure root

/-- Drop the reference to the root of a subtree, which may be absent. -/
def unshare (root : Option Nat) : StoreM ν Unit := do
  if let some i := root then release i

end StoreM

end SharedForest

/-
Giving references up.

A reference that is dropped may set off a cascade, and where the books are wrong the cascade may go
anywhere and end in a fault.  There are two things it never does, whatever the store and however it
ends: no cell comes in by it, and it leaves the alarms alone that tell of too much.  Only `retain`
raises a count, and only `noteSize` looks at sizes.
-/
import SharedForest.Proofs.Versions

set_option autoImplicit false

namespace SharedForest

open Alarmed StoreM

variable {ν α β : Type}

namespace Store

/-- The alarms that tell of too much: of references to a place, and of entries in a subtree. -/
def excess (s : Store ν) : Bool × Bool := (s.alarms.countHigh, s.alarms.sizeHigh)

theorem rung_iff (s : Store ν) : Rung s ↔ s.excess.1 = true := Iff.rfl

/-- No cell has come in, and nothing has become too much. -/
structure Waned (s s' : Store ν) : Prop where
  excess : s'.excess = s.excess
  cell? : ∀ i cell, s'.cell? i = some cell → s.cell? i = some cell

theorem Waned.refl (s : Store ν) : s.Waned s := ⟨rfl, fun _ _ h => h⟩

/-- Cells that come in neither in the first part nor in the second do not come in at all. -/
theorem Waned.trans {s s' s'' : Store ν} (h : s.Waned s') (h' : s'.Waned s'') : s.Waned s'' :=
  ⟨h'.excess.trans h.excess, fun i cell hcell => h.cell? i cell (h'.cell? i cell hcell)⟩

/-- An alarm that is heard afterwards was heard before. -/
theorem Waned.rung {s s' : Store ν} (h : s.Waned s') (hs' : Rung s') : Rung s := by
  rwa [rung_iff, ← h.excess]

end Store

/-- The action may lose cells, and that is all it does to them. -/
class Wanes (m : StoreM ν α) : Prop where
  waned : ∀ s : Store ν, s.Waned (final (m s))

namespace Wanes

variable {m : StoreM ν α}

instance pure (a : α) : Wanes (Pure.pure a : StoreM ν α) := ⟨.refl⟩

instance throw (e : Failure) : Wanes (MonadExcept.throw e : StoreM ν α) := ⟨.refl⟩

instance get : Wanes (MonadState.get : StoreM ν (Store ν)) := ⟨.refl⟩

/-- An update that brings no cell in. -/
theorem modify {f : Store ν → Store ν} (hf : ∀ s : Store ν, s.Waned (f s)) :
    Wanes (MonadStateOf.modifyGet fun s => ((), f s) : StoreM ν Unit) := ⟨hf⟩

/-- One action after another, the second from wherever the first ends. -/
theorem bind {f : α → StoreM ν β} (hm : Wanes m) (hf : ∀ a, Wanes (f a)) : Wanes (m >>= f) := by
  constructor
  intro s
  have h := hm.waned s
  show s.Waned (final (EStateM.bind m f s))
  rw [EStateM.bind]
  cases hr : m s with
  | ok a s' =>
    rw [hr] at h
    exact h.trans ((hf a).waned s')
  | error e s' =>
    rw [hr] at h
    exact h

theorem discard (hm : Wanes m) : Wanes (Functor.discard m) := by
  constructor
  intro s
  have h := hm.waned s
  show s.Waned (final (EStateM.map _ m s))
  rw [EStateM.map]
  cases hr : m s <;> rw [hr] at h <;> exact h

/-- What becomes too much does so elsewhere. -/
instance leaves_excess [h : Wanes m] : Leaves Store.excess m := ⟨fun s => (h.waned s).excess⟩

end Wanes

namespace StoreM

instance wanes_decrement (i : Nat) : Wanes (decrement (ν := ν) i) := by
  constructor
  intro s
  unfold decrement
  split
  · exact .refl s
  · have hr : ∀ alarms : Alarms, alarms.liveLow = s.alarms.liveLow → s.Recounted { s with
        table := s.table.modify i fun p => { p with refs := p.refs - 1 }, alarms } :=
      fun _ => Store.Recounted.of_modify fun _ => rfl
    exact ⟨rfl, fun j _ hcell => ((hr _ rfl).cell? j).symm.trans hcell⟩

instance wanes_vacate (i : Nat) : Wanes (vacate (ν := ν) i) := by
  constructor
  intro s
  unfold vacate
  split
  · exact .refl s
  · refine ⟨rfl, fun j cell hcell => ?_⟩
    have hcell : (s.emptied i).cell? j = some cell := hcell
    by_cases hj : j = i
    · subst hj
      exact absurd (Store.contains_iff_exists.2 ⟨cell, hcell⟩) Store.not_contains_emptied
    · rwa [Store.cell?_emptied_other hj] at hcell

instance wanes_dropLinks (links work : List Nat) : Wanes (dropLinks (ν := ν) links work) := by
  induction links generalizing work with
  | nil => exact .pure _
  | cons i links ih =>
    refine .bind (wanes_decrement i) fun last => ?_
    cases last <;> exact ih _

instance wanes_takeBack (i : Nat) (work : List Nat) : Wanes (takeBack (ν := ν) i work) := by
  refine .bind (wanes_vacate i) fun held => ?_
  cases held with
  | none => exact .bind (.modify fun s => ⟨rfl, fun _ _ h => h⟩) fun _ => .pure _
  | some c =>
    refine .bind (wanes_dropLinks _ _) fun work => ?_
    exact .bind (.modify fun s => ⟨rfl, fun _ _ h => h⟩) fun _ => .pure _

instance wanes_reclaim (work : List Nat) : Wanes (reclaim (ν := ν) work) :=
  ⟨fun s => reclaim_keeps (I := s.Waned)
    (fun i work s' h => h.trans ((wanes_takeBack i work).waned s')) (.refl s)⟩

instance wanes_collect : Wanes (collect (ν := ν)) :=
  .bind .get fun _ => .bind (.modify fun _ => ⟨rfl, fun _ _ h => h⟩) fun _ => wanes_reclaim _

instance wanes_release (i : Nat) : Wanes (release (ν := ν) i) := by
  refine .bind (wanes_decrement i) fun last => ?_
  cases last with
  | false => exact .pure _
  | true =>
    refine .bind .get fun s => ?_
    cases s.reclamation with
    | immediate => exact .discard (wanes_reclaim _)
    | deferred batch =>
      refine .bind (.modify fun _ => ⟨rfl, fun _ _ h => h⟩) fun _ => .bind .get fun s => ?_
      split
      · exact .discard wanes_collect
      · exact .pure _

instance wanes_unshare (root : Option Nat) : Wanes (unshare (ν := ν) root) := by
  cases root with
  | none => exact .pure _
  | some i => exact wanes_release i

instance wanes_forM_release (slots : List Nat) : Wanes (slots.forM (release (ν := ν))) := by
  induction slots with
  | nil => exact .pure _
  | cons i slots ih => exact .bind (wanes_release i) fun _ => ih

instance wanes_giveBack (held : List Nat) (e : Failure) :
    Wanes (giveBack (ν := ν) (α := α) held e) := by
  induction held generalizing e with
  | nil => exact .throw e
  | cons i held ih =>
    constructor
    intro s
    have hrel := (wanes_release i).waned s
    unfold giveBack
    cases hr : release i s <;> rw [hr] at hrel <;> exact hrel.trans ((ih _).waned _)

/-- A failure stays one, whichever it is in the end. -/
theorem giveBack_fails (held : List Nat) (e : Failure) (s : Store ν) :
    ∃ e' s', giveBack (α := α) held e s = .error e' s' := by
  induction held generalizing e s with
  | nil => exact ⟨e, s, rfl⟩
  | cons i held ih =>
    unfold giveBack
    cases release i s with
    | ok _ s' => exact ih e s'
    | error e' s' => exact ih e' s'

/-! ## Storing cells

A cell that is stored is a cell that comes in, so this is not of the same kind; but nothing becomes
too much by it either. -/

instance excess_nextSlot? : Leaves Store.excess (nextSlot? (ν := ν)) := by
  constructor
  intro s
  unfold nextSlot?
  split
  · rfl
  · split <;> rfl

instance excess_allocate (c : Cell ν) : Leaves Store.excess (allocate c) := by
  refine .bind excess_nextSlot? fun slot => ?_
  cases slot with
  | some i => exact .bind (.modify fun _ => rfl) fun _ => .pure _
  | none => exact .bind inferInstance fun _ => .bind .get fun _ => .throw _

end StoreM

end SharedForest

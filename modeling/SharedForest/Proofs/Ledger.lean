/-
The books of a store: who refers to whom.

The count at a place must equal the number of outstanding references to it, and
those are of two sorts: links of live places, which `linksTo` counts, and references
that somebody outside holds.  The latter are kept as a multiset of placed trees, one
for each reference, so that "I hold this reference" and "there is this tree below it"
are one hypothesis.  An absent tree stands for no reference, which saves every law
about subtrees a case.

`Counted F pending` is the part of the books that deals with counts; `pending` are
places whose last reference is gone and that are about to be taken back, next to those
that are retired for later.  `Stocked` is the part that deals with slots: which are
handed out, which wait to be, and how many.  Both hold at all times, even in the middle
of a cascade, which is what makes the cascade an easy induction; `Sound F` is both
together with nothing pending, and holds between two actions.

The one awkward thing is that a tree is fixed by the store but not by its root alone
once the store has changed.  So every law here says of *all* of `F` that it is still
kept, and nothing has to be said about what is left alone.
-/
import SharedForest.Proofs.Tree
import SharedForest.Store.Reclaim
import Mathlib.Algebra.Order.BigOperators.Group.Finset
import Mathlib.Algebra.Order.Group.Multiset
import Mathlib.Tactic.Abel

set_option autoImplicit false

namespace SharedForest

open Tree

/-! ## Counting references -/

/-- How many of the references in `F` lead to slot `i`. -/
def holders {ν : Type} (F : Multiset (Placed ν)) (i : Nat) : Nat :=
  F.countP fun p => p.root = some i

section

variable {ν : Type} {F G : Multiset (Placed ν)} {p : Placed ν} {i : Nat}

/-- References are counted one by one. -/
@[simp] theorem holders_add : holders (F + G) i = holders F i + holders G i :=
  Multiset.countP_add _ _ _

/-- A reference counts at the slot it leads to. -/
theorem holders_singleton : holders {p} i = if p.root = some i then 1 else 0 := by
  rw [holders, ← Multiset.cons_zero, Multiset.countP_cons, Multiset.countP_zero, Nat.zero_add]

/-- A reference to the root of a tree is a reference to one slot or to none. -/
theorem holders_singleton_eq_count : holders {p} i = p.root.toList.count i := by
  rw [holders_singleton]
  cases h : p.root with
  | none => simp
  | some j => by_cases hj : j = i <;> simp [hj]

/-- The root of a held tree is held. -/
theorem holders_pos_of_mem (hp : p ∈ F) (h : p.root = some i) : 0 < holders F i :=
  Multiset.countP_pos.2 ⟨p, hp, h⟩

end

namespace Store

variable {ν : Type}

/-- The slots that the place at slot `j` links to. -/
def linksAt (s : Store ν) (j : Nat) : List Nat := ((s.cell? j).map Cell.links).getD []

/-- How many links of live places lead to slot `i`. -/
def linksTo (s : Store ν) (i : Nat) : Nat :=
  ∑ j ∈ Finset.range s.fresh, (s.linksAt j).count i

/-- What must hold of the counts, with the references of `F` outstanding and the places of
`pending` about to be taken back. -/
structure Counted (s : Store ν) (F : Multiset (Placed ν)) (pending : List Nat) : Prop where
  /-- The tree below every outstanding reference is kept. -/
  unfolds : ∀ p ∈ F, s.Unfolds p
  /-- So is one below every live place: links lead to live places and never in a circle. -/
  grounded : ∀ i, s.contains i → ∃ p, p.root = some i ∧ s.Unfolds p
  refs_eq : ∀ i, (s.refs i).toNat = holders F i + s.linksTo i
  waiting_nodup : (s.retired.toList ++ pending).Nodup
  waiting_iff : ∀ i, i ∈ s.retired.toList ++ pending ↔ s.contains i ∧ s.refs i = 0
  never_low : s.alarms.countLow = false

/-- So many segments have room for all slots that can ever be handed out. -/
def maxSegments : Nat := 27

/-- Every slot that can be handed out has a segment among those. -/
theorem segment_lt_maxSegments {i : Nat} (h : i < maxPlaces) :
    (Address.locate i).segment < maxSegments :=
  (Address.locate_segment_lt_iff i maxSegments).2 (Nat.lt_of_lt_of_le h (by decide +kernel))

/-- What must hold of the slots of a store made with the options `c`. -/
structure Stocked (s : Store ν) (c : Config) : Prop where
  created : ∀ i < s.fresh, (s.table.get? i).isSome
  /-- No more segments have ever been created than there can be. -/
  addressable : ∀ i, (s.table.get? i).isSome → (Address.locate i).segment < maxSegments
  unused : ∀ i, s.contains i → i < s.fresh
  free_nodup : s.free.toList.Nodup
  free_iff : ∀ i, i ∈ s.free.toList ↔ i < s.fresh ∧ ¬ s.contains i
  live_eq : s.live = s.occupied
  total : s.live + s.free.size = s.fresh
  fresh_le : s.fresh ≤ s.limit
  limit_eq : s.limit = min c.maxNodes maxPlaces
  policy : s.reclamation = c.reclamation
  never_low : s.alarms.liveLow = false

/-- How many retired places may wait between two actions. -/
def Backlog (s : Store ν) : Prop :=
  match s.reclamation with
  | .immediate => s.retired.toList = []
  | .deferred batch => s.retired.size < max batch 1

/-- The books are right, and `F` are the references that are held outside. -/
structure Sound (s : Store ν) (c : Config) (F : Multiset (Placed ν)) : Prop where
  counted : s.Counted F []
  stocked : s.Stocked c
  backlog : s.Backlog

/-- The slots that are not live are those that are free, so the others are counted by `live`. -/
theorem Stocked.live_eq_countP {s : Store ν} {c : Config} (h : s.Stocked c) :
    s.live = (List.range s.fresh).countP s.contains := by
  have hperm : List.Perm s.free.toList ((List.range s.fresh).filter fun i => !s.contains i) := by
    refine (List.perm_ext_iff_of_nodup h.free_nodup (List.nodup_range.filter _)).2 fun i => ?_
    rw [h.free_iff, List.mem_filter, List.mem_range]
    simp
  have hlen := hperm.length_eq
  have hsplit : (List.range s.fresh).countP s.contains
      + ((List.range s.fresh).filter fun i => !s.contains i).length = s.fresh := by
    simpa [List.countP_eq_length_filter] using
      (List.length_eq_countP_add_countP s.contains (l := List.range s.fresh)).symm
  have htotal := h.total
  rw [Fifo.length_toList] at hlen
  omega

/-! ## Single places

Every action changes the table at one place, so what is known about the whole store
afterwards follows from these few equations. -/

section

variable {s s' : Store ν} {i j : Nat} {f : Place ν → Place ν}

/-- The place that is changed. -/
theorem cell?_modify_self (h : s'.table = s.table.modify i f) :
    s'.cell? i = ((s.table.get? i).map f).bind (·.cell) := by
  rw [cell?, h, Table.get?_modify_self]

/-- No other place is touched. -/
theorem cell?_modify_other (h : s'.table = s.table.modify i f) (hne : i ≠ j) :
    s'.cell? j = s.cell? j := by
  rw [cell?, h, Table.get?_modify_other _ _ hne, cell?]

/-- The count of the place that is changed. -/
theorem refs_modify_self (h : s'.table = s.table.modify i f) {p : Place ν}
    (hp : s.table.get? i = some p) : s'.refs i = (f p).refs := by
  rw [refs, h, Table.get?_modify_self, hp]
  rfl

theorem refs_modify_other (h : s'.table = s.table.modify i f) (hne : i ≠ j) :
    s'.refs j = s.refs j := by
  rw [refs, h, Table.get?_modify_other _ _ hne, refs]

/-- A change creates no place. -/
theorem isSome_modify (h : s'.table = s.table.modify i f) (j : Nat) :
    (s'.table.get? j).isSome = (s.table.get? j).isSome := by
  rw [Bool.eq_iff_iff, Table.isSome_get?_iff, Table.isSome_get?_iff, h,
    Table.size_segments_modify]

/-- A change that touches no cell leaves all cells alone. -/
theorem cell?_modify_of_cell (h : s'.table = s.table.modify i f)
    (hf : ∀ p, (f p).cell = p.cell) (j : Nat) : s'.cell? j = s.cell? j := by
  by_cases hne : i = j
  · subst hne
    rw [cell?_modify_self h, cell?]
    cases s.table.get? i with
    | none => rfl
    | some p => exact hf p
  · exact cell?_modify_other h hne

/-- A slot is live if there is a cell in its place. -/
theorem contains_iff_exists : s.contains i ↔ ∃ c, s.cell? i = some c :=
  Option.isSome_iff_exists

/-- Whether a slot is live depends on its place alone. -/
theorem contains_congr (h : s'.cell? i = s.cell? i) : s'.contains i = s.contains i := by
  rw [contains, contains, h]

/-- A live place has a place in the table. -/
theorem exists_place (h : s.contains i) : ∃ p, s.table.get? i = some p ∧ p.refs = s.refs i := by
  cases hp : s.table.get? i with
  | none => simp [contains, cell?, hp] at h
  | some p => exact ⟨p, rfl, by simp [refs, hp]⟩

/-- The links of a live place are those of its cell. -/
theorem linksAt_of_cell {c : Cell ν} (h : s.cell? i = some c) : s.linksAt i = c.links := by
  rw [linksAt, h]
  rfl

/-- A place that is not live has none. -/
theorem linksAt_of_dead (h : ¬ s.contains i) : s.linksAt i = [] := by
  rw [contains, Bool.not_eq_true, Option.isSome_eq_false_iff, Option.isNone_iff_eq_none] at h
  rw [linksAt, h]
  rfl

/-- Where cells and the first unused slot are the same, so are the links. -/
theorem linksTo_congr (hcell : ∀ i, s'.cell? i = s.cell? i) (hfresh : s'.fresh = s.fresh)
    (i : Nat) : s'.linksTo i = s.linksTo i := by
  rw [linksTo, linksTo, hfresh]
  exact Finset.sum_congr rfl fun j _ => by rw [linksAt, linksAt, hcell]

/-- A change at one place moves the links by those of that place. -/
theorem linksTo_change (hfresh : s'.fresh = s.fresh) (hj : j < s.fresh)
    (hcell : ∀ k, k ≠ j → s'.cell? k = s.cell? k) (i : Nat) :
    s'.linksTo i + (s.linksAt j).count i = s.linksTo i + (s'.linksAt j).count i := by
  have hmem : j ∈ Finset.range s.fresh := Finset.mem_range.2 hj
  have hrest : ∑ k ∈ (Finset.range s.fresh).erase j, (s'.linksAt k).count i
      = ∑ k ∈ (Finset.range s.fresh).erase j, (s.linksAt k).count i :=
    Finset.sum_congr rfl fun k hk => by
      rw [linksAt, linksAt, hcell k (Finset.ne_of_mem_erase hk)]
  rw [linksTo, linksTo, hfresh, ← Finset.add_sum_erase _ _ hmem, ← Finset.add_sum_erase _ _ hmem,
    hrest]
  omega

/-- A link of a live place counts. -/
theorem linksTo_pos (hj : j < s.fresh) (h : i ∈ s.linksAt j) : 0 < s.linksTo i := by
  rw [linksTo]
  exact Nat.lt_of_lt_of_le (List.count_pos_iff.2 h)
    (Finset.single_le_sum (f := fun j => (s.linksAt j).count i) (fun _ _ => Nat.zero_le _)
      (Finset.mem_range.2 hj))

end

end Store

end SharedForest

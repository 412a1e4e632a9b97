/-
Handing slots out, and filling them.

Storing a cell takes two steps.  `nextSlot?` hands a slot out, and for a moment there is
one that is neither free nor live; `occupy` puts the cell there, with one reference.
`Handed` is what is known in between: nothing but the free queue and the mark of unused
slots has changed, and no count is wrong, as nobody refers to a slot that is not live.

What is awkward is that the mark may have moved, and `linksTo` is a sum up to the mark.
But slots beyond it have no links (`linksTo_of_fresh_le`).
-/
import SharedForest.Proofs.Cascade

set_option autoImplicit false

namespace SharedForest

open Tree StoreM

variable {ν : Type}

namespace Store

variable {s s' : Store ν} {c : Config} {F : Multiset (Placed ν)} {W : List Nat} {p : Placed ν}
  {i : Nat}

/-! ## What is not live is not referred to -/

/-- Links of live places lead to live places. -/
theorem Counted.contains_of_link (h : s.Counted F W) {j : Nat} {cell : Cell ν}
    (hj : s.cell? j = some cell) (hi : i ∈ cell.links) : s.contains i := by
  obtain ⟨p, hroot, hp⟩ := h.grounded j (contains_iff_exists.2 ⟨cell, hj⟩)
  obtain ⟨l, d, r, rfl⟩ := eq_node_of_root hroot
  obtain ⟨hcell, hl, hr⟩ := hp
  obtain rfl : cell = ⟨l.root, r.root, d⟩ := by
    rw [hj] at hcell
    exact Option.some.inj hcell
  rcases List.mem_append.1 hi with hi | hi
  · exact contains_of_mem_slots hl (mem_slots_of_root (Option.mem_toList.1 hi))
  · exact contains_of_mem_slots hr (mem_slots_of_root (Option.mem_toList.1 hi))

/-- The same of the links at any place, live or not. -/
theorem Counted.contains_of_mem_linksAt (h : s.Counted F W) {j : Nat} (hi : i ∈ s.linksAt j) :
    s.contains i := by
  by_cases hj : s.contains j
  · obtain ⟨cell, hcell⟩ := contains_iff_exists.1 hj
    rw [linksAt_of_cell hcell] at hi
    exact h.contains_of_link hcell hi
  · rw [linksAt_of_dead hj] at hi
    cases hi

/-- Nothing refers to a place that holds no cell. -/
theorem Counted.refs_of_dead (h : s.Counted F W) (hdead : ¬ s.contains i) :
    holders F i = 0 ∧ s.linksTo i = 0 := by
  -- Whatever referred to the place, from outside or from another place, would make it live.
  constructor
  · refine Nat.eq_zero_of_not_pos fun hpos => hdead ?_
    obtain ⟨p, hp, hi⟩ := Multiset.countP_pos.1 hpos
    exact (h.contains_of_mem hp hi).1
  · exact Finset.sum_eq_zero fun j _ =>
      List.count_eq_zero.2 fun hmem => hdead (h.contains_of_mem_linksAt hmem)

/-- Whatever is referred to, from outside or from another place, holds a cell. -/
theorem Counted.contains_of_refs_ne (h : s.Counted F W) (hne : s.refs i ≠ 0) : s.contains i := by
  by_contra hdead
  obtain ⟨hholders, hlinks⟩ := h.refs_of_dead hdead
  refine hne (UInt32.toNat_inj.1 ?_)
  rw [h.refs_eq, hholders, hlinks, UInt32.toNat_zero]

/-! ## Handing a slot out -/

/-- Slot `i` has been taken out of the slots of `s`, which has become `s'`. -/
structure Handed (s s' : Store ν) (i : Nat) : Prop where
  same : s' = { s with free := s'.free, fresh := s'.fresh }
  dead : ¬ s.contains i
  lt : i < s'.fresh
  fresh_le : s.fresh ≤ s'.fresh
  fresh_le_limit : s'.fresh ≤ s.limit
  created : ∀ j < s'.fresh, j ≠ i → (s.table.get? j).isSome
  free_nodup : s'.free.toList.Nodup
  free_iff : ∀ j, j ∈ s'.free.toList ↔ j < s'.fresh ∧ ¬ s.contains j ∧ j ≠ i
  total : s.live + 1 + s'.free.size = s'.fresh

/-- The slot given back longest ago. -/
theorem handed_of_dequeue {rest : Fifo Nat} (hs : s.Stocked c)
    (hq : s.free.dequeue? = some (i, rest)) : s.Handed { s with free := rest } i := by
  have hlist := Fifo.dequeue?_eq_some hq
  obtain ⟨hlt, hdead⟩ := (hs.free_iff i).1 (hlist ▸ List.mem_cons_self)
  have hnodup := hs.free_nodup
  rw [hlist, List.nodup_cons] at hnodup
  constructor
  case same => rfl
  case dead => exact hdead
  case lt => exact hlt
  case fresh_le => exact Nat.le_refl _
  case fresh_le_limit => exact hs.fresh_le
  case created => exact fun j hj _ => hs.created j hj
  case free_nodup => exact hnodup.2
  case free_iff =>
    intro j
    have hiff := hs.free_iff j
    rw [hlist, List.mem_cons] at hiff
    show j ∈ rest.toList ↔ j < s.fresh ∧ ¬ s.contains j ∧ j ≠ i
    by_cases hj : j = i
    · subst hj
      simpa using hnodup.1
    · simpa [hj] using hiff
  case total =>
    have htotal := hs.total
    rw [← Fifo.length_toList, hlist, List.length_cons, Fifo.length_toList] at htotal
    show s.live + 1 + rest.size = s.fresh
    omega

/-- The first slot that was never used. -/
theorem handed_of_fresh (hs : s.Stocked c) (hlt : s.fresh < s.limit) :
    s.Handed { s with fresh := s.fresh + 1 } s.fresh := by
  constructor
  case same => rfl
  case dead => exact fun hlive => Nat.lt_irrefl _ (hs.unused _ hlive)
  case lt => exact Nat.lt_succ_self _
  case fresh_le => exact Nat.le_succ _
  case fresh_le_limit => exact hlt
  case created =>
    exact fun j hj hne => hs.created j (Nat.lt_of_le_of_ne (Nat.le_of_lt_succ hj) hne)
  case free_nodup => exact hs.free_nodup
  case free_iff =>
    intro j
    show j ∈ s.free.toList ↔ j < s.fresh + 1 ∧ ¬ s.contains j ∧ j ≠ s.fresh
    rw [hs.free_iff]
    constructor
    · rintro ⟨hj, hdead⟩
      exact ⟨by omega, hdead, by omega⟩
    · rintro ⟨hj, hdead, hne⟩
      exact ⟨by omega, hdead⟩
  case total =>
    have htotal := hs.total
    show s.live + 1 + s.free.size = s.fresh + 1
    omega

/-- A slot is handed out unless all of them hold cells. -/
theorem nextSlot?_spec (hs : s.Stocked c) :
    (∃ i s', nextSlot? s = .ok (some i) s' ∧ s.Handed s' i)
      ∨ (nextSlot? s = .ok none s ∧ s.live = s.limit) := by
  cases hq : s.free.dequeue? with
  | some q =>
    obtain ⟨i, rest⟩ := q
    exact .inl ⟨i, _, by simp only [nextSlot?, hq], handed_of_dequeue hs hq⟩
  | none =>
    by_cases hlt : s.fresh < s.limit
    · exact .inl ⟨s.fresh, _, by simp only [nextSlot?, hq, if_pos hlt], handed_of_fresh hs hlt⟩
    -- Nothing is free and nothing unused, so by the total everything is live.
    · have htotal := hs.total
      have hle := hs.fresh_le
      rw [← Fifo.length_toList, Fifo.dequeue?_eq_none_iff.1 hq, List.length_nil] at htotal
      exact .inr ⟨by simp only [nextSlot?, hq, if_neg hlt], by omega⟩

/-! ## Filling a place

Segments are created on the way, but they are blank, so the store after `occupy` is told
by what it shows at slot `i` and at the others. -/

/-- Segments that are created on the way hold nothing that counts. -/
theorem ensure_blank (t : Table (Place ν)) (k j : Nat) :
    ((t.ensure .blank k).get? j).bind (·.cell) = (t.get? j).bind (·.cell)
      ∧ (((t.ensure .blank k).get? j).map (·.refs)).getD 0 = ((t.get? j).map (·.refs)).getD 0 := by
  cases hj : t.get? j with
  | some q =>
    rw [Table.get?_ensure_of_isSome _ _ _ (by rw [hj]; rfl), hj]
    exact ⟨rfl, rfl⟩
  | none =>
    rw [Table.ensure, Table.get?_append_of_none _ _ _ hj]
    split <;> exact ⟨rfl, rfl⟩

/-- The store once the cell has been put into the place at slot `i`. -/
def filled (s : Store ν) (i : Nat) (cell : Cell ν) : Store ν :=
  { s with
    table := (s.table.ensure .blank (Address.locate i).segment).modify i
      fun _ => { refs := 1, cell := some cell }
    live := s.live + 1 }

section

variable {cell : Cell ν} {j : Nat}

/-- The segment of the slot has been created when the cell is put there. -/
theorem exists_place_ensure (s : Store ν) (i : Nat) :
    ∃ q, (s.table.ensure .blank (Address.locate i).segment).get? i = some q := by
  refine Option.isSome_iff_exists.1 ((Table.isSome_get?_iff _ _).2 ?_)
  rw [Table.size_segments_ensure]
  omega

/-- The cell is where it was put. -/
theorem cell?_filled_self : (s.filled i cell).cell? i = some cell := by
  obtain ⟨q, hq⟩ := exists_place_ensure s i
  rw [cell?, filled]
  dsimp only
  rw [Table.get?_modify_self, hq]
  rfl

/-- All others are where they were. -/
theorem cell?_filled_other (hj : j ≠ i) : (s.filled i cell).cell? j = s.cell? j := by
  rw [cell?, filled]
  dsimp only
  rw [Table.get?_modify_other _ _ (Ne.symm hj), (ensure_blank _ _ _).1, cell?]

/-- One reference is counted, that of whoever asked for the place. -/
theorem refs_filled_self : (s.filled i cell).refs i = 1 := by
  obtain ⟨q, hq⟩ := exists_place_ensure s i
  rw [refs, filled]
  dsimp only
  rw [Table.get?_modify_self, hq]
  rfl

theorem refs_filled_other (hj : j ≠ i) : (s.filled i cell).refs j = s.refs j := by
  rw [refs, filled]
  dsimp only
  rw [Table.get?_modify_other _ _ (Ne.symm hj), (ensure_blank _ _ _).2, refs]

theorem contains_filled_self : (s.filled i cell).contains i :=
  contains_iff_exists.2 ⟨cell, cell?_filled_self⟩

theorem contains_filled_other (hj : j ≠ i) : (s.filled i cell).contains j = s.contains j :=
  contains_congr (cell?_filled_other hj)

/-- All segments up to that of the slot are created. -/
theorem isSome_filled_iff : ((s.filled i cell).table.get? j).isSome ↔
    (s.table.get? j).isSome ∨ (Address.locate j).segment ≤ (Address.locate i).segment := by
  rw [Table.isSome_get?_iff, Table.isSome_get?_iff, filled]
  dsimp only
  rw [Table.size_segments_modify, Table.size_segments_ensure]
  omega

variable (hdead : ¬ s.contains i)
include hdead

/-- A tree that is kept is kept still, since none of its slots was free. -/
theorem unfolds_filled (hp : s.Unfolds p) : (s.filled i cell).Unfolds p := by
  refine unfolds_congr (fun j hj => cell?_filled_other ?_) hp
  rintro rfl
  exact hdead (contains_of_mem_slots hp hj)

/-- There is one live place more. -/
theorem occupied_filled : (s.filled i cell).occupied = s.occupied + 1 := by
  obtain ⟨q, hq⟩ := exists_place_ensure s i
  have hcount := Table.count_modify Place.isLive _ (fun _ => { refs := 1, cell := some cell }) hq
  -- If the segment has just been created the place is blank, else it is as dead as it was.
  have hblank : q.isLive = false := by
    have hcell := (ensure_blank s.table (Address.locate i).segment i).1
    rw [hq] at hcell
    rw [Bool.not_eq_true, contains, cell?, ← hcell] at hdead
    exact hdead
  rw [hblank, Table.count_ensure _ _ rfl] at hcount
  simpa [occupied, filled, Place.isLive] using hcount

/-- The links of the new cell are added. -/
theorem linksTo_filled (hi : i < s.fresh) (j : Nat) :
    (s.filled i cell).linksTo j = s.linksTo j + cell.links.count j := by
  have hfresh : (s.filled i cell).fresh = s.fresh := rfl
  have hlinks := linksTo_change hfresh hi (fun k => cell?_filled_other) j
  rwa [linksAt_of_dead hdead, linksAt_of_cell cell?_filled_self, List.count_nil,
    Nat.add_zero] at hlinks

end

/-- The references to the children go over into the links of the new cell. -/
theorem Counted.filled {l r : Placed ν} (d : ν) (h : s.Counted (F + ({l} + {r})) [])
    (hi : i < s.fresh) (hdead : ¬ s.contains i) :
    (s.filled i ⟨l.root, r.root, d⟩).Counted (F + {.node l (i, d) r}) [] := by
  -- The new tree is there, and of the others none had a node at the place that is filled.
  have hnew : (s.filled i ⟨l.root, r.root, d⟩).Unfolds (.node l (i, d) r) :=
    ⟨cell?_filled_self, unfolds_filled hdead (h.unfolds l (by simp)),
      unfolds_filled hdead (h.unfolds r (by simp))⟩
  constructor
  case unfolds =>
    intro p hp
    rcases Multiset.mem_add.1 hp with hp | hp
    · exact unfolds_filled hdead (h.unfolds p (Multiset.mem_add.2 (.inl hp)))
    · rw [Multiset.mem_singleton.1 hp]
      exact hnew
  case grounded =>
    intro j hj
    by_cases hji : j = i
    · subst hji
      exact ⟨_, rfl, hnew⟩
    · rw [contains_filled_other hji] at hj
      obtain ⟨p, hroot, hp⟩ := h.grounded j hj
      exact ⟨p, hroot, unfolds_filled hdead hp⟩
  case refs_eq =>
    intro j
    have heq := h.refs_eq j
    rw [holders_add, holders_add, holders_singleton_eq_count, holders_singleton_eq_count] at heq
    rw [linksTo_filled hdead hi, Cell.links, List.count_append, holders_add, holders_singleton,
      root_node]
    dsimp only
    by_cases hji : j = i
    · -- Nobody referred to the slot before, and the one reference is the new tree.
      subst hji
      obtain ⟨hheld, hlinks⟩ := h.refs_of_dead hdead
      rw [holders_add, holders_add, holders_singleton_eq_count,
        holders_singleton_eq_count] at hheld
      rw [refs_filled_self, if_pos rfl, UInt32.toNat_one]
      omega
    · rw [refs_filled_other hji, if_neg (by simpa using Ne.symm hji)]
      omega
  case waiting_nodup => exact h.waiting_nodup
  case waiting_iff =>
    intro j
    show j ∈ s.retired.toList ++ [] ↔ _
    by_cases hji : j = i
    · subst hji
      rw [h.waiting_iff, refs_filled_self]
      simp [hdead]
    · rw [contains_filled_other hji, refs_filled_other hji]
      exact h.waiting_iff j
  case never_low => exact h.never_low

/-- Slots beyond the used ones have no links, so more of them may be summed over. -/
theorem linksTo_of_fresh_le (hu : ∀ j, s.contains j → j < s.fresh)
    (hcell : ∀ j, s'.cell? j = s.cell? j) (hle : s.fresh ≤ s'.fresh) (i : Nat) :
    s'.linksTo i = s.linksTo i := by
  have hlinks : ∀ j, s'.linksAt j = s.linksAt j := fun j => by rw [linksAt, linksAt, hcell]
  rw [linksTo, linksTo]
  simp only [hlinks]
  -- The summands past the old mark are zero.
  refine (Finset.sum_subset (Finset.range_subset_range.2 hle) fun j _ hj => ?_).symm
  have hdead : ¬ s.contains j := fun hlive => hj (Finset.mem_range.2 (hu j hlive))
  rw [linksAt_of_dead hdead, List.count_nil]

namespace Handed

variable {cell : Cell ν} (hh : s.Handed s' i)
include hh

theorem cell? (j : Nat) : s'.cell? j = s.cell? j := by
  rw [hh.same]
  rfl

/-- No count is wrong while the slot is on its way. -/
theorem counted (h : s.Counted F []) (hs : s.Stocked c) : s'.Counted F [] := by
  have hrefs : ∀ j, s'.refs j = s.refs j := fun j => by
    rw [hh.same]
    rfl
  have hretired : s'.retired = s.retired := by rw [hh.same]
  constructor
  case unfolds => exact fun p hp => unfolds_congr (fun j _ => hh.cell? j) (h.unfolds p hp)
  case grounded =>
    intro j hj
    rw [contains_congr (hh.cell? j)] at hj
    obtain ⟨p, hroot, hp⟩ := h.grounded j hj
    exact ⟨p, hroot, unfolds_congr (fun j _ => hh.cell? j) hp⟩
  case refs_eq =>
    intro j
    rw [hrefs, linksTo_of_fresh_le hs.unused hh.cell? hh.fresh_le, h.refs_eq]
  case waiting_nodup =>
    rw [hretired]
    exact h.waiting_nodup
  case waiting_iff =>
    intro j
    rw [hretired, contains_congr (hh.cell? j), hrefs]
    exact h.waiting_iff j
  case never_low =>
    rw [hh.same]
    exact h.never_low

/-- A slot that is handed out and filled is accounted for again. -/
theorem stocked (hs : s.Stocked c) : (s'.filled i cell).Stocked c := by
  have hdead' : ¬ s'.contains i := by
    rw [contains_congr (hh.cell? i)]
    exact hh.dead
  have htable : s'.table = s.table := by rw [hh.same]
  have hlive : s'.live = s.live := by rw [hh.same]
  have hother : ∀ j, j ≠ i → (s'.filled i cell).contains j = s.contains j := fun j hj =>
    (contains_filled_other hj).trans (contains_congr (hh.cell? j))
  constructor
  case created =>
    intro j hj
    by_cases hji : j = i
    · rw [hji]
      exact isSome_filled_iff.2 (.inr (Nat.le_refl _))
    · refine isSome_filled_iff.2 (.inl ?_)
      rw [htable]
      exact hh.created j hj hji
  case addressable =>
    intro j hj
    rcases isSome_filled_iff.1 hj with hj | hj
    · exact hs.addressable j (htable ▸ hj)
    · have hi : i < maxPlaces := by
        have hlt := hh.lt
        have hle := hh.fresh_le_limit
        have hlimit := hs.limit_eq
        omega
      exact Nat.lt_of_le_of_lt hj (segment_lt_maxSegments hi)
  case unused =>
    intro j hj
    -- The mark has moved past `i`, if it has moved at all.
    by_cases hji : j = i
    · rw [hji]
      exact hh.lt
    · rw [hother j hji] at hj
      exact Nat.lt_of_lt_of_le (hs.unused j hj) hh.fresh_le
  case free_nodup => exact hh.free_nodup
  case free_iff =>
    intro j
    show j ∈ s'.free.toList ↔ j < s'.fresh ∧ _
    rw [hh.free_iff]
    by_cases hji : j = i
    · subst hji
      simp [contains_filled_self]
    · rw [hother j hji]
      simp [hji]
  case live_eq =>
    show s'.live + 1 = _
    rw [occupied_filled hdead', hlive, hs.live_eq, occupied, occupied, htable]
  case total =>
    show s'.live + 1 + s'.free.size = s'.fresh
    rw [hlive]
    exact hh.total
  case fresh_le =>
    have hlimit : s'.limit = s.limit := by rw [hh.same]
    show s'.fresh ≤ s'.limit
    rw [hlimit]
    exact hh.fresh_le_limit
  case limit_eq =>
    show s'.limit = _
    rw [hh.same]
    exact hs.limit_eq
  case policy =>
    show s'.reclamation = _
    rw [hh.same]
    exact hs.policy
  case never_low =>
    show s'.alarms.liveLow = false
    rw [hh.same]
    exact hs.never_low

theorem backlog (hback : s.Backlog) : (s'.filled i cell).Backlog := by
  have hpolicy : (s'.filled i cell).reclamation = s.reclamation := by
    show s'.reclamation = _
    rw [hh.same]
  have hretired : (s'.filled i cell).retired = s.retired := by
    show s'.retired = _
    rw [hh.same]
  unfold Backlog at *
  rw [hpolicy, hretired]
  exact hback

end Handed

/-- A cell is stored, with one reference, in the slot that was handed out. -/
theorem occupy_spec {l r : Placed ν} (d : ν) (h : s.Sound c (F + ({l} + {r})))
    (hh : s.Handed s' i) :
    ∃ s'', occupy i ⟨l.root, r.root, d⟩ s' = .ok () s'' ∧
      s''.Sound c (F + {.node l (i, d) r}) ∧ ∀ j, j ≠ i → s''.cell? j = s.cell? j := by
  have hdead : ¬ s'.contains i := by
    rw [contains_congr (hh.cell? i)]
    exact hh.dead
  refine ⟨s'.filled i ⟨l.root, r.root, d⟩, rfl, ?_, fun j hj => ?_⟩
  · exact ⟨(hh.counted h.counted h.stocked).filled d hh.lt hdead, hh.stocked h.stocked,
      hh.backlog h.backlog⟩
  · rw [cell?_filled_other hj, hh.cell?]

end Store

end SharedForest

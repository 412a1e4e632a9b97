/-
Counting and taking back keep the books right.

One law per primitive: `retain_spec`, `decrement_spec`, `dropLinks_spec`,
`takeBack_spec`, then the cascade by induction on its own recursion, and from it
`collect_spec` and `release_spec`, which are what everything above the store is built
on.  Each says that the action ends with a result, in which store it ends as far as the
books go, and which trees are kept; none of them can fault.

Only `retain` can wrap a count.  It rings an alarm then, and its law is about stores in
which the alarm is silent; no other primitive touches that alarm.
-/
import SharedForest.Proofs.Ledger

set_option autoImplicit false

namespace SharedForest

open Tree StoreM

variable {ν : Type}

namespace Store

/-! ## Stores that differ in counts alone -/

/-- The two stores have the same cells, slots and queues. -/
structure Recounted (s s' : Store ν) : Prop where
  cell? : ∀ i, s'.cell? i = s.cell? i
  created : ∀ i, (s'.table.get? i).isSome = (s.table.get? i).isSome
  occupied : s'.occupied = s.occupied
  free : s'.free = s.free
  retired : s'.retired = s.retired
  fresh : s'.fresh = s.fresh
  live : s'.live = s.live
  limit : s'.limit = s.limit
  policy : s'.reclamation = s.reclamation
  liveLow : s'.alarms.liveLow = s.alarms.liveLow

variable {s s' s'' : Store ν} {c : Config} {F G : Multiset (Placed ν)} {W : List Nat}
  {p : Placed ν} {i : Nat}

namespace Recounted

theorem refl (s : Store ν) : s.Recounted s :=
  ⟨fun _ => rfl, fun _ => rfl, rfl, rfl, rfl, rfl, rfl, rfl, rfl, rfl⟩

/-- Counts may be changed any number of times. -/
theorem trans (h : s.Recounted s') (h' : s'.Recounted s'') : s.Recounted s'' where
  cell? i := (h'.cell? i).trans (h.cell? i)
  created i := (h'.created i).trans (h.created i)
  occupied := h'.occupied.trans h.occupied
  free := h'.free.trans h.free
  retired := h'.retired.trans h.retired
  fresh := h'.fresh.trans h.fresh
  live := h'.live.trans h.live
  limit := h'.limit.trans h.limit
  policy := h'.policy.trans h.policy
  liveLow := h'.liveLow.trans h.liveLow

/-- Counts do not tell what is live. -/
theorem contains (h : s.Recounted s') (i : Nat) : s'.contains i = s.contains i :=
  contains_congr (h.cell? i)

/-- Links are in cells, and those are the same. -/
theorem linksTo (h : s.Recounted s') (i : Nat) : s'.linksTo i = s.linksTo i :=
  linksTo_congr h.cell? h.fresh i

/-- So a tree is kept where it was. -/
theorem unfolds (h : s.Recounted s') (hp : s.Unfolds p) : s'.Unfolds p :=
  unfolds_congr (fun i _ => h.cell? i) hp

/-- And below every live place there is one. -/
theorem grounded (h : s.Recounted s') (hs : s.Counted F W) (hi : s'.contains i) :
    ∃ p, p.root = some i ∧ s'.Unfolds p := by
  rw [h.contains] at hi
  obtain ⟨p, hroot, hp⟩ := hs.grounded i hi
  exact ⟨p, hroot, h.unfolds hp⟩

/-- A change of the counts at one place. -/
theorem of_modify {f : Place ν → Place ν} {a : Alarms}
    (hf : ∀ q, (f q).cell = q.cell) (ha : a.liveLow = s.alarms.liveLow) :
    s.Recounted { s with table := s.table.modify i f, alarms := a } where
  cell? := cell?_modify_of_cell rfl hf
  created := isSome_modify rfl
  occupied := Table.count_modify_of_eq _ _ _ _ fun q => by rw [Place.isLive, Place.isLive, hf]
  free := rfl
  retired := rfl
  fresh := rfl
  live := rfl
  limit := rfl
  policy := rfl
  liveLow := ha

end Recounted

/-- Nothing about slots is written in counts. -/
theorem Stocked.recounted (h : s.Stocked c) (hr : s.Recounted s') : s'.Stocked c where
  created i hi := by
    rw [hr.created]
    exact h.created i (hr.fresh ▸ hi)
  addressable i hi := h.addressable i (by rwa [hr.created] at hi)
  unused i hi := by
    rw [hr.contains] at hi
    exact hr.fresh ▸ h.unused i hi
  free_nodup := hr.free ▸ h.free_nodup
  free_iff i := by rw [hr.free, hr.fresh, hr.contains, h.free_iff]
  live_eq := by rw [hr.live, hr.occupied, h.live_eq]
  total := by rw [hr.live, hr.free, hr.fresh, h.total]
  fresh_le := by rw [hr.fresh, hr.limit]; exact h.fresh_le
  limit_eq := hr.limit.trans h.limit_eq
  policy := hr.policy.trans h.policy
  never_low := hr.liveLow.trans h.never_low

/-- Nor how many wait. -/
theorem Backlog.recounted (h : s.Backlog) (hr : s.Recounted s') : s'.Backlog := by
  unfold Backlog at *
  rw [hr.policy, hr.retired]
  exact h

/-! ## Consequences of right counts -/

namespace Counted

/-- A reference is held only to a place that is live and counted. -/
theorem contains_of_mem (h : s.Counted F W) (hp : p ∈ F) (hi : p.root = some i) :
    s.contains i ∧ s.refs i ≠ 0 := by
  refine ⟨contains_of_mem_slots (h.unfolds p hp) (mem_slots_of_root hi), ?_⟩
  intro h0
  have heq := h.refs_eq i
  have hpos := holders_pos_of_mem hp hi
  rw [h0] at heq
  simp only [UInt32.toNat_zero] at heq
  omega

/-- A place whose count is zero is in no tree but as its root. -/
theorem not_mem_slots (h : s.Counted F W) (hs : s.Stocked c) (h0 : s.refs i = 0)
    {q : Placed ν} (hq : s.Unfolds q) (hroot : q.root ≠ some i) : i ∉ q.slots := by
  have hlink : s.linksTo i = 0 := by
    have heq := h.refs_eq i
    rw [h0] at heq
    simp only [UInt32.toNat_zero] at heq
    omega
  -- No link leads to `i`, so it can only be the root, and below the root the same holds again.
  induction q with
  | absent => simp
  | node l d r ihl ihr =>
    obtain ⟨j, d⟩ := d
    obtain ⟨hcell, hl, hr⟩ := hq
    -- A child with root `i` would be a link that leads to `i`.
    have hchild : i ∉ l.root.toList ++ r.root.toList := by
      intro hi
      have hj : j < s.fresh := hs.unused j (contains_iff_exists.2 ⟨_, hcell⟩)
      have := linksTo_pos (i := i) hj (by rw [linksAt_of_cell hcell]; exact hi)
      omega
    have hlr : l.root ≠ some i ∧ r.root ≠ some i :=
      ⟨fun hl => hchild (by simp [hl]), fun hr => hchild (by simp [hr])⟩
    rw [mem_slots_node]
    rintro (hi | rfl | hi)
    · exact ihl hl hlr.1 hi
    · exact hroot rfl
    · exact ihr hr hlr.2 hi

/-- A reference to no place is none. -/
theorem of_absent (h : s.Counted (F + {p}) W) (hp : p.root = none) : s.Counted F W where
  unfolds q hq := h.unfolds q (Multiset.mem_add.2 (.inl hq))
  grounded := h.grounded
  refs_eq i := by
    rw [h.refs_eq i, holders_add, holders_singleton, hp]
    simp
  waiting_nodup := h.waiting_nodup
  waiting_iff := h.waiting_iff
  never_low := h.never_low

/-- The counts depend on the table and on what waits, in whatever order. -/
theorem congr {W' : List Nat} (h : s.Counted F W) (ht : s'.table = s.table)
    (hf : s'.fresh = s.fresh) (ha : s'.alarms.countLow = s.alarms.countLow)
    (hw : (s'.retired.toList ++ W').Perm (s.retired.toList ++ W)) : s'.Counted F W' := by
  have hcell : ∀ i, s'.cell? i = s.cell? i := fun i => by rw [cell?, cell?, ht]
  have hrefs : ∀ i, s'.refs i = s.refs i := fun i => by rw [refs, refs, ht]
  refine ⟨fun p hp => ?_, fun i hi => ?_, fun i => ?_, ?_, fun i => ?_, ?_⟩
  · exact unfolds_congr (fun i _ => hcell i) (h.unfolds p hp)
  · rw [contains_congr (hcell i)] at hi
    obtain ⟨q, hroot, hq⟩ := h.grounded i hi
    exact ⟨q, hroot, unfolds_congr (fun i _ => hcell i) hq⟩
  · rw [hrefs, linksTo_congr hcell hf, h.refs_eq]
  · exact hw.nodup_iff.2 h.waiting_nodup
  · rw [hw.mem_iff, contains_congr (hcell i), hrefs]
    exact h.waiting_iff i
  · rw [ha]
    exact h.never_low

end Counted

/-! ## One more reference, one less

Counts are words.  The next two facts are all that is ever needed of their arithmetic. -/

/-- A count that is raised, unless it wraps. -/
theorem toNat_succ {n : UInt32} (h : n + 1 ≠ 0) : (n + 1).toNat = n.toNat + 1 := by
  have hne : (n + 1).toNat ≠ 0 := fun h0 => h (UInt32.toNat_inj.1 h0)
  have hlt := n.toNat_lt
  rw [UInt32.toNat_add, UInt32.toNat_one] at hne ⊢
  omega

/-- A count that is lowered, unless it was zero. -/
theorem toNat_pred {n : UInt32} (h : n ≠ 0) : (n - 1).toNat + 1 = n.toNat := by
  have hpos : 0 < n.toNat := Nat.pos_of_ne_zero fun h0 => h (UInt32.toNat_inj.1 h0)
  have hle : 1 ≤ n := UInt32.le_iff_toNat_le.2 hpos
  rw [UInt32.toNat_sub_of_le _ _ hle, UInt32.toNat_one]
  omega

/-- One more reference to a place that has some already. -/
theorem retain_spec (h : s.Counted F W) (hp : s.Unfolds p) (hi : p.root = some i)
    (hne : s.refs i ≠ 0) :
    ∃ s', retain i s = .ok () s' ∧
      (s'.alarms.countHigh = false → s'.Counted (F + {p}) W ∧ s.Recounted s') := by
  obtain ⟨q, hq, hrefs⟩ := exists_place (contains_of_mem_slots hp (mem_slots_of_root hi))
  set s' : Store ν := { s with
    table := s.table.modify i fun p => { p with refs := p.refs + 1 }
    alarms := { s.alarms with countHigh := s.alarms.countHigh || q.refs + 1 == 0 } } with hs'
  refine ⟨s', by simp only [retain, hq, hs'], fun hquiet => ?_⟩
  have hr : s.Recounted s' := Recounted.of_modify (fun _ => rfl) rfl
  have hself : s'.refs i = s.refs i + 1 := by
    rw [refs_modify_self rfl hq, hrefs]
  have hother : ∀ j, j ≠ i → s'.refs j = s.refs j := fun j hj =>
    refs_modify_other rfl (Ne.symm hj)
  -- The alarm is silent, so the count has not come round to zero.
  have hwrap : s.refs i + 1 ≠ 0 := by
    rw [← hrefs]
    simpa using (Bool.or_eq_false_iff.1 hquiet).2
  refine ⟨?_, hr⟩
  constructor
  case unfolds =>
    intro p' hp'
    rcases Multiset.mem_add.1 hp' with hp' | hp'
    · exact hr.unfolds (h.unfolds p' hp')
    · rw [Multiset.mem_singleton.1 hp']
      exact hr.unfolds hp
  case grounded => exact fun j => hr.grounded h
  case refs_eq =>
    intro j
    rw [hr.linksTo, holders_add, holders_singleton, hi]
    -- One holder more at `i`, and one more in the count; nothing new anywhere else.
    by_cases hj : j = i
    · subst hj
      rw [hself, toNat_succ hwrap, h.refs_eq, if_pos rfl]
      omega
    · rw [hother j hj, h.refs_eq, if_neg (by simpa using Ne.symm hj), Nat.add_zero]
  case waiting_nodup => exact h.waiting_nodup
  case waiting_iff =>
    intro j
    show j ∈ s.retired.toList ++ W ↔ _
    rw [h.waiting_iff, hr.contains]
    -- The count at `i` was not zero and is not now, so `i` waits neither before nor after.
    by_cases hj : j = i
    · subst hj
      rw [hself]
      simp [hne, hwrap]
    · rw [hother j hj]
  case never_low => exact h.never_low

/-- One reference less.  If it was the last one, the place has to be taken back. -/
theorem decrement_spec (h : s.Counted (F + {p}) W) (hi : p.root = some i) :
    ∃ last s', decrement i s = .ok last s' ∧ s.Recounted s' ∧
      s'.Counted F (if last then i :: W else W) := by
  have hmem : p ∈ F + {p} := by simp
  obtain ⟨hlive, hne⟩ := h.contains_of_mem hmem hi
  obtain ⟨q, hq, hrefs⟩ := exists_place hlive
  set s' : Store ν := { s with
    table := s.table.modify i fun p => { p with refs := p.refs - 1 }
    alarms := { s.alarms with countLow := s.alarms.countLow || q.refs == 0 } } with hs'
  have hr : s.Recounted s' := Recounted.of_modify (fun _ => rfl) rfl
  refine ⟨q.refs == 1, s', by simp only [decrement, hq, hs'], hr, ?_⟩
  have hpred : (s'.refs i).toNat + 1 = (s.refs i).toNat := by
    rw [refs_modify_self rfl hq, hrefs, toNat_pred hne]
  have hother : ∀ j, j ≠ i → s'.refs j = s.refs j := fun j hj =>
    refs_modify_other rfl (Ne.symm hj)
  -- A place that waits has no references, and this one has.
  have hwait : i ∉ s.retired.toList ++ W := fun hw => hne ((h.waiting_iff i).1 hw).2
  have hlast : s'.refs i = 0 ↔ (q.refs == 1) = true := by
    rw [beq_iff_eq, hrefs, ← UInt32.toNat_inj, ← UInt32.toNat_inj, ← hpred]
    simp only [UInt32.toNat_zero, UInt32.toNat_one]
    omega
  constructor
  case unfolds => exact fun p' hp' => hr.unfolds (h.unfolds p' (Multiset.mem_add.2 (.inl hp')))
  case grounded => exact fun j => hr.grounded h
  case refs_eq =>
    intro j
    have heq := h.refs_eq j
    rw [holders_add, holders_singleton, hi] at heq
    rw [hr.linksTo]
    by_cases hj : j = i
    · subst hj
      rw [if_pos rfl] at heq
      omega
    · rw [if_neg (by simpa using Ne.symm hj)] at heq
      rw [hother j hj, heq, Nat.add_zero]
  case waiting_nodup =>
    show (s.retired.toList ++ _).Nodup
    split
    · rw [List.nodup_middle]
      exact List.nodup_cons.2 ⟨hwait, h.waiting_nodup⟩
    · exact h.waiting_nodup
  case waiting_iff =>
    intro j
    rw [hr.contains, hr.retired]
    by_cases hj : j = i
    · -- Only if this was the last reference does the place wait from now on.
      subst hj
      rw [hlast]
      cases q.refs == 1
      · simpa using hwait
      · simp [hlive]
    · rw [hother j hj, ← h.waiting_iff]
      split
      · simp [hj]
      · rfl
  case never_low =>
    show (s.alarms.countLow || q.refs == 0) = false
    rw [h.never_low, Bool.false_or, hrefs]
    simpa using hne

/-! ## One round of the cascade -/

/-- The slots of the roots of some trees, which is how references are handed about. -/
def rootSlots (H : List (Placed ν)) : List Nat := H.flatMap (·.root.toList)

@[simp] theorem rootSlots_nil : rootSlots ([] : List (Placed ν)) = [] := rfl

@[simp] theorem rootSlots_cons (p : Placed ν) (H : List (Placed ν)) :
    rootSlots (p :: H) = p.root.toList ++ rootSlots H := rfl

/-- Dropping the links of an emptied place. -/
theorem dropLinks_spec {H : List (Placed ν)} (h : s.Counted (F + (H : Multiset (Placed ν))) W) :
    ∃ W' s', dropLinks (rootSlots H) W s = .ok W' s' ∧ s.Recounted s' ∧ s'.Counted F W' := by
  -- Every round may leave one place more to be taken back, so `W` varies in the induction.
  induction H generalizing s W with
  | nil => exact ⟨W, s, rfl, .refl s, by simpa using h⟩
  | cons p H ih =>
    rw [← Multiset.cons_coe, ← Multiset.singleton_add, add_comm ({p} : Multiset (Placed ν)),
      ← add_assoc] at h
    rw [rootSlots_cons]
    cases hi : p.root with
    | none => exact ih (h.of_absent hi)
    | some i =>
      obtain ⟨last, s₁, hdec, hr₁, h₁⟩ := decrement_spec h hi
      obtain ⟨W', s₂, hdrop, hr₂, h₂⟩ := ih h₁
      refine ⟨W', s₂, ?_, hr₁.trans hr₂, h₂⟩
      show dropLinks (i :: rootSlots H) W s = _
      rw [dropLinks]
      simp only [bind, EStateM.bind, hdec]
      cases last <;> exact hdrop

/-- A place that waits holds a node, and its count is zero. -/
theorem Counted.waiting (h : s.Counted F (i :: W)) : s.contains i ∧ s.refs i = 0 :=
  (h.waiting_iff i).1 (by simp)

/-- The store once the place at slot `i` has been emptied. -/
def emptied (s : Store ν) (i : Nat) : Store ν :=
  { s with table := s.table.modify i fun p => { p with cell := none } }

/-- A place is emptied, and what was in it is handed out. -/
theorem vacate_of_place {q : Place ν} (hq : s.table.get? i = some q) :
    vacate i s = .ok (s.cell? i) (s.emptied i) := by
  rw [vacate, hq, cell?, hq]
  rfl

theorem vacate_eq (h : s.contains i) : vacate i s = .ok (s.cell? i) (s.emptied i) := by
  obtain ⟨q, hq, -⟩ := exists_place h
  exact vacate_of_place hq

/-- It is not live any more. -/
theorem not_contains_emptied : ¬ (s.emptied i).contains i := by
  rw [contains, cell?_modify_self rfl]
  cases s.table.get? i <;> simp

/-- All others are as they were. -/
theorem cell?_emptied_other {j : Nat} (hj : j ≠ i) : (s.emptied i).cell? j = s.cell? j :=
  cell?_modify_other rfl (Ne.symm hj)

/-- No count is changed by that. -/
theorem refs_emptied (j : Nat) : (s.emptied i).refs j = s.refs j := by
  by_cases hj : j = i
  · subst hj
    rw [refs, emptied, Table.get?_modify_self, refs, Option.map_map]
    rfl
  · exact refs_modify_other rfl (Ne.symm hj)

/-- There is one live place less. -/
theorem occupied_emptied (h : s.contains i) : (s.emptied i).occupied + 1 = s.occupied := by
  obtain ⟨q, hq, -⟩ := exists_place h
  have hcount := Table.count_modify Place.isLive s.table (fun p => { p with cell := none }) hq
  have hlive : q.isLive = true := by
    rw [contains, cell?, hq] at h
    exact h
  have hempty : Place.isLive ({ q with cell := none } : Place ν) = false := rfl
  rw [hlive, hempty] at hcount
  simpa [occupied, emptied] using hcount

/-- A tree is kept unless it goes through the place. -/
theorem unfolds_emptied (hp : s.Unfolds p) (hi : i ∉ p.slots) : (s.emptied i).Unfolds p := by
  refine unfolds_congr (fun j hj => cell?_emptied_other ?_) hp
  rintro rfl
  exact hi hj

/-- The links of the cell that is gone are subtracted. -/
theorem linksTo_emptied (hi : i < s.fresh) (j : Nat) :
    (s.emptied i).linksTo j + (s.linksAt i).count j = s.linksTo j := by
  have hfresh : (s.emptied i).fresh = s.fresh := rfl
  have hlinks := linksTo_change hfresh hi (fun k => cell?_emptied_other) j
  rwa [linksAt_of_dead not_contains_emptied, List.count_nil, Nat.add_zero] at hlinks

/-- The links of a place that is emptied are outstanding references from then on. -/
theorem Counted.emptied {l r : Placed ν} {d : ν} (h : s.Counted F (i :: W)) (hs : s.Stocked c)
    (hp : s.Unfolds (.node l (i, d) r)) : (s.emptied i).Counted (F + ({l} + {r})) W := by
  obtain ⟨hlive, hzero⟩ := h.waiting
  -- No tree but the one at `i` has the slot `i` in it, so all others are kept.
  have hkeep : ∀ q, s.Unfolds q → q.root ≠ some i → (s.emptied i).Unfolds q := fun q hq hne =>
    unfolds_emptied hq (h.not_mem_slots hs hzero hq hne)
  constructor
  case unfolds =>
    obtain ⟨hnl, hnr⟩ := not_mem_slots_children hp
    intro q hq
    rw [Multiset.mem_add, Multiset.mem_add, Multiset.mem_singleton, Multiset.mem_singleton] at hq
    rcases hq with hq | rfl | rfl
    · refine hkeep q (h.unfolds q hq) fun hi => ?_
      exact (h.contains_of_mem hq hi).2 hzero
    · exact hkeep q hp.2.1 fun hi => hnl (mem_slots_of_root hi)
    · exact hkeep q hp.2.2 fun hi => hnr (mem_slots_of_root hi)
  case grounded =>
    intro j hj
    have hne : j ≠ i := by
      rintro rfl
      exact not_contains_emptied hj
    rw [contains_congr (cell?_emptied_other hne)] at hj
    obtain ⟨q, hroot, hq⟩ := h.grounded j hj
    refine ⟨q, hroot, hkeep q hq ?_⟩
    rw [hroot]
    simpa using hne
  case refs_eq =>
    intro j
    have heq := h.refs_eq j
    -- What `linksTo` loses at the emptied place the two new holders make up for.
    have hlinks := linksTo_emptied (hs.unused i hlive) j
    rw [linksAt_of_cell hp.1, Cell.links, List.count_append] at hlinks
    dsimp only at hlinks
    rw [refs_emptied, holders_add, holders_add, holders_singleton_eq_count,
      holders_singleton_eq_count]
    omega
  case waiting_nodup => exact (List.nodup_cons.1 (List.nodup_middle.1 h.waiting_nodup)).2
  case waiting_iff =>
    have hnot := (List.nodup_cons.1 (List.nodup_middle.1 h.waiting_nodup)).1
    intro j
    show j ∈ s.retired.toList ++ W ↔ _
    rw [refs_emptied]
    by_cases hj : j = i
    · subst hj
      simpa [not_contains_emptied] using hnot
    · rw [contains_congr (cell?_emptied_other hj), ← h.waiting_iff]
      simp [hj]
  case never_low => exact h.never_low

/-- The store once slot `i`, which has been emptied, can be handed out again. -/
def freed (s : Store ν) (i : Nat) : Store ν :=
  { s with
    live := s.live - 1
    free := s.free.enqueue i
    alarms := { s.alarms with liveLow := s.alarms.liveLow || s.live == 0 } }

/-- A slot that is freed is freed whatever the counts. -/
theorem Recounted.freed (h : s.Recounted s') (i : Nat) : (s.freed i).Recounted (s'.freed i) where
  cell? := h.cell?
  created := h.created
  occupied := h.occupied
  free := congrArg (Fifo.enqueue · i) h.free
  retired := h.retired
  fresh := h.fresh
  live := congrArg (· - 1) h.live
  limit := h.limit
  policy := h.policy
  liveLow := by
    show (s'.alarms.liveLow || s'.live == 0) = (s.alarms.liveLow || s.live == 0)
    rw [h.liveLow, h.live]

/-- A slot that is emptied goes to the end of the free queue. -/
theorem Stocked.freed (hs : s.Stocked c) (hlive : s.contains i) :
    ((s.emptied i).freed i).Stocked c := by
  have hocc := occupied_emptied hlive
  have hdead : ((s.emptied i).freed i).contains i = false :=
    Bool.eq_false_iff.2 (not_contains_emptied (s := s))
  have hother : ∀ j, j ≠ i → ((s.emptied i).freed i).contains j = s.contains j := fun j hj =>
    contains_congr (cell?_emptied_other hj)
  have hlist : ((s.emptied i).freed i).free.toList = s.free.toList ++ [i] := Fifo.toList_enqueue ..
  constructor
  case created => exact fun j hj => (isSome_modify rfl j).trans (hs.created j hj)
  case addressable => exact fun j hj => hs.addressable j ((isSome_modify rfl j).symm.trans hj)
  case unused =>
    intro j hj
    by_cases hji : j = i
    · rw [hji, hdead] at hj
      cases hj
    · rw [hother j hji] at hj
      exact hs.unused j hj
  case free_nodup =>
    rw [hlist, List.nodup_append]
    refine ⟨hs.free_nodup, List.nodup_singleton i, ?_⟩
    -- The slot was live until now, so it was not in the queue.
    rintro a ha b hb rfl
    rw [List.mem_singleton.1 hb] at ha
    exact ((hs.free_iff i).1 ha).2 hlive
  case free_iff =>
    intro j
    show _ ↔ j < s.fresh ∧ _
    rw [hlist, List.mem_append, List.mem_singleton, hs.free_iff]
    by_cases hji : j = i
    · subst hji
      simp [hdead, hs.unused j hlive]
    · rw [hother j hji]
      simp [hji]
  case live_eq =>
    show s.live - 1 = (s.emptied i).occupied
    rw [hs.live_eq]
    omega
  case total =>
    have htotal := hs.total
    show s.live - 1 + _ = s.fresh
    rw [← Fifo.length_toList] at htotal ⊢
    rw [hlist, List.length_append, List.length_singleton, hs.live_eq]
    rw [hs.live_eq] at htotal
    omega
  case fresh_le => exact hs.fresh_le
  case limit_eq => exact hs.limit_eq
  case policy => exact hs.policy
  case never_low =>
    have hpos : s.live ≠ 0 := by
      rw [hs.live_eq]
      omega
    show (s.alarms.liveLow || s.live == 0) = false
    simp [hs.never_low, hpos]

/-- The slots in `back` have been added to those that wait to be handed out again. -/
structure Frees (s : Store ν) (back : List Nat) (s' : Store ν) : Prop where
  free : s'.free.toList = s.free.toList ++ back
  fresh : s'.fresh = s.fresh

namespace Frees

variable {back more : List Nat}

/-- What is freed in two parts is freed one part after the other. -/
theorem trans (h : s.Frees back s') (h' : s'.Frees more s'') : s.Frees (back ++ more) s'' :=
  ⟨by rw [h'.free, h.free, List.append_assoc], h'.fresh.trans h.fresh⟩

/-- No slot is freed twice. -/
theorem nodup (h : s.Frees back s') (hs' : s'.Stocked c) : back.Nodup := by
  have hfree := hs'.free_nodup
  rw [h.free, List.nodup_append] at hfree
  exact hfree.2.1

/-- Freed are the slots that were live and are not any more. -/
theorem mem_iff (h : s.Frees back s') (hs : s.Stocked c) (hs' : s'.Stocked c) :
    i ∈ back ↔ s.contains i ∧ ¬ s'.contains i := by
  have hfree := hs'.free_nodup
  have hiff := hs'.free_iff i
  rw [h.free, List.nodup_append] at hfree
  rw [h.free, List.mem_append, hs.free_iff, h.fresh] at hiff
  constructor
  · intro hi
    obtain ⟨hlt, hdead⟩ := hiff.1 (.inr hi)
    refine ⟨by_contra fun hnot => ?_, hdead⟩
    exact hfree.2.2 i ((hs.free_iff i).2 ⟨hlt, hnot⟩) i hi rfl
  · rintro ⟨hlive, hdead⟩
    rcases hiff.2 ⟨hs.unused i hlive, hdead⟩ with hi | hi
    · exact absurd hlive hi.2
    · exact hi

end Frees

/-- A change of counts frees nothing. -/
theorem Recounted.frees (h : s.Recounted s') : s.Frees [] s' :=
  ⟨by rw [h.free, List.append_nil], h.fresh⟩

/-- A round at a live place, once its links have been dropped. -/
theorem takeBack_of_ok {cell : Cell ν} {W' : List Nat} (hcell : s.cell? i = some cell)
    (hdrop : dropLinks cell.links W (s.emptied i) = .ok W' s') :
    takeBack i W s = .ok W' (s'.freed i) := by
  have hvac := vacate_eq (contains_iff_exists.2 ⟨cell, hcell⟩)
  rw [hcell] at hvac
  simp only [takeBack, bind, EStateM.bind, hvac, hdrop]
  rfl

/-- One round of the cascade. -/
theorem takeBack_spec (h : s.Counted F (i :: W)) (hs : s.Stocked c) :
    ∃ W' s', takeBack i W s = .ok W' s' ∧ s'.Counted F W' ∧ s'.Stocked c ∧
      s'.retired = s.retired ∧ s.Frees [i] s' := by
  obtain ⟨hlive, -⟩ := h.waiting
  obtain ⟨p, hroot, hp⟩ := h.grounded i hlive
  obtain ⟨l, d, r, rfl⟩ := eq_node_of_root hroot
  -- Once the place is empty its links are references to the two subtrees, to be dropped.
  obtain ⟨W', s', hdrop, hr, h'⟩ := dropLinks_spec (H := [l, r]) (h.emptied hs hp)
  refine ⟨W', s'.freed i, ?_, h'.congr rfl rfl rfl (.refl _),
    (hs.freed hlive).recounted (hr.freed i), hr.retired, ?_⟩
  · have hlinks : Cell.links ⟨l.root, r.root, d⟩ = rootSlots [l, r] := by simp [Cell.links]
    exact takeBack_of_ok hp.1 (by rw [hlinks, hdrop])
  · refine ⟨?_, hr.fresh⟩
    rw [freed, Fifo.toList_enqueue, hr.free]
    rfl

/-! ## The cascade -/

/-- The cascade takes back everything that waits, and nothing that is referred to.  It answers how
many slots it has freed. -/
theorem reclaimFrom_spec (n : Nat) (h : s.Counted F W) (hs : s.Stocked c) :
    ∃ back s', reclaimFrom W n s = .ok (n + back.length) s' ∧ s'.Counted F [] ∧ s'.Stocked c ∧
      s'.retired = s.retired ∧ s.Frees back s' := by
  -- Along the recursion of the cascade; its last case, a round that fails, cannot come up.
  induction W, n, s using reclaimFrom.induct with
  | case1 n s => exact ⟨[], s, reclaimFrom_nil n s, h, hs, rfl, (Recounted.refl s).frees⟩
  | case2 n s i W W₁ s₁ htake ih =>
    obtain ⟨W₂, s₂, htake', h₂, hs₂, hret, hfrees⟩ := takeBack_spec h hs
    rw [htake'] at htake
    obtain ⟨rfl, rfl⟩ := by simpa using htake
    obtain ⟨back, s', hrec, h', hs', hret', hfrees'⟩ := ih h₂ hs₂
    refine ⟨[i] ++ back, s', ?_, h', hs', hret'.trans hret, hfrees.trans hfrees'⟩
    rw [reclaimFrom_of_ok htake', hrec, List.length_append, List.length_singleton, Nat.add_assoc]
  | case3 n s i W e s₁ htake =>
    obtain ⟨W₂, s₂, htake', _⟩ := takeBack_spec h hs
    rw [htake'] at htake
    cases htake

/-- What waits plays no part in which slots are free. -/
theorem Stocked.with_retired (h : s.Stocked c) (q : Fifo Nat) :
    Stocked { s with retired := q } c :=
  ⟨h.created, h.addressable, h.unused, h.free_nodup, h.free_iff, h.live_eq, h.total, h.fresh_le,
    h.limit_eq, h.policy, h.never_low⟩

/-- Where nothing is retired, not too much is. -/
theorem backlog_of_empty (h : s.retired.toList = []) : s.Backlog := by
  unfold Backlog
  cases s.reclamation with
  | immediate => exact h
  | deferred batch =>
    show s.retired.size < max batch 1
    rw [← Fifo.length_toList, h, List.length_nil]
    omega

/-- A collection takes back everything that is retired, and all that only it kept. -/
theorem collect_frees (h : s.Counted F []) (hs : s.Stocked c) :
    ∃ back s', collect s = .ok back.length s' ∧ s'.Counted F [] ∧ s'.Stocked c ∧
      s'.retired.toList = [] ∧ s.Frees back s' := by
  set s₁ : Store ν := { s with retired := .empty } with hs₁
  -- The places that were retired are now the ones to be taken back, and in what order is all one.
  have h₁ : s₁.Counted F s.retired.toList.reverse := by
    refine h.congr rfl rfl rfl ?_
    simp [hs₁]
  obtain ⟨back, s', hrec, h', hs', hret, hfrees⟩ := reclaimFrom_spec 0 h₁ (hs.with_retired .empty)
  rw [Nat.zero_add] at hrec
  exact ⟨back, s', hrec, h', hs', by rw [hret, hs₁, Fifo.toList_empty], hfrees.free, hfrees.fresh⟩

/-- The same, whatever was freed. -/
theorem collect_spec (h : s.Counted F []) (hs : s.Stocked c) :
    ∃ n s', collect s = .ok n s' ∧ s'.Counted F [] ∧ s'.Stocked c ∧ s'.retired.toList = [] := by
  obtain ⟨back, s', hrun, h', hs', hret, -⟩ := collect_frees h hs
  exact ⟨_, s', hrun, h', hs', hret⟩

/-- A result that is not looked at. -/
theorem discard_eq_ok {ε σ α : Type} {m : EStateM ε σ α} {s s' : σ} {a : α}
    (h : m s = .ok a s') : discard m s = .ok () s' := by
  show EStateM.map _ m s = _
  rw [EStateM.map, h]

/-- A release that drops the last reference goes on as the policy says. -/
theorem release_of_last {s₁ : Store ν} (hdec : decrement i s = .ok true s₁) :
    release i s = (match s₁.reclamation with
      | .immediate => discard (reclaim [i])
      | .deferred batch => do
        modify fun s => { s with retired := s.retired.enqueue i }
        if max batch 1 ≤ (← get).retired.size then discard collect : StoreM ν Unit) s₁ := by
  simp only [release, bind, EStateM.bind, hdec]
  rfl

/-- A reference is dropped, and with it all that only it kept. -/
theorem release_frees (h : s.Sound c (F + {p})) (hi : p.root = some i) :
    ∃ back s', release i s = .ok () s' ∧ s'.Sound c F ∧ s.Frees back s' := by
  obtain ⟨last, s₁, hdec, hr, h₁⟩ := decrement_spec h.counted hi
  have hstock := h.stocked.recounted hr
  have hback := h.backlog.recounted hr
  cases last with
  | false =>
    refine ⟨[], s₁, ?_, ⟨h₁, hstock, hback⟩, hr.frees⟩
    simp only [release, bind, EStateM.bind, hdec]
    rfl
  | true =>
    have hpolicy : s₁.reclamation = .immediate ∨ ∃ batch, s₁.reclamation = .deferred batch := by
      cases s₁.reclamation <;> simp
    rw [release_of_last hdec]
    unfold Backlog at hback
    obtain hpol | ⟨batch, hpol⟩ := hpolicy
    -- Immediately: the cascade starts at this place, and the queue is empty before and after.
    · rw [hpol] at hback ⊢
      obtain ⟨back, s₂, hrec, h₂, hstock₂, hret, hfrees⟩ := reclaimFrom_spec 0 h₁ hstock
      refine ⟨back, s₂, discard_eq_ok hrec, ⟨h₂, hstock₂, ?_⟩, hr.frees.trans hfrees⟩
      rw [Backlog, hstock₂.policy, ← hstock.policy, hpol]
      exact (congrArg Fifo.toList hret).trans hback
    -- Deferred: the place joins the queue, and a full queue is collected at once.
    · rw [hpol] at hback ⊢
      set s₂ : Store ν := { s₁ with retired := s₁.retired.enqueue i } with hs₂
      have h₂ : s₂.Counted F [] := h₁.congr rfl rfl rfl (by simp [hs₂])
      have hstock₂ : s₂.Stocked c := hstock.with_retired _
      have hfrees₂ : s.Frees [] s₂ := ⟨hr.frees.free, hr.frees.fresh⟩
      show ∃ back s', (if max batch 1 ≤ s₂.retired.size then discard collect else pure ()) s₂
        = EStateM.Result.ok () s' ∧ s'.Sound c F ∧ s.Frees back s'
      split
      · obtain ⟨back, s₃, hcol, h₃, hstock₃, hret, hfrees₃⟩ := collect_frees h₂ hstock₂
        exact ⟨back, s₃, discard_eq_ok hcol, ⟨h₃, hstock₃, backlog_of_empty hret⟩,
          hfrees₂.trans hfrees₃⟩
      · rename_i hfull
        refine ⟨[], s₂, rfl, ⟨h₂, hstock₂, ?_⟩, hfrees₂⟩
        rw [Backlog, show s₂.reclamation = .deferred batch from hpol]
        exact Nat.lt_of_not_le hfull

/-- The same, whatever was freed. -/
theorem release_spec (h : s.Sound c (F + {p})) (hi : p.root = some i) :
    ∃ s', release i s = .ok () s' ∧ s'.Sound c F := by
  obtain ⟨back, s', hrun, h', -⟩ := release_frees h hi
  exact ⟨s', hrun, h'⟩

end Store

end SharedForest

/-
Handing references over.

Whoever acts on a store holds references, and what an action does to them is told by
how the multiset of held trees changes: it starts with `F + {p}`, say, and ends with
`F + {q}` if the action consumes `p` and hands out `q`.  All trees in `F` are still
kept, so nothing more has to be said about them.

The only failure of a store in order is that no place is left, `Short`.  Everything an
action was given along the way is gone then, and `F` alone is held: that is what
`guarding` is there for, and `Ends.guarding` is its law.
-/
import SharedForest.Proofs.Placement
import SharedForest.Proofs.Outcome

set_option autoImplicit false

namespace SharedForest

open Tree StoreM

variable {ν : Type}

namespace Store

variable {s s' : Store ν} {c : Config} {F G : Multiset (Placed ν)} {p q l r : Placed ν} {i : Nat}

namespace Sound

/-- The same references, listed in another way. -/
theorem cast (h : s.Sound c F) (hFG : F = G) : s.Sound c G := hFG ▸ h

theorem unfolds (h : s.Sound c F) (hp : p ∈ F) : s.Unfolds p := h.counted.unfolds p hp

/-- The tree that was handed over last. -/
theorem unfolds_last (h : s.Sound c (F + {p})) : s.Unfolds p := h.unfolds (by simp)

/-- A reference to no place is none. -/
theorem of_absent (h : s.Sound c (F + {p})) (hp : p.root = none) : s.Sound c F :=
  ⟨h.counted.of_absent hp, h.stocked, h.backlog⟩

theorem with_absent (h : s.Sound c F) : s.Sound c (F + {.absent}) := by
  obtain ⟨⟨hunf, hground, hrefs, hnodup, hiff, hlow⟩, hstock, hback⟩ := h
  refine ⟨⟨fun p hp => ?_, hground, fun i => ?_, hnodup, hiff, hlow⟩, hstock, hback⟩
  · rcases Multiset.mem_add.1 hp with hp | hp
    · exact hunf p hp
    · rw [Multiset.mem_singleton.1 hp]
      exact unfolds_absent
  · rw [hrefs i, holders_add, holders_singleton]
    simp

/-- No tree that is kept has a way down as long as the table is large. -/
theorem depth_lt (h : s.Sound c F) (hp : s.Unfolds p) : p.depth < s.reach := by
  -- A way down meets no slot twice, as subtrees of a tree that is kept are strictly smaller.
  have hle : p.depth ≤ s.fresh := depth_le_of_unfolds hp h.stocked.unused
  have hsize : s.fresh ≤ s.table.size := by
    refine Nat.le_of_not_lt fun hlt => ?_
    have hsome := h.stocked.created _ hlt
    rw [Table.isSome_get?_iff_lt_size] at hsome
    exact Nat.lt_irrefl _ hsome
  rw [reach]
  omega

/-- A place that a live place links to is counted. -/
theorem refs_ne_of_link (h : s.Sound c F) {c' : Cell ν} {j : Nat} (hj : s.cell? j = some c')
    (hi : i ∈ c'.links) : s.refs i ≠ 0 := by
  intro h0
  have hpos := linksTo_pos (h.stocked.unused j (contains_iff_exists.2 ⟨c', hj⟩))
    (linksAt_of_cell hj ▸ hi)
  have heq := h.counted.refs_eq i
  rw [h0, UInt32.toNat_zero] at heq
  omega

/-- The children of a place that is kept are counted. -/
theorem refs_ne_of_child (h : s.Sound c F) {d : ν} (hnode : s.Unfolds (.node l (i, d) r))
    (hp : p = l ∨ p = r) : ∀ j, p.root = some j → s.refs j ≠ 0 := by
  intro j hj
  refine h.refs_ne_of_link hnode.1 ?_
  rcases hp with rfl | rfl <;> simp [Cell.links, hj]

/-- All of a tree is counted if its root is. -/
theorem refs_ne_of_mem_slots (h : s.Sound c F) (hp : s.Unfolds p)
    (hroot : ∀ j, p.root = some j → s.refs j ≠ 0) : ∀ i ∈ p.slots, s.refs i ≠ 0 := by
  induction p with
  | absent => simp
  | node l d r ihl ihr =>
    obtain ⟨j, d⟩ := d
    obtain ⟨hcell, hl, hr⟩ := hp
    intro i hi
    rcases mem_slots_node.1 hi with hi | rfl | hi
    · refine ihl hl (fun k hk => h.refs_ne_of_link hcell ?_) i hi
      exact List.mem_append_left _ (Option.mem_toList.2 hk)
    · exact hroot i rfl
    · refine ihr hr (fun k hk => h.refs_ne_of_link hcell ?_) i hi
      exact List.mem_append_right _ (Option.mem_toList.2 hk)

end Sound

/-! ## The first store -/

theorem get?_new (c : Config) (i : Nat) :
    (new (ν := ν) c).table.get? i = none ∨ (new (ν := ν) c).table.get? i = some .blank := by
  have hempty : (Table.empty : Table (Place ν)).get? i = none := by simp [Table.get?, Table.empty]
  simp only [new]
  split
  · exact .inl hempty
  · rw [Table.ensure, Table.get?_append_of_none _ _ _ hempty]
    split
    · exact .inr rfl
    · exact .inl rfl

/-- What is created up front is there for slots that can be handed out. -/
theorem addressable_new (c : Config) (i : Nat) (h : ((new (ν := ν) c).table.get? i).isSome) :
    (Address.locate i).segment < maxSegments := by
  simp only [new] at h
  split at h
  · simp [Table.get?, Table.empty] at h
  · rename_i hreserve
    rw [Table.isSome_get?_iff, Table.size_segments_ensure] at h
    have hlast : min c.initialCapacity (min c.maxNodes maxPlaces) - 1 < maxPlaces := by omega
    have hlt := segment_lt_maxSegments hlast
    have hempty : (Table.empty : Table (Place ν)).segments.size = 0 := rfl
    omega

/-- The books of a new store are right, and empty. -/
theorem sound_new (c : Config) : (new (ν := ν) c).Sound c 0 := by
  have hcell : ∀ i, (new (ν := ν) c).cell? i = none := by
    intro i
    rcases get?_new (ν := ν) c i with h | h <;> rw [cell?, h] <;> rfl
  have hdead : ∀ i, ¬ (new (ν := ν) c).contains i := by
    intro i hi
    rw [contains, hcell i] at hi
    cases hi
  have hrefs : ∀ i, (new (ν := ν) c).refs i = 0 := by
    intro i
    rcases get?_new (ν := ν) c i with h | h <;> rw [refs, h] <;> rfl
  have hlive : (new (ν := ν) c).occupied = 0 := by
    simp only [occupied, new]
    split
    · rfl
    · rw [Table.count_ensure _ _ rfl]
      rfl
  -- Everything is empty, so what the books say of a tree or of a used slot holds of none.
  refine ⟨⟨fun p hp => absurd hp (Multiset.notMem_zero p), fun i hi => absurd hi (hdead i),
    fun i => ?_, List.nodup_nil, fun i => ?_, rfl⟩, ⟨fun i hi => ?_, addressable_new c,
    fun i hi => absurd hi (hdead i), List.nodup_nil, fun i => ?_, hlive.symm, rfl, Nat.zero_le _,
    rfl, rfl, rfl⟩, ?_⟩
  · rw [hrefs i]
    rfl
  · constructor
    · intro hi
      cases hi
    · exact fun hi => absurd hi.1 (hdead i)
  · exact absurd hi (Nat.not_lt_zero i)
  · constructor
    · intro hi
      cases hi
    · exact fun hi => absurd hi.1 (Nat.not_lt_zero i)
  · rw [Backlog]
    split
    · rfl
    · exact Nat.lt_of_lt_of_le Nat.zero_lt_one (Nat.le_max_right _ _)

/-! ## What is known of a failure -/

/-- No place was left; `F` is what is still held. -/
def Short (c : Config) (F : Multiset (Placed ν)) (e : Failure) (s : Store ν) : Prop :=
  e = .refused (.capacityExceeded (min c.maxNodes maxPlaces)) ∧ s.Sound c F

/-- A tree that looks like `t` has been handed over by its root, and `F` is held besides. -/
def Owned (c : Config) (F : Multiset (Placed ν)) (t : Tree ν) (root : Option Nat)
    (s : Store ν) : Prop :=
  ∃ p : Placed ν, p.root = root ∧ p.bare = t ∧ s.Sound c (F + {p})

theorem Short.cast {e : Failure} (h : s.Short c F e) (hFG : F = G) : s.Short c G e := hFG ▸ h

/-! ## Laws -/

/-- References that are given up one by one. -/
theorem forM_release_frees {H : List (Placed ν)}
    (h : s.Sound c (F + (H : Multiset (Placed ν)))) :
    ∃ back s', (rootSlots H).forM release s = .ok () s' ∧ s'.Sound c F ∧ s.Frees back s' := by
  induction H generalizing s with
  | nil => exact ⟨[], s, rfl, h.cast (by simp), (Recounted.refl s).frees⟩
  | cons p H ih =>
    have h₁ : s.Sound c (F + (H : Multiset (Placed ν)) + {p}) :=
      h.cast (by rw [← Multiset.cons_coe, ← Multiset.singleton_add]; abel)
    rw [rootSlots_cons]
    cases hp : p.root with
    | none => exact ih (h₁.of_absent hp)
    | some i =>
      obtain ⟨back₂, s₂, hrel, h₂, hfrees₂⟩ := release_frees h₁ hp
      obtain ⟨back₃, s₃, hrest, h₃, hfrees₃⟩ := ih h₂
      exact ⟨_, s₃, (bind_of_ok hrel).trans hrest, h₃, hfrees₂.trans hfrees₃⟩

/-- The same where a failure is on its way, which stays what it is. -/
theorem giveBack_spec {α : Type} {H : List (Placed ν)} {e : Failure}
    (h : s.Sound c (F + (H : Multiset (Placed ν)))) :
    ∃ s', giveBack (α := α) (rootSlots H) e s = .error e s' ∧ s'.Sound c F := by
  induction H generalizing s with
  | nil => exact ⟨s, rfl, h.cast (by simp)⟩
  | cons p H ih =>
    have h₁ : s.Sound c (F + (H : Multiset (Placed ν)) + {p}) :=
      h.cast (by rw [← Multiset.cons_coe, ← Multiset.singleton_add]; abel)
    rw [rootSlots_cons]
    cases hp : p.root with
    | none => exact ih (h₁.of_absent hp)
    | some i =>
      obtain ⟨s₂, hrel, h₂⟩ := release_spec h₁ hp
      obtain ⟨s₃, hrest, h₃⟩ := ih h₂
      refine ⟨s₃, ?_, h₃⟩
      show giveBack (i :: rootSlots H) e s = _
      rw [giveBack]
      simp only [hrel]
      exact hrest

theorem guarding_of_ok {α : Type} {held : List Nat} {action : StoreM ν α} {a : α}
    (h : action s = .ok a s') : guarding held action s = .ok a s' := by
  rw [guarding, h]

/-- A cell is stored in a slot that was not live, and the references to its children go over into
it; or every slot is live, and the references to its children are dropped. -/
theorem allocate_cases (d : ν) (h : s.Sound c (F + {l} + {r})) :
    (∃ i s', allocate ⟨l.root, r.root, d⟩ s = .ok i s' ∧ s'.Sound c (F + {.node l (i, d) r}) ∧
      s.occupied < s.limit ∧ ¬ s.contains i ∧ ∀ j, j ≠ i → s'.cell? j = s.cell? j) ∨
    ∃ back s', allocate ⟨l.root, r.root, d⟩ s
        = .error (.refused (.capacityExceeded (min c.maxNodes maxPlaces))) s' ∧
      s'.Sound c F ∧ s.occupied = s.limit ∧ s.Frees back s' ∧
      (Cell.links ⟨l.root, r.root, d⟩).forM release s = .ok () s' := by
  rw [add_assoc] at h
  obtain ⟨i, s₁, hnext, hhand⟩ | ⟨hnext, hfull⟩ := nextSlot?_spec h.stocked
  · obtain ⟨s₂, hocc, h₂, hsame⟩ := occupy_spec d h hhand
    refine .inl ⟨i, s₂, (bind_of_ok hnext).trans (bind_of_ok hocc), h₂, ?_, hhand.dead, hsame⟩
    have htotal := hhand.total
    have hle := hhand.fresh_le_limit
    rw [← h.stocked.live_eq]
    omega
  -- The links of the cell have been handed over already, so they are released on the way out.
  · obtain ⟨back, s₁, hrel, h₁, hfrees⟩ := forM_release_frees (H := [l, r]) h
    have hlinks : Cell.links ⟨l.root, r.root, d⟩ = rootSlots [l, r] := by simp [Cell.links]
    rw [← hlinks] at hrel
    refine .inr ⟨back, s₁, ?_, h₁, h.stocked.live_eq.symm.trans hfull, hfrees, hrel⟩
    refine (bind_of_ok hnext).trans ?_
    show ((Cell.links ⟨l.root, r.root, d⟩).forM release >>= _) s = _
    rw [bind_of_ok hrel, ← h₁.stocked.limit_eq]
    rfl

/-- One more reference to a tree that is referred to already. -/
theorem share_spec (h : s.Sound c F) (hp : s.Unfolds p)
    (hne : ∀ i, p.root = some i → s.refs i ≠ 0) :
    Ends (share p.root s) (fun root s' => root = p.root ∧ s'.Sound c (F + {p})) Never := by
  unfold share
  cases hi : p.root with
  | none =>
    refine .pure ⟨rfl, ?_⟩
    rw [root_eq_none_iff.1 hi]
    exact h.with_absent
  | some i =>
    obtain ⟨s', hret, h'⟩ := retain_spec h.counted hp hi (hne i hi)
    refine .bind (.of_ok hret fun hquiet => ?_) fun _ s' h' => .pure ⟨rfl, h'⟩
    obtain ⟨hcount, hr⟩ := h' (by simpa [Alarmed.Rung] using hquiet)
    exact ⟨hcount, h.stocked.recounted hr, h.backlog.recounted hr⟩

theorem unshare_spec (h : s.Sound c (F + {p})) :
    ∃ s', unshare p.root s = .ok () s' ∧ s'.Sound c F := by
  unfold unshare
  cases hi : p.root with
  | none => exact ⟨s, rfl, h.of_absent hi⟩
  | some i => exact release_spec h hi

end Store

open Store

namespace Ends

variable {α : Type} {s : Store ν} {c : Config} {F : Multiset (Placed ν)} {held : List Nat}
  {action : StoreM ν α} {Q : α → Store ν → Prop} {E : Failure → Store ν → Prop}

/-- What is held while an action runs is given back if it fails. -/
theorem guarding (H : List (Placed ν))
    (h : Ends (action s) Q (Short c (F + (H : Multiset (Placed ν))))) :
    Ends (StoreM.guarding (rootSlots H) action s) Q (Short c F) := by
  unfold StoreM.guarding
  cases hr : action s with
  | ok a s' =>
    rw [hr] at h
    exact h
  | error e s' =>
    rw [hr] at h
    by_cases hs' : Alarmed.Rung s'
    · exact .of_rung ((lasting_giveBack _ e).rung s' hs')
    · obtain ⟨he, hsound⟩ := h hs'
      obtain ⟨s'', hback, h''⟩ := giveBack_spec (α := α) (e := e) hsound
      exact .of_error hback ⟨he, h''⟩

/-- One tree that is held besides. -/
theorem guarding_one (p : Placed ν) (h : Ends (action s) Q (Short c (F + {p}))) :
    Ends (StoreM.guarding p.root.toList action s) Q (Short c F) := by
  have hroots : p.root.toList = rootSlots [p] := by simp
  rw [hroots]
  exact guarding [p] h

/-- Two trees that are held besides. -/
theorem guarding_two (p q : Placed ν) (h : Ends (action s) Q (Short c (F + {p} + {q}))) :
    Ends (StoreM.guarding (p.root.toList ++ q.root.toList) action s) Q (Short c F) := by
  have hroots : p.root.toList ++ q.root.toList = rootSlots [p, q] := by simp
  rw [add_assoc] at h
  rw [hroots]
  exact guarding [p, q] h

/-- Where nothing fails, nothing has to be given back. -/
theorem guarding_never (h : Ends (action s) Q Never) :
    Ends (StoreM.guarding held action s) Q E := by
  unfold StoreM.guarding
  cases hr : action s with
  | ok a s' =>
    rw [hr] at h
    exact h
  | error e s' =>
    rw [hr] at h
    by_cases hs' : Alarmed.Rung s'
    · exact .of_rung ((lasting_giveBack _ e).rung s' hs')
    · exact (h hs').elim

end Ends

end SharedForest

/-
The registry of a forest, and everything that is held of it.

A registry is a list in order of versions, so a version stands in it at most once, and
each snapshot stands under its own version.  `Shelved` says so, and adds that a forest
keeps snapshots of its own only.  Entering and taking out move a snapshot between the
registry and whoever asked, which is all that the laws about `register`, `lookup` and
`unregister` have to say on top of what is known of copying and dropping.

Handles outside the registry may be of any forest.  `Tended f c P O` counts those in `O`
that are of this one together with the registered ones, and `Onward` is the step from one
such state to another: trees that are held before and after have not changed.
-/
import SharedForest.Proofs.Handles

set_option autoImplicit false

namespace SharedForest

open Alarmed

variable {γ K Q V T α : Type}

/-! ## Lists of pairs -/

section

variable {β : Type} [BEq α] [LawfulBEq α] {l rest : List (α × β)} {a k : α} {b : β}

/-- The first pair with the key, as a case distinction. -/
theorem lookup_cons_eq [DecidableEq α] (k a : α) (b : β) (rest : List (α × β)) :
    ((a, b) :: rest).lookup k = if k = a then some b else rest.lookup k := by
  rw [List.lookup_cons]
  by_cases hka : k = a
  · rw [if_pos hka, hka, beq_self_eq_true]
  · rw [if_neg hka, beq_false_of_ne hka]

/-- Taking out what stands under `k` takes out one thing if keys are distinct. -/
theorem values_filter (h : (l.map (·.1)).Nodup) (k : α) :
    ((l.filter (·.1 != k)).map (·.2) : Multiset β) + ((l.lookup k).toList : Multiset β)
      = (l.map (·.2) : Multiset β) := by
  induction l with
  | nil => rfl
  | cons x rest ih =>
    obtain ⟨a, b⟩ := x
    obtain ⟨hnew, hrest⟩ := List.nodup_cons.1 h
    rw [List.lookup_cons]
    by_cases hka : k = a
    · obtain rfl := hka
      -- The key is not in the rest, so nothing more is taken out.
      have hkeep : rest.filter (·.1 != k) = rest := by
        refine List.filter_eq_self.2 fun x hx => bne_iff_ne.2 ?_
        intro heq
        exact hnew (List.mem_map.2 ⟨x, hx, heq⟩)
      rw [beq_self_eq_true, List.filter_cons_of_neg (by simp), hkeep, List.map_cons,
        ← Multiset.cons_coe, ← Multiset.singleton_add]
      exact add_comm _ _
    · rw [beq_false_of_ne hka, List.filter_cons_of_pos (by simpa using Ne.symm hka), List.map_cons,
        List.map_cons, ← Multiset.cons_coe, ← Multiset.cons_coe, ← ih hrest, Multiset.cons_add]

/-- Everything that stands in the list can be looked up if keys are distinct. -/
theorem lookup_of_mem (h : (l.map (·.1)).Nodup) (hb : (k, b) ∈ l) : l.lookup k = some b := by
  induction l with
  | nil => cases hb
  | cons x rest ih =>
    obtain ⟨a, b'⟩ := x
    obtain ⟨hnew, hrest⟩ := List.nodup_cons.1 h
    rw [List.lookup_cons]
    rcases List.mem_cons.1 hb with heq | hmem
    · obtain ⟨rfl, rfl⟩ := Prod.mk.inj heq
      rw [beq_self_eq_true]
    · have hka : k ≠ a := fun heq => hnew (heq ▸ List.mem_map.2 ⟨_, hmem, rfl⟩)
      rw [beq_false_of_ne hka]
      exact ih hrest hmem

/-- Other keys are not affected. -/
theorem lookup_filter_other {k' : α} (hk : k' ≠ k) :
    (l.filter (·.1 != k)).lookup k' = l.lookup k' := by
  induction l with
  | nil => rfl
  | cons x rest ih =>
    obtain ⟨a, b⟩ := x
    by_cases hak : a = k
    · have hka : (k' == a) = false := beq_false_of_ne (hak ▸ hk)
      rw [List.filter_cons_of_neg (by simp [hak]), ih, List.lookup_cons, hka]
    · rw [List.filter_cons_of_pos (by simpa using hak), List.lookup_cons, List.lookup_cons, ih]

end

namespace Forest

/-! ## Lists in order of versions -/

/-- Versions increase, each snapshot stands under its own, and all are of the same forest. -/
structure Shelved (id : Nat) (shelf : List (UInt64 × Snapshot)) : Prop where
  sorted : shelf.Pairwise fun a b => a.1 < b.1
  version : ∀ e ∈ shelf, e.2.version = e.1
  own : ∀ e ∈ shelf, e.2.forest = id

section

variable {id : Nat} {shelf rest : List (UInt64 × Snapshot)} {t u : Snapshot} {v w : UInt64}
  {e : UInt64 × Snapshot}

theorem shelved_nil : Shelved id [] := ⟨.nil, by simp, by simp⟩

/-- A shelf is in order if its rest is and the first version is below all of them. -/
theorem shelved_cons : Shelved id (e :: rest) ↔
    Shelved id rest ∧ (∀ x ∈ rest, e.1 < x.1) ∧ e.2.version = e.1 ∧ e.2.forest = id := by
  constructor
  · rintro ⟨hsorted, hversion, hown⟩
    obtain ⟨hlt, hrest⟩ := List.pairwise_cons.1 hsorted
    exact ⟨⟨hrest, fun x hx => hversion x (by simp [hx]), fun x hx => hown x (by simp [hx])⟩, hlt,
      hversion e (by simp), hown e (by simp)⟩
  · rintro ⟨⟨hsorted, hversion, hown⟩, hlt, hev, heo⟩
    refine ⟨List.pairwise_cons.2 ⟨hlt, hsorted⟩, ?_, ?_⟩
    · intro x hx
      rcases List.mem_cons.1 hx with rfl | hx
      · exact hev
      · exact hversion x hx
    · intro x hx
      rcases List.mem_cons.1 hx with rfl | hx
      · exact heo
      · exact hown x hx

/-- What stands under a version is a snapshot of this forest with that version. -/
theorem version_of_lookup (h : Shelved id shelf) (ht : shelf.lookup v = some t) :
    t.version = v ∧ t.forest = id := by
  obtain ⟨l, r, rfl, -⟩ := List.lookup_eq_some_iff.1 ht
  exact ⟨h.version (v, t) (by simp), h.own (v, t) (by simp)⟩

/-- What can be looked up is on the shelf. -/
theorem mem_of_lookup (ht : shelf.lookup v = some t) : t ∈ shelf.map (·.2) := by
  obtain ⟨l, r, rfl, -⟩ := List.lookup_eq_some_iff.1 ht
  simp

/-! ### Entering and taking out -/

/-- Nothing comes in by entering but the one snapshot. -/
theorem mem_enter (he : e ∈ (enter t shelf).1) : e = (t.version, t) ∨ e ∈ shelf := by
  induction shelf with
  | nil => exact .inl (List.mem_singleton.1 he)
  | cons x rest ih =>
    obtain ⟨v, u⟩ := x
    rw [enter] at he
    split at he
    · exact List.mem_cons.1 he
    · split at he
      · rcases List.mem_cons.1 he with rfl | he
        · exact .inl rfl
        · exact .inr (List.mem_cons_of_mem _ he)
      · rcases List.mem_cons.1 he with rfl | he
        · exact .inr (by simp)
        · exact (ih he).imp_right (List.mem_cons_of_mem _)

/-- Entering puts a snapshot in its place in the order. -/
theorem shelved_enter (h : Shelved id shelf) (ht : t.forest = id) :
    Shelved id (enter t shelf).1 := by
  -- Three cases at each entry: the place is before it, at it, or further on.
  induction shelf with
  | nil => exact shelved_cons.2 ⟨shelved_nil, by simp, rfl, ht⟩
  | cons x rest ih =>
    obtain ⟨hrest, hlt, hev, heo⟩ := shelved_cons.1 h
    obtain ⟨v, u⟩ := x
    rw [enter]
    split
    · rename_i htv
      refine shelved_cons.2 ⟨h, fun y hy => ?_, rfl, ht⟩
      rcases List.mem_cons.1 hy with rfl | hy
      · exact htv
      · exact UInt64.lt_trans htv (hlt y hy)
    · split
      · rename_i htv
        exact shelved_cons.2 ⟨hrest, fun y hy => htv ▸ hlt y hy, rfl, ht⟩
      · rename_i hnlt hne
        refine shelved_cons.2 ⟨ih hrest, fun y hy => ?_, hev, heo⟩
        rcases mem_enter hy with rfl | hy
        · exact UInt64.lt_of_le_of_ne (UInt64.not_lt.1 hnlt) (Ne.symm hne)
        · exact hlt y hy

/-- What is entered comes in, and what is replaced goes out. -/
theorem snapshots_enter (t : Snapshot) (shelf : List (UInt64 × Snapshot)) :
    ((enter t shelf).1.map (·.2) : Multiset Snapshot) + ((enter t shelf).2.toList : Multiset Snapshot)
      = (shelf.map (·.2) : Multiset Snapshot) + {t} := by
  induction shelf with
  | nil => rfl
  | cons x rest ih =>
    obtain ⟨v, u⟩ := x
    rw [enter]
    split
    · rw [List.map_cons, ← Multiset.cons_coe, ← Multiset.singleton_add]
      exact (add_zero _).trans (add_comm _ _)
    · split
      · simp only [List.map_cons, Option.toList_some, ← Multiset.cons_coe, ← Multiset.singleton_add]
        rw [Multiset.coe_nil]
        abel
      · simp only [List.map_cons, ← Multiset.cons_coe, ← Multiset.singleton_add, add_assoc, ih]

/-- After entering, the snapshot stands under its version, and all else as before. -/
theorem lookup_enter (t : Snapshot) (shelf : List (UInt64 × Snapshot)) (v : UInt64) :
    (enter t shelf).1.lookup v = if v = t.version then some t else shelf.lookup v := by
  induction shelf with
  | nil => exact lookup_cons_eq v t.version t []
  | cons x rest ih =>
    obtain ⟨w, u⟩ := x
    rw [enter]
    split
    · exact lookup_cons_eq v t.version t _
    · split
      · rename_i htw
        rw [lookup_cons_eq, lookup_cons_eq, htw]
        by_cases hv : v = w
        · rw [if_pos hv, if_pos hv]
        · rw [if_neg hv, if_neg hv, if_neg hv]
      · rename_i hne
        dsimp only
        rw [lookup_cons_eq, lookup_cons_eq, ih]
        by_cases hv : v = w
        · have hvt : v ≠ t.version := fun h => hne (h.symm.trans hv)
          rw [if_pos hv, if_neg hvt, if_pos hv]
        · rw [if_neg hv, if_neg hv]

/-- A shelf stays in order when things are taken out. -/
theorem shelved_filter (h : Shelved id shelf) (p : UInt64 × Snapshot → Bool) :
    Shelved id (shelf.filter p) :=
  ⟨h.sorted.filter p, fun e he => h.version e (List.mem_filter.1 he).1,
    fun e he => h.own e (List.mem_filter.1 he).1⟩

/-- A version stands in the list at most once. -/
theorem Shelved.nodup (h : Shelved id shelf) : (shelf.map (·.1)).Nodup := by
  refine List.pairwise_map.2 (h.sorted.imp ?_)
  intro a b hlt heq
  exact UInt64.lt_irrefl _ (heq ▸ hlt : b.1 < b.1)

end

/-! ## Everything that is held of a forest -/

variable {c : Config} {P : NodeTree K V T → Prop} {f f₁ f' : Forest K V T} {t u : Snapshot}
  {O O' L : Multiset Snapshot}

/-- The registered snapshots. -/
def registered (f : Forest K V T) : Multiset Snapshot := (f.registry.map (·.2) : List Snapshot)

/-- Those of `O` that are of this forest, and the registered ones. -/
def held (f : Forest K V T) (O : Multiset Snapshot) : Multiset Snapshot :=
  O.filter (·.forest = f.id) + f.registered

/-- The books of a forest are right when `O` is held outside. -/
structure Tended (f : Forest K V T) (c : Config) (P : NodeTree K V T → Prop)
    (O : Multiset Snapshot) : Prop where
  shelved : Shelved f.id f.registry
  backs : f.Backs c P (f.held O)

/-- The forest has gone on, and now `O'` is held outside in the place of `O`. -/
structure Onward (f : Forest K V T) (c : Config) (P : NodeTree K V T → Prop)
    (O O' : Multiset Snapshot) (f' : Forest K V T) : Prop where
  id : f'.id = f.id
  augment : f'.augment = f.augment
  tended : f'.Tended c P O'
  keeps : ∀ t ∈ f.held O, t ∈ f'.held O' → ∀ p : Placed (Node K V T), p.root = t.root →
    f.store.Unfolds p → f'.store.Unfolds p

/-- What is held of a forest is held outside, or registered. -/
theorem mem_held : t ∈ f.held O ↔ (t ∈ O ∧ t.forest = f.id) ∨ t ∈ f.registered := by
  rw [held, Multiset.mem_add, Multiset.mem_filter]

/-- What comes to be held outside, if it is of this forest, is one more thing held of it. -/
theorem held_add (h : ∀ t ∈ L, t.forest = f.id) : f.held (O + L) = f.held O + L := by
  rw [held, held, Multiset.filter_add, Multiset.filter_eq_self.2 h]
  abel

/-- Of snapshots of other forests the books know nothing. -/
theorem held_add_foreign (h : ∀ t ∈ L, t.forest ≠ f.id) : f.held (O + L) = f.held O := by
  rw [held, held, Multiset.filter_add, Multiset.filter_eq_nil.2 h, add_zero]

/-- What is held of a forest depends on its number and its registry alone. -/
theorem held_congr (hid : f'.id = f.id) (hreg : f'.registry = f.registry) :
    f'.held O = f.held O := by
  rw [held, held, registered, registered, hid, hreg]

theorem Onward.refl (h : f.Tended c P O) : Onward f c P O O f :=
  ⟨rfl, rfl, h, fun _ _ _ _ _ h => h⟩

/-- Operations that leave the registry alone. -/
theorem Tended.onward (h : f.Tended c P O) (hadv : Advance f c P (f.held O) L f') :
    Onward f c P O (O + L) f' := by
  have hown : ∀ t ∈ L, t.forest = f'.id := fun t ht => (hadv.own t ht).trans hadv.id.symm
  refine ⟨hadv.id, hadv.augment, ⟨?_, ?_⟩, ?_⟩
  · rw [hadv.id, hadv.registry]
    exact h.shelved
  · rw [held_add hown, held_congr hadv.id hadv.registry]
    exact hadv.backs
  · exact fun t ht _ p hp hunf => hadv.keeps t ht p hp hunf

/-- An advance without new snapshots leaves the same ones held. -/
theorem Tended.onward_zero (h : f.Tended c P O) (hadv : Advance f c P (f.held O) 0 f') :
    Onward f c P O O f' := by
  have honward := h.onward hadv
  rwa [add_zero] at honward

/-- A snapshot of this forest that is held outside. -/
theorem mem_held_of_own (ht : t ∈ O) (hown : t.forest = f.id) : t ∈ f.held O :=
  mem_held.2 (.inl ⟨ht, hown⟩)

/-- Giving up a snapshot that is held outside. -/
theorem Tended.drop (h : f.Tended c P (O + {t})) (hown : t.forest = f.id) :
    ∃ f', Forest.drop t f = .ok () f' ∧ f'.registry = f.registry ∧ Onward f c P (O + {t}) O f' := by
  have hheld : f.held (O + {t}) = f.held O + {t} := held_add (by simpa using hown)
  have hbacks := h.backs
  rw [hheld] at hbacks
  obtain ⟨f', hrun, hadv⟩ := advance_drop hbacks
  have hcongr := held_congr (O := O) hadv.id hadv.registry
  refine ⟨f', hrun, hadv.registry, hadv.id, hadv.augment, ⟨?_, ?_⟩, ?_⟩
  · rw [hadv.id, hadv.registry]
    exact h.shelved
  · have hbacks' := hadv.backs
    rwa [add_zero, ← hcongr] at hbacks'
  -- A copy of the snapshot may be held still, and then its tree is among those that are kept.
  · intro u _ hu p hp hunf
    rw [hcongr] at hu
    exact hadv.keeps u hu p hp hunf

/-! ## The registry -/

/-- What can be looked up is held, and is of this forest. -/
theorem Tended.mem_of_lookup {v : UInt64} (h : f.Tended c P O)
    (ht : f.registry.lookup v = some t) : t ∈ f.held O ∧ t.forest = f.id :=
  ⟨mem_held.2 (.inr (Multiset.mem_coe.2 (Forest.mem_of_lookup ht))),
    (version_of_lookup h.shelved ht).2⟩

/-- A lookup hands out a copy of what is registered, and leaves the registry alone. -/
theorem lookup_spec (v : UInt64) (h : f.Tended c P O) :
    Ends (lookup v f)
      (fun u f' => u = f.registry.lookup v ∧ f'.registry = f.registry ∧
        Onward f c P O (O + (u.toList : Multiset Snapshot)) f')
      (fun _ f' => f'.registry = f.registry ∧ Onward f c P O O f') := by
  rw [lookup, bind_get]
  cases hv : f.registry.lookup v with
  | none => exact .pure ⟨rfl, rfl, by simpa using Onward.refl h⟩
  | some t =>
    obtain ⟨hmem, hown⟩ := h.mem_of_lookup hv
    refine .map ((advance_copy h.backs hmem hown).mono ?_ ?_)
    · rintro u f' ⟨rfl, hadv⟩
      exact ⟨rfl, hadv.registry, by simpa using h.onward hadv⟩
    · intro e f' hadv
      exact ⟨hadv.registry, h.onward_zero hadv⟩

/-- What was registered goes to the one who asked, without a copy being made. -/
theorem unregister_spec (v : UInt64) (h : f.Tended c P O) :
    ∃ f', unregister v f = .ok (f.registry.lookup v) f' ∧
      f'.registry = f.registry.filter (·.1 != v) ∧
      Onward f c P O (O + ((f.registry.lookup v).toList : Multiset Snapshot)) f' := by
  rw [unregister]
  cases hv : f.registry.lookup v with
  | none =>
    refine ⟨f, rfl, ?_, by simpa using Onward.refl h⟩
    refine (List.filter_eq_self.2 fun e he => ?_).symm
    have hne := List.lookup_eq_none_iff.1 hv e he
    exact bne_iff_ne.2 fun heq => (by simpa using hne : v ≠ e.1) heq.symm
  | some t =>
    obtain ⟨hmem, hown⟩ := h.mem_of_lookup hv
    refine ⟨_, rfl, rfl, rfl, rfl, ⟨shelved_filter h.shelved _, ?_⟩, fun u _ _ p _ hunf => hunf⟩
    -- The snapshot is held as before, only elsewhere.
    have hheld : held { f with registry := f.registry.filter (·.1 != v) } (O + {t}) = f.held O := by
      have hvalues := values_filter h.shelved.nodup v
      rw [hv, Option.toList_some, Multiset.coe_singleton] at hvalues
      rw [held_add (by simpa using hown), held, held, add_assoc, registered, registered, hvalues]
    rw [Option.toList_some, Multiset.coe_singleton, hheld]
    exact h.backs

/-- A copy that is shelved stands for itself and for what it replaces. -/
theorem shelve_spec (h : f.Tended c P O) (hown : t.forest = f.id)
    (hadv : Advance f c P (f.held O) {t} f₁) :
    ∃ f', shelve t f₁ = .ok () f' ∧ f'.registry = (enter t f.registry).1 ∧
      Onward f c P O O f' := by
  -- Entered, but nothing is dropped yet: what was replaced is still held, as one more snapshot.
  set f₂ : Forest K V T := { f₁ with registry := (enter t f₁.registry).1 } with hf₂
  have hid : f₂.id = f.id := hadv.id
  have hreg : f₂.registry = (enter t f.registry).1 := by rw [hf₂, ← hadv.registry]
  have henter := snapshots_enter t f.registry
  have hreplaced : ∀ u ∈ ((enter t f.registry).2.toList : Multiset Snapshot),
      u.forest = f₂.id := by
    intro u hu
    have hmem : u ∈ (f.registry.map (·.2) : Multiset Snapshot) + {t} := by
      rw [← henter]
      exact Multiset.mem_add.2 (.inr hu)
    rw [hid]
    rcases Multiset.mem_add.1 hmem with hmem | hmem
    · obtain ⟨e, he, rfl⟩ := List.mem_map.1 (Multiset.mem_coe.1 hmem)
      exact h.shelved.own e he
    · rw [Multiset.mem_singleton.1 hmem]
      exact hown
  have hheld : f₂.held (O + ((enter t f.registry).2.toList : Multiset Snapshot))
      = f.held O + {t} := by
    rw [held_add hreplaced, held, held, registered, registered, hid, hreg, add_assoc, henter,
      add_assoc]
  have hshelved : Shelved f₂.id f₂.registry := by
    rw [hid, hreg]
    exact shelved_enter h.shelved hown
  have htended : f₂.Tended c P (O + ((enter t f.registry).2.toList : Multiset Snapshot)) :=
    ⟨hshelved, by rw [hheld]; exact hadv.backs⟩
  rw [shelve, hadv.registry]
  cases hold : (enter t f.registry).2 with
  | none =>
    rw [hold] at htended
    refine ⟨f₂, ?_, hreg, hid, hadv.augment, by simpa using htended, ?_⟩
    · rw [hf₂, hadv.registry]
    · exact fun u hu _ p hp hunf => hadv.keeps u hu p hp hunf
  | some old =>
    rw [hold] at htended hheld hreplaced
    -- Only now does the replaced snapshot go, and the copy is kept by what is held besides.
    obtain ⟨f', hrun, hreg', honward⟩ := htended.drop (hreplaced old (by simp))
    refine ⟨f', ?_, hreg'.trans hreg, honward.id.trans hid, honward.augment.trans hadv.augment,
      honward.tended, ?_⟩
    · rw [← hrun, hf₂, hadv.registry]
    · intro u hu hu' p hp hunf
      refine honward.keeps u ?_ hu' p hp (hadv.keeps u hu p hp hunf)
      rw [show (({old} : Multiset Snapshot)) = ((some old).toList : Multiset Snapshot) from rfl,
        hheld]
      exact Multiset.mem_add.2 (.inl hu)

/-- A copy goes into the registry, under its version, and the snapshot stays with its owner. -/
theorem register_spec (h : f.Tended c P O) (ht : t ∈ O) :
    Ends (register t f)
      (fun v f' => v = t.version ∧ f'.registry = (enter t f.registry).1 ∧ Onward f c P O O f')
      (fun _ f' => f'.registry = f.registry ∧ Onward f c P O O f') := by
  have hreq := requireOwn_eq t f
  by_cases hown : t.forest = f.id
  · rw [if_pos hown] at hreq
    rw [register, bind_of_ok hreq]
    have hcopy := advance_copy h.backs (mem_held_of_own ht hown) hown
    refine .bind (hcopy.mono (fun _ _ hq => hq) ?_) fun u f₁ h₁ => ?_
    · intro e f' hadv
      exact ⟨hadv.registry, h.onward_zero hadv⟩
    · obtain ⟨rfl, hadv⟩ := h₁
      obtain ⟨f', hrun, hreg, honward⟩ := shelve_spec h hown hadv
      rw [bind_of_ok hrun]
      exact .pure ⟨rfl, hreg, honward⟩
  · rw [if_neg hown] at hreq
    rw [register, bind_of_error hreq]
    exact .error ⟨rfl, .refl h⟩

end Forest

end SharedForest

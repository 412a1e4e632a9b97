/-
No leak, and nothing freed too early.

In terms of slots and handles: a place is live exactly if some handle shows it or it is
below a retired place, and after a collection exactly if some handle shows it.  A forest of
which no handle is left is therefore empty once it has been collected, whatever has been
done to it before.

Every session can be brought to that point: its `farewell` gives up all it holds.
-/
import SharedForest.Proofs.Reach
import SharedForest.Proofs.Counts

set_option autoImplicit false

namespace SharedForest

open Tree Alarmed

variable {K Q V T ω : Type}

namespace Forest

variable {f f' : Forest K V T} {c : Config} {F : Multiset (Placed (Node K V T))}
  {handles : List Snapshot} {i : Nat}

/-- Slot `i` is in the tree of one of the handles. -/
def Shown (handles : List Snapshot) (f : Forest K V T) (i : Nat) : Prop :=
  ∃ t ∈ handles, t.forest = f.id ∧ ∃ r, t.root = some r ∧ f.store.Reaches r i

/-- Slot `i` is in the tree below a retired slot. -/
def Lingering (f : Forest K V T) (i : Nat) : Prop :=
  ∃ r ∈ f.store.retired.toList, f.store.Reaches r i

/-- Live is what handles show and what waits to be taken back, and nothing else. -/
structure Tight (handles : List Snapshot) (c : Config) (f : Forest K V T) : Prop where
  contains_iff : ∀ i, f.store.contains i ↔ f.Shown handles i ∨ f.Lingering i
  immediate : c.reclamation = .immediate → ∀ i, f.store.contains i ↔ f.Shown handles i

/-- Nothing is live, nothing waits, and all slots that were ever handed out are free. -/
def Vacant (f : Forest K V T) : Prop :=
  f.stats.live = 0 ∧ f.stats.retired = 0 ∧ f.stats.free = f.stats.highWater

/-- Live is what handles show, and nothing else; so without handles nothing is. -/
structure Swept (handles : List Snapshot) (f : Forest K V T) : Prop where
  contains_iff : ∀ i, f.store.contains i ↔ f.Shown handles i
  vacant : (∀ t ∈ handles, t.forest ≠ f.id) → f.Vacant

/-- A root is held if it is the root of a handle of this forest. -/
theorem exists_held_iff (hF : F.map Tree.root
      = ((handles.filter (·.forest = f.id) : List Snapshot) : Multiset Snapshot).map Snapshot.root) :
    (∃ p ∈ F, p.root = some i) ↔ ∃ t ∈ handles, t.forest = f.id ∧ t.root = some i := by
  rw [← Multiset.mem_map, hF, Multiset.mem_map]
  simp [and_assoc]

theorem anchored_iff (hF : F.map Tree.root
      = ((handles.filter (·.forest = f.id) : List Snapshot) : Multiset Snapshot).map Snapshot.root) :
    (∃ j, f.store.Anchored F [] j ∧ f.store.Reaches j i) ↔ f.Shown handles i ∨ f.Lingering i := by
  simp only [Store.Anchored, exists_held_iff hF, List.append_nil]
  constructor
  · rintro ⟨j, ⟨t, ht, hown, hroot⟩ | hj, hreach⟩
    · exact .inl ⟨t, ht, hown, j, hroot, hreach⟩
    · exact .inr ⟨j, hj, hreach⟩
  · rintro (⟨t, ht, hown, j, hroot, hreach⟩ | ⟨j, hj, hreach⟩)
    · exact ⟨j, .inl ⟨t, ht, hown, hroot⟩, hreach⟩
    · exact ⟨j, .inr hj, hreach⟩

theorem tight_of_sound (h : f.store.Sound c F) (hF : F.map Tree.root
      = ((handles.filter (·.forest = f.id) : List Snapshot) : Multiset Snapshot).map Snapshot.root) :
    Tight handles c f := by
  have hall : ∀ i, f.store.contains i ↔ f.Shown handles i ∨ f.Lingering i := fun i =>
    (h.counted.contains_iff_reaches h.stocked.unused).trans (anchored_iff hF)
  refine ⟨hall, fun hpolicy i => (hall i).trans ?_⟩
  have hbacklog := h.backlog
  rw [Store.Backlog, h.stocked.policy, hpolicy] at hbacklog
  simp [Lingering, hbacklog]

theorem swept_of_sound (h : f.store.Sound c F) (hretired : f.store.retired.toList = [])
    (hF : F.map Tree.root = ((handles.filter (·.forest = f.id) : List Snapshot) :
      Multiset Snapshot).map Snapshot.root) : Swept handles f := by
  have hall : ∀ i, f.store.contains i ↔ f.Shown handles i := by
    intro i
    rw [(tight_of_sound h hF).contains_iff]
    simp [Lingering, hretired]
  refine ⟨hall, fun hnone => ?_⟩
  have hdead : ∀ i, ¬ f.store.contains i := by
    intro i hi
    obtain ⟨t, ht, hown, -⟩ := (hall i).1 hi
    exact hnone t ht hown
  have hlive : f.store.live = 0 := by
    rw [h.stocked.live_eq_countP]
    exact List.countP_eq_zero.2 fun i _ => hdead i
  have htotal := h.stocked.total
  refine ⟨hlive, ?_, ?_⟩
  · rw [stats, Store.stats]
    exact (Fifo.length_toList _).symm.trans (by rw [hretired, List.length_nil])
  · simp only [stats, Store.stats]
    omega

end Forest

/-- The command that gives up what is held at a place. -/
def Holder.giveUp : Holder → Command K V Q
  | .tree name => .drop name
  | .walk name => .dropWalk name
  | .registered n v => .unregister n v none

namespace Session

variable {s s' : Session K V T} {aug : Augment K V T} {cs : List Config} {c : Config}
  {P : NodeTree K V T → Prop} {f : Forest K V T} {t : Snapshot} {n : Nat}

/-- The held trees of a forest, for the handles there are. -/
theorem Tidy.exists_sound (h : s.Tidy aug cs P 0) (hf : s.forests[n]? = some f)
    (hc : cs[n]? = some c) :
    ∃ F : Multiset (Placed (Node K V T)), f.store.Sound c F ∧ F.map Tree.root
      = ((s.handles.filter (·.forest = f.id) : List Snapshot) : Multiset Snapshot).map
          Snapshot.root := by
  obtain ⟨hid, -, c', F, hc', hsound, -, hF⟩ := h.exists_books hf
  obtain rfl := Option.some.inj (hc.symm.trans hc')
  exact ⟨F, hsound, by rw [hid]; exact hF⟩

/-- A forest with another store in its place has the same handles. -/
theorem handles_set {f' : Forest K V T} (hf : s.forests[n]? = some f)
    (hreg : f'.registry = f.registry) :
    handles { s with forests := s.forests.setIfInBounds n f' } = s.handles := by
  obtain ⟨hn, rfl⟩ := Array.getElem?_eq_some_iff.1 hf
  have hmap : ((s.forests.setIfInBounds n f').toList.map fun g => g.registry.map (·.2))
      = s.forests.toList.map fun g => g.registry.map (·.2) := by
    rw [Array.toList_setIfInBounds, List.map_set, hreg]
    have hn' : n < (s.forests.toList.map fun g => g.registry.map (·.2)).length := by simpa using hn
    rw [show s.forests[n].registry.map (·.2)
      = (s.forests.toList.map fun g => g.registry.map (·.2))[n] by simp]
    exact List.set_getElem_self hn'
  simp only [handles, List.flatMap_def, hmap]

/-- What is under a version is taken out of a registry, and is under no name then. -/
theorem unregister_eq (h : s.Tidy aug cs P 0) (hf : s.forests[n]? = some f) (v : UInt64) :
    ∃ s', onForest n (Forest.unregister v) s = .ok (s.holding (.registered n v)) s' ∧
      Went aug cs P s ((s.holding (.registered n v)).toList : Multiset Snapshot) s' ∧
      ∀ y, s'.holding y = if y = .registered n v then none else s.holding y := by
  obtain ⟨c, hc⟩ := h.exists_config hf
  obtain ⟨-, -, htended⟩ := h.tended n f c hf hc
  rw [add_zero] at htended
  obtain ⟨f', hrun, hreg, hon⟩ := Forest.unregister_spec v htended
  rw [holding, shelf_of_forest hf]
  have hown : ∀ t ∈ ((f.registry.lookup v).toList : Multiset Snapshot), t.forest = f.id :=
    fun t ht => (htended.mem_of_lookup (v := v) (by simpa using ht)).2
  refine ⟨{ s with forests := s.forests.setIfInBounds n f' }, onForest_of_ok hf hrun,
    h.onward hf hc hon hown, fun y => ?_⟩
  split
  · rename_i hy
    rw [hy, holding, shelf_set hf, if_pos rfl, hreg]
    refine List.lookup_eq_none_iff.2 fun e he => bne_iff_ne.2 (Ne.symm ?_)
    exact bne_iff_ne.1 (List.mem_filter.1 he).2
  · rename_i hy
    exact holding_unregistered hf hreg hy

/-- In the registry of a forest that is not there nothing is held. -/
theorem holding_of_no_forest (hf : s.forests[n]? = none) (v : UInt64) :
    s.holding (.registered n v) = none := by
  rw [holding, shelf, hf]
  rfl

/-- A handle that has gone out of its place is given up, which disturbs no other place. -/
theorem given_up_spec {β : Type} {b : β} {x : Holder}
    (h : Went aug cs P s {t} s')
    (hheld : ∀ y, s'.holding y = if y = x then none else s.holding y) :
    (final ((discard t >>= fun _ => pure b : SessionM K V T β) s')).Tidy aug cs P 0 ∧
      ∀ y, (final ((discard t >>= fun _ => pure b : SessionM K V T β) s')).holding y
        = if y = x then none else s.holding y := by
  rw [← zero_add ({t} : Multiset Snapshot)] at h
  obtain ⟨s₂, hrun, hwent, htrees, hwalks, hshelf⟩ := discard_spec h
  rw [bind_of_ok hrun]
  exact ⟨hwent.tidy, fun y => (holding_congr htrees hwalks hshelf y).trans (hheld y)⟩

variable [Ord K] [Ord Q] [KeyView K Q] (sort : List (K × V) → List (K × V))
  (note : Forest K V T → Snapshot → Except Fault ω)

/-- A collection succeeds, and leaves what handles show. -/
theorem collect_swept (h : s.Tidy aug cs P 0) (hf : s.forests[n]? = some f) :
    ∃ k s' f', execBy sort note (.collect n : Command K V Q) s = .ok (.count k) s' ∧
      s'.forests[n]? = some f' ∧ s'.handles = s.handles ∧ Forest.Swept s'.handles f' := by
  obtain ⟨c, hc⟩ := h.exists_config hf
  obtain ⟨F, hsound, hF⟩ := h.exists_sound hf hc
  obtain ⟨k, f', hrun, hholds, hretired⟩ := Forest.collect_spec hsound
  have hn : n < s.forests.size := (Array.getElem?_eq_some_iff.1 hf).1
  have hhandles := handles_set hf hholds.registry
  refine ⟨k, { s with forests := s.forests.setIfInBounds n f' }, f', ?_,
    Array.getElem?_setIfInBounds_self_of_lt hn, hhandles, ?_⟩
  · rw [execBy]
    exact bind_of_ok (onForest_of_ok hf hrun)
  · rw [hhandles]
    exact Forest.swept_of_sound hholds.sound hretired (by rw [hholds.id]; exact hF)

/-! ## Giving everything up -/

/-- Where something is given up nothing is held any more, and everything else stays. -/
theorem giveUp_spec (h : s.Tidy aug cs P 0) (x : Holder) :
    (next sort (x.giveUp : Command K V Q) s).Tidy aug cs P 0 ∧
      ∀ y, (next sort (x.giveUp : Command K V Q) s).holding y
        = if y = x then none else s.holding y := by
  -- Where nothing is held nothing happens.
  have hnone : s.holding x = none → ∀ y, s.holding y = if y = x then none else s.holding y := by
    intro hx y
    split
    · rename_i hy
      rw [hy, hx]
    · rfl
  rw [next]
  cases x with
  | tree name =>
    rw [Holder.giveUp, execBy, bind_get]
    cases ht : s.trees.get? name with
    | none => exact ⟨h, hnone ht⟩
    | some t =>
      dsimp only
      rw [bind_modify]
      refine given_up_spec (went_erase h ht) fun y => ?_
      split
      · rename_i hy
        rw [hy]
        exact Names.get?_erase_self _ _
      · rename_i hy
        exact holding_erase hy
  | walk name =>
    rw [Holder.giveUp, execBy, bind_get]
    cases hw : s.walks.get? name with
    | none => exact ⟨h, hnone (congrArg (Option.map Walk.tree) hw)⟩
    | some w =>
      dsimp only
      rw [bind_modify]
      refine given_up_spec (went_eraseWalk h hw) fun y => ?_
      split
      · rename_i hy
        rw [hy]
        exact congrArg (Option.map Walk.tree) (Names.get?_erase_self _ _)
      · rename_i hy
        exact holding_eraseWalk hy
  | registered n v =>
    rw [Holder.giveUp, execBy]
    cases hf : s.forests[n]? with
    | none =>
      rw [bind_of_error (onForest_of_none hf)]
      exact ⟨h, hnone (holding_of_no_forest hf v)⟩
    | some f =>
      obtain ⟨s₁, hok, hwent, hheld⟩ := unregister_eq h hf v
      rw [bind_of_ok hok]
      cases hv : s.holding (.registered n v) with
      | none =>
        rw [hv] at hwent
        exact ⟨hwent.tidy, hheld⟩
      | some t =>
        rw [hv] at hwent
        exact given_up_spec hwent hheld

/-- The places where the session holds something. -/
def places (s : Session K V T) : List Holder :=
  s.trees.pairs.map (fun e => .tree e.1) ++ s.walks.pairs.map (fun e => .walk e.1)
    ++ (List.range s.forests.size).flatMap fun n => (s.shelf n).map fun e => .registered n e.1

/-- Commands that give up whatever is held at one of the places. -/
theorem execAllBy_giveUp (h : s.Tidy aug cs P 0) (xs : List Holder) :
    (execAllBy sort (xs.map fun x => (x.giveUp : Command K V Q)) s).Tidy aug cs P 0 ∧
      ∀ y, (execAllBy sort (xs.map fun x => (x.giveUp : Command K V Q)) s).holding y
        = if y ∈ xs then none else s.holding y := by
  induction xs generalizing s with
  | nil => exact ⟨h, fun y => by simp [execAllBy]⟩
  | cons x xs ih =>
    rw [List.map_cons, execAllBy_cons]
    obtain ⟨htidy, hheld⟩ := giveUp_spec (Q := Q) sort h x
    obtain ⟨hend, hrest⟩ := ih htidy
    refine ⟨hend, fun y => ?_⟩
    rw [hrest, hheld]
    by_cases hy : y = x <;> simp [hy]

omit [Ord K] in
theorem mem_places_of_holding {x : Holder} (ht : s.holding x = some t) :
    x ∈ s.places := by
  rw [places, List.mem_append, List.mem_append]
  cases x with
  | tree name =>
    obtain ⟨l, r, hpairs, -⟩ := List.lookup_eq_some_iff.1 ht
    exact .inl (.inl (List.mem_map.2 ⟨(name, t), by simp [hpairs], rfl⟩))
  | walk name =>
    obtain ⟨w, hw, -⟩ := Option.map_eq_some_iff.1 ht
    obtain ⟨l, r, hpairs, -⟩ := List.lookup_eq_some_iff.1 hw
    exact .inl (.inr (List.mem_map.2 ⟨(name, w), by simp [hpairs], rfl⟩))
  | registered n v =>
    have hmem := List.lookup_eq_some_iff.1 ht
    refine .inr (List.mem_flatMap.2 ⟨n, ?_, ?_⟩)
    · refine List.mem_range.2 (Nat.lt_of_not_le fun hle => ?_)
      rw [holding, shelf, Array.getElem?_eq_none hle] at ht
      cases ht
    · obtain ⟨l, r, hpairs, -⟩ := hmem
      exact List.mem_map.2 ⟨(v, t), by simp [hpairs], rfl⟩

/-- Commands that give up all the session holds. -/
def farewell (s : Session K V T) : List (Command K V Q) := s.places.map fun x => x.giveUp

theorem tidy_farewell (h : s.Tidy aug cs P 0) :
    (execAllBy sort (farewell s : List (Command K V Q)) s).Tidy aug cs P 0 :=
  (execAllBy_giveUp sort h s.places).1

theorem handles_farewell (h : s.Tidy aug cs P 0) :
    (execAllBy sort (farewell s : List (Command K V Q)) s).handles = [] := by
  refine List.eq_nil_iff_forall_not_mem.2 fun t ht => ?_
  obtain ⟨x, hx⟩ := exists_holder (tidy_farewell sort h) ht
  rw [farewell, (execAllBy_giveUp sort h s.places).2] at hx
  split at hx
  · cases hx
  · rename_i hmem
    exact hmem (mem_places_of_holding hx)

/-- A collection after the farewell leaves nothing in any forest. -/
theorem collect_vacant (h : s.Tidy aug cs P 0) (hf : s.forests[n]? = some f) :
    ∃ k s' f', execBy sort note (.collect n : Command K V Q)
        (execAllBy sort (farewell s : List (Command K V Q)) s) = .ok (.count k) s' ∧
      s'.forests[n]? = some f' ∧ f'.Vacant := by
  have htidy := tidy_farewell (Q := Q) sort h
  have hn : n < (execAllBy sort (farewell s : List (Command K V Q)) s).forests.size := by
    rw [htidy.size, ← h.size]
    exact (Array.getElem?_eq_some_iff.1 hf).1
  obtain ⟨k, s', f', hrun, hf', hhandles, hswept⟩ :=
    collect_swept (Q := Q) sort note htidy (Array.getElem?_eq_getElem hn)
  refine ⟨k, s', f', hrun, hf', hswept.vacant fun t ht => ?_⟩
  rw [hhandles, handles_farewell sort h] at ht
  cases ht

/-! ## The law -/

/-- In every session that a run reaches, live is what handles show and what waits to be taken back;
after a collection it is what handles show.  Where no handle is left it is nothing, and every
session can be brought there. -/
theorem no_leaks {aug : Augment K V T} {configs : List Config}
    {s : Session K V T} (h : s.Reached Q sort aug configs) {n : Nat} {f : Forest K V T}
    {c : Config} (hf : s.forests[n]? = some f) (hc : configs[n]? = some c) :
    Forest.Tight s.handles c f ∧
      (∃ k s' f', execBy sort note (.collect n : Command K V Q) s = .ok (.count k) s' ∧
        s'.forests[n]? = some f' ∧ s'.handles = s.handles ∧ Forest.Swept s'.handles f') ∧
      (execAllBy sort (farewell s : List (Command K V Q)) s).handles = [] ∧
      ∃ k s' f', execBy sort note (.collect n : Command K V Q)
          (execAllBy sort (farewell s : List (Command K V Q)) s) = .ok (.count k) s' ∧
        s'.forests[n]? = some f' ∧ f'.Vacant := by
  have htidy := h.tidy (closed_true aug)
  obtain ⟨F, hsound, hF⟩ := htidy.exists_sound hf hc
  exact ⟨Forest.tight_of_sound hsound hF, collect_swept sort note htidy hf,
    handles_farewell sort htidy, collect_vacant sort note htidy hf⟩

theorem no_leaks_shortRun :
    ∃ f, shortRun.forests[0]? = some f ∧
      Forest.Tight shortRun.handles { reclamation := .deferred 2 } f ∧
      (∃ k s' f', exec (fun _ _ => .ok ()) (.collect 0 : Command Nat Int64) shortRun
          = .ok (.count k) s' ∧
        s'.forests[0]? = some f' ∧ s'.handles = shortRun.handles ∧
        Forest.Swept s'.handles f') ∧
      (execAllBy Forest.sortByKey (farewell shortRun : List (Command Nat Int64)) shortRun).handles
        = [] ∧
      ∃ k s' f', exec (fun _ _ => .ok ()) (.collect 0 : Command Nat Int64)
          (execAllBy Forest.sortByKey (farewell shortRun : List (Command Nat Int64)) shortRun)
          = .ok (.count k) s' ∧
        s'.forests[0]? = some f' ∧ f'.Vacant := by
  obtain ⟨f, hf⟩ := Option.isSome_iff_exists.1
    (show (shortRun.forests[0]?).isSome by decide +kernel)
  exact ⟨f, hf, no_leaks _ _ reached_shortRun hf rfl⟩

end Session

end SharedForest

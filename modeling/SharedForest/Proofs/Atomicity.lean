/-
A failed operation has done nothing.

An operation may fail long after it has begun: the place that is not there may be asked for
at any depth of a recursion, with trees half taken apart.  All it had made is given back
then, and `fares` says so in terms of the books: what was held is held, and nothing else is.
This settles which places are live and what is in them, as soon as nothing waits to be taken
back: two stores in which the same trees are held, and nothing is retired, have the same
cells and the same counts at all slots (`Sound.agree`).  They may differ in the order in
which slots will be handed out, and in how many have been.
-/
import SharedForest.Proofs.Leaks
import SharedForest.Proofs.Request
import SharedForest.Proofs.Persistence

set_option autoImplicit false

namespace SharedForest

open Store Alarmed

variable {γ K Q V T : Type}

namespace Store

variable {ν : Type} {s s' : Store ν} {c c' : Config} {F : Multiset (Placed ν)}

/-- The held trees tell what is live, and what is in it. -/
theorem Sound.cell?_eq (h : s.Sound c F) (h' : s'.Sound c' F) (hr : s.retired.toList = [])
    (hr' : s'.retired.toList = []) (i : Nat) : s'.cell? i = s.cell? i := by
  by_cases hi : s.contains i
  · obtain ⟨p, hp, hmem⟩ := (h.contains_iff_mem_slots hr).1 hi
    exact cell?_eq_of_unfolds (h.unfolds hp) (h'.unfolds hp) i hmem
  · have hi' : ¬ s'.contains i := by
      rw [h'.contains_iff_mem_slots hr', ← h.contains_iff_mem_slots hr]
      exact hi
    rw [contains, Bool.not_eq_true, Option.isSome_eq_false_iff, Option.isNone_iff_eq_none] at hi hi'
    rw [hi, hi']

/-- Where the same trees are held and nothing is retired, cells and counts are the same. -/
theorem Sound.agree (h : s.Sound c F) (h' : s'.Sound c' F) (hr : s.retired.toList = [])
    (hr' : s'.retired.toList = []) (i : Nat) :
    s'.cell? i = s.cell? i ∧ s'.refs i = s.refs i := by
  have hcell := h.cell?_eq h' hr hr'
  -- How many slots were ever handed out does not matter, as the others have no links.
  have hlinks : s'.linksTo i = s.linksTo i := by
    rcases Nat.le_total s.fresh s'.fresh with hle | hle
    · exact linksTo_of_fresh_le h.stocked.unused hcell hle i
    · exact (linksTo_of_fresh_le h'.stocked.unused (fun j => (hcell j).symm) hle i).symm
  refine ⟨hcell i, UInt32.toNat_inj.1 ?_⟩
  rw [h'.counted.refs_eq, h.counted.refs_eq, hlinks]

end Store

namespace Forest

/-- Whatever was done to `f` has come to nothing, as far as can be told from `handles`, from the
registry and from the places that are in use. -/
structure Undone (handles : List Snapshot) (c : Config) (f f' : Forest K V T) : Prop where
  id : f'.id = f.id
  augment : f'.augment = f.augment
  registry : f'.registry = f.registry
  derived : f'.derived = f.derived
  /-- Every handle shows what it showed, slot for slot. -/
  shown : ∀ t ∈ handles, t.forest = f.id → ∃ p : Placed (Node K V T), p.root = t.root ∧
    f.store.Unfolds p ∧ f'.store.Unfolds p ∧ ∀ i ∈ p.slots, f'.store.cell? i = f.store.cell? i
  immediate : c.reclamation = .immediate →
    ∀ i, f'.store.cell? i = f.store.cell? i ∧ f'.store.refs i = f.store.refs i
  /-- Once all that waits has been taken back on both sides, places and counts are the same. -/
  collected : ∃ k k' g g', collect f = .ok k g ∧ collect f' = .ok k' g' ∧
    ∀ i, g'.store.cell? i = g.store.cell? i ∧ g'.store.refs i = g.store.refs i

variable {c : Config} {F : Multiset (Placed (Node K V T))} {H O : Multiset Snapshot}
  {f f' : Forest K V T} {t : Snapshot} {p : Placed (Node K V T)} {handles : List Snapshot}

theorem undone_of_holds (hF : F.map Tree.root = H.map Snapshot.root) (h : f.store.Sound c F)
    (hH : ∀ t ∈ handles, t.forest = f.id → t ∈ H) (hholds : f.Holds c F f')
    (hderived : f'.derived = f.derived) : Undone handles c f f' := by
  refine ⟨hholds.id, hholds.augment, hholds.registry, hderived, ?_, ?_, ?_⟩
  · intro t ht hown
    obtain ⟨p, hp, hroot⟩ := exists_tree hF (hH t ht hown)
    have hunf := h.unfolds hp
    have hunf' := hholds.sound.unfolds hp
    exact ⟨p, hroot.symm, hunf, hunf', cell?_eq_of_unfolds hunf hunf'⟩
  · intro hpolicy
    -- What is given up at once never waits.
    have hempty : ∀ g : Forest K V T, g.store.Sound c F → g.store.retired.toList = [] := by
      intro g hg
      have hbacklog := hg.backlog
      rwa [Backlog, hg.stocked.policy, hpolicy] at hbacklog
    exact h.agree hholds.sound (hempty f h) (hempty f' hholds.sound)
  · obtain ⟨k, g, hrun, hg, hretired⟩ := collect_spec h
    obtain ⟨k', g', hrun', hg', hretired'⟩ := collect_spec hholds.sound
    exact ⟨k, k', g, g', hrun, hrun', hg.sound.agree hg'.sound hretired hretired'⟩

/-- Copying a handle that is held never fails. -/
theorem copy_succeeds (h : f.store.Sound c F) (hp : p ∈ F) (ht : t.root = p.root) :
    Ends (copy t f) (fun u f' => u = t ∧ f.Holds c (F + {p}) f') Never := by
  have hshare : Ends (StoreM.share p.root f.store)
      (fun root s' => root = p.root ∧ s'.Sound c (F + {p})) Never := share_held h hp
  rw [copy, ht]
  cases hr : StoreM.share p.root f.store with
  | ok root s' =>
    have hstore : onStore (fun _ => StoreM.share p.root) f = .ok root { f with store := s' } := by
      rw [onStore, hr]
    rw [hr] at hshare
    rw [bind_of_ok hstore]
    exact fun hs => ⟨rfl, rfl, rfl, rfl, (hshare hs).2⟩
  | error e s' =>
    have hstore : onStore (fun _ => StoreM.share p.root) f = .error e { f with store := s' } := by
      rw [onStore, hr]
    rw [hr] at hshare
    rw [bind_of_error hstore]
    exact fun hs => hshare hs

/-- A registration fails only at once, because the snapshot is of another forest. -/
theorem register_ends (h : f.Tended c (fun _ => True) O) (ht : t.forest = f.id → t ∈ f.held O) :
    Ends (register t f) (fun _ _ => t.forest = f.id)
      fun e f' => e = .refused .foreignTree ∧ t.forest ≠ f.id ∧ f' = f := by
  have hreq := requireOwn_eq t f
  by_cases hown : t.forest = f.id
  -- A snapshot of its own is held, so it can be copied, and entering the copy always succeeds.
  · rw [if_pos hown] at hreq
    obtain ⟨F, hF, hsound, hall⟩ := h.backs
    obtain ⟨p, hp, hroot⟩ := exists_tree hF (ht hown)
    rw [register, bind_of_ok hreq]
    refine .bind (copy_succeeds hsound hp hroot).sure fun u f₁ h₁ => ?_
    obtain ⟨rfl, hholds⟩ := h₁
    have hadv : Advance f c (fun _ => True) (f.held O) {u} f₁ :=
      advance_of_granted hF hsound hall ⟨hown, p, hroot.symm, rfl, hholds⟩ trivial
    obtain ⟨f', hrun, -, -⟩ := shelve_spec h hown hadv
    rw [bind_of_ok hrun]
    exact .pure hown
  · rw [if_neg hown] at hreq
    rw [register, bind_of_error hreq]
    exact .error ⟨rfl, hown, rfl⟩

/-- Looking a version up never fails. -/
theorem lookup_succeeds (h : f.Tended c (fun _ => True) O) (v : UInt64) :
    Ends (lookup v f) (fun _ _ => True) Never := by
  rw [lookup, bind_get]
  cases hv : f.registry.lookup v with
  | none => exact .pure trivial
  | some t =>
    obtain ⟨F, hF, hsound, -⟩ := h.backs
    obtain ⟨p, hp, hroot⟩ := exists_tree hF (h.mem_of_lookup hv).1
    exact .map ((copy_succeeds hsound hp hroot).weaken fun _ _ _ => trivial)

end Forest

namespace Session

variable {s : Session K V T} {aug : Augment K V T} {cs : List Config} {c : Config}
  {P : NodeTree K V T → Prop} {f : Forest K V T} {n : Nat}

/-- Operands that are among the handles of a session are held. -/
theorem Tidy.posed (h : s.Tidy aug cs P 0) (hf : s.forests[n]? = some f)
    {q : Request K V Q γ Snapshot} (hq : q.Among s.handles n) :
    q.Posed f (s.handles.filter (·.forest = f.id) : List Snapshot) := by
  obtain ⟨c, hc⟩ := h.exists_config hf
  obtain ⟨hid, -, -⟩ := h.tended n f c hf hc
  refine ⟨fun t ht => ?_, fun t ht hown => ?_⟩
  · obtain ⟨hmem, hforest⟩ := hq.host t ht
    rw [hid]
    exact ⟨hforest, by simpa using ⟨hmem, hforest⟩⟩
  · simpa using ⟨hq.guest t ht, hown⟩

/-- In every session that a run reaches, an operation on handles that fails has done nothing. -/
theorem failures_atomic [Ord K] [Ord Q] [KeyView K Q] {aug : Augment K V T}
    {configs : List Config} {sort : List (K × V) → List (K × V)} {s : Session K V T}
    (h : s.Reached Q sort aug configs) {n : Nat} {f : Forest K V T} {c : Config}
    (hf : s.forests[n]? = some f) (hc : configs[n]? = some c) :
    (∀ (q : Request K V Q γ Snapshot) (e : Failure) (f' : Forest K V T), q.Among s.handles n →
      q.run sort f = .error e f' → f'.store.alarms.countHigh = false →
      Forest.Undone s.handles c f f') ∧
    ∀ t ∈ s.handles, ∀ (e : Failure) (f' : Forest K V T), Forest.register t f = .error e f' →
      f'.store.alarms.countHigh = false → Forest.Undone s.handles c f f' := by
  have htidy := h.tidy (closed_true aug)
  obtain ⟨F, hsound, hF⟩ := htidy.exists_sound hf hc
  have hH : ∀ t ∈ s.handles, t.forest = f.id →
      t ∈ ((s.handles.filter (·.forest = f.id) : List Snapshot) : Multiset Snapshot) :=
    fun t ht hown => by simpa using ⟨ht, hown⟩
  constructor
  · intro q e f' hq hrun hquiet
    have hfares : Forest.Fares sort f c F _ q := Forest.fares hF hsound q (htidy.posed hf hq)
    rw [Forest.Fares, hrun] at hfares
    obtain ⟨-, hholds, hderived⟩ := hfares (by simpa [Rung] using hquiet)
    exact Forest.undone_of_holds hF hsound hH hholds hderived
  · intro t ht e f' hrun hquiet
    obtain ⟨hid, -, htended⟩ := htidy.tended n f c hf hc
    have hfails := Forest.register_ends (t := t) htended fun hown => by
      rw [add_zero, htidy.held_eq hf]
      simpa using ⟨ht, hown.trans hid⟩
    rw [hrun] at hfails
    obtain ⟨-, -, rfl⟩ := hfails (by simpa [Rung] using hquiet)
    exact Forest.undone_of_holds hF hsound hH (.refl hsound) rfl

/-- Two versions in a forest that has room for two more nodes. -/
def crowded : Session Nat Int64 Int64 :=
  execAllBy Forest.sortByKey
    [.ofSorted 0 [(1, 10), (3, 30), (5, 50)] "a", (.insert "a" 2 20 "b" : Command Nat Int64)]
    (new .sum [{ maxNodes := 8 }])

/-- An insertion that needs more than that, and takes the two before it fails. -/
theorem failures_atomic_crowded :
    ∃ f f', crowded.forests[0]? = some f ∧
      (.insert ⟨0, some 5, 1⟩ 4 40 : Request Nat Int64 Nat Unit Snapshot).run Forest.sortByKey f
        = .error (.refused (.capacityExceeded 8)) f' ∧
      f'.stats.highWater = 8 ∧ Forest.Undone crowded.handles { maxNodes := 8 } f f' := by
  have hreached : crowded.Reached Nat Forest.sortByKey .sum [{ maxNodes := 8 }] :=
    ⟨by decide +kernel, _, rfl⟩
  obtain ⟨f, hf⟩ := Option.isSome_iff_exists.1
    (show (crowded.forests[0]?).isSome by decide +kernel)
  have hends : (crowded.forests[0]?).all fun f =>
      match (.insert ⟨0, some 5, 1⟩ 4 40 : Request Nat Int64 Nat Unit Snapshot).run
        Forest.sortByKey f with
      | .ok _ _ => false
      | .error e f' => e == .refused (.capacityExceeded 8) && f'.stats.highWater == 8
          && f'.store.alarms.countHigh == false := by
    decide +kernel
  rw [hf, Option.all_some] at hends
  split at hends
  · cases hends
  · rename_i e f' hrun
    simp only [Bool.and_eq_true, beq_iff_eq] at hends
    obtain ⟨⟨rfl, hhigh⟩, hquiet⟩ := hends
    have hamong : (.insert ⟨0, some 5, 1⟩ 4 40 : Request Nat Int64 Nat Unit Snapshot).Among
        crowded.handles 0 := by
      refine ⟨fun t ht => ?_, fun t ht => by cases ht⟩
      obtain rfl : ⟨0, some 5, 1⟩ = t := Option.some.inj ht
      exact ⟨by decide +kernel, rfl⟩
    exact ⟨f, f', hf, hrun, hhigh, (failures_atomic hreached hf rfl).1 _ _ _ hamong hrun hquiet⟩

end Session

end SharedForest

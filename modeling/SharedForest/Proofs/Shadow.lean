/-
The shadow of a session.

A shadow has the places of a session and, at each, the figure of the handle that is held
there; it has no slots, no counts and no options.  `step` is what a command does to a
shadow, written down on its own, with the plain answer in the place of the forest's.  That
sessions follow their shadows is the matter of `Proofs/Following`.  Here is what the steps
commands are made of do to the shadow: to give a handle up is not seen, and to put one under
a name is seen there and nowhere else.

In the middle of a command handles are held that are under no name yet.  What they show is
followed through as well (`Steady`), and for this the middle of a command is taken to be a
session of its own, in which such handles do have names (`exists_settled`).
-/
import SharedForest.Proofs.Alike

set_option autoImplicit false

namespace SharedForest

open Alarmed

variable {γ K Q V T α β δ ω : Type}

/-! ## Shadows -/

/-- What can be seen of a session. -/
@[ext]
structure Shadow (K V T : Type) where
  /-- How many forests there are. -/
  size : Nat
  held : Holder → Option (Figure K V T)
  /-- How many snapshots have been derived in a forest. -/
  derived : Nat → Nat

namespace Shadow

/-- Hold something at a place, or nothing. -/
def hold (h : Shadow K V T) (x : Holder) (g : Option (Figure K V T)) : Shadow K V T :=
  { h with held := fun y => if y = x then g else h.held y }

/-- To hold what is held already changes nothing. -/
theorem hold_same {h : Shadow K V T} {x : Holder} {g : Option (Figure K V T)}
    (hx : h.held x = g) : h.hold x g = h := by
  refine Shadow.ext rfl (funext fun y => ?_) rfl
  show (if y = x then g else h.held y) = h.held y
  split
  · rename_i hy
    rw [hy, hx]
  · rfl

/-- Hold figures under names, one after another. -/
def holdAll : List String → List (Figure K V T) → Shadow K V T → Shadow K V T
  | dest :: dests, g :: gs, h => holdAll dests gs (h.hold (.tree dest) (some g))
  | _, _, h => h

/-- Go on with the figure under a name; where there is none, nothing happens. -/
def withTree (h : Shadow K V T) (name : String) (go : Figure K V T → Shadow K V T) :
    Shadow K V T :=
  match h.held (.tree name) with
  | none => h
  | some g => go g

section

variable [Ord K] [Ord Q] [KeyView K Q] (aug : Augment K V T) (sort : List (K × V) → List (K × V))

/-- Answer a request in forest `home`, and hold the trees of the answer. -/
def make (h : Shadow K V T) (home : Nat) (q : Request K V Q γ (Figure K V T))
    (dests : List String) : Shadow K V T :=
  if home < h.size then
    match q.plain aug sort home (h.derived home) with
    | .error _ => h
    | .ok (r, next) =>
      holdAll dests r.trees { h with derived := fun n => if n = home then next else h.derived n }
  else h

/-- What a command does. -/
def step (h : Shadow K V T) : Command K V Q → Shadow K V T
  | .empty n dest => h.make aug sort n (.empty : Request K V Q Unit _) [dest]
  | .ofSorted n items dest => h.make aug sort n (.ofSorted items : Request K V Q Unit _) [dest]
  | .ofEntries n items dest => h.make aug sort n (.ofEntries items : Request K V Q Unit _) [dest]
  | .insert name k v dest => h.withTree name fun g =>
    h.make aug sort g.forest (.insert g k v : Request K V Q Unit _) [dest]
  | .remove name key dest => h.withTree name fun g =>
    h.make aug sort g.forest (.remove g key : Request K V Q Unit _) [dest]
  | .tryRemove name key dest => h.withTree name fun g =>
    h.make aug sort g.forest (.tryRemove g key : Request K V Q Unit _) [dest]
  | .split name key below above => h.withTree name fun g =>
    h.make aug sort g.forest (.split g key : Request K V Q Unit _) [below, above]
  | .join left k v right dest => h.withTree left fun l => h.withTree right fun r =>
    h.make aug sort l.forest (.join l k v r : Request K V Q Unit _) [dest]
  | .concat left right dest => h.withTree left fun l => h.withTree right fun r =>
    h.make aug sort l.forest (.concat l r : Request K V Q Unit _) [dest]
  | .union ours theirs merge dest => h.withTree ours fun a => h.withTree theirs fun b =>
    h.make aug sort a.forest (.union a b (recordCalls merge) [] : Request K V Q _ _) [dest]
  | .copy name dest => h.withTree name fun g =>
    h.make aug sort g.forest (.copy g : Request K V Q Unit _) [dest]
  | .drop name => h.hold (.tree name) none
  | .intoWalk name dest => h.withTree name fun g =>
    (h.hold (.tree name) none).hold (.walk dest) (some g)
  | .pull _ _ => h
  | .dropWalk name => h.hold (.walk name) none
  | .register n name => h.withTree name fun g =>
    if g.forest = n then h.hold (.registered n g.version) (some g) else h
  | .lookup n v dest =>
    match h.held (.registered n v) with
    | none => h
    | some g => h.hold (.tree dest) (some g)
  | .unregister n v dest =>
    match h.held (.registered n v) with
    | none => h
    | some g => dest.elim (h.hold (.registered n v) none) fun dest =>
      (h.hold (.registered n v) none).hold (.tree dest) (some g)
  | .collect _ => h

end

end Shadow

namespace Reply

variable {τ σ : Type} {g g' : τ → σ} {r : Reply V γ τ}

/-- A map on the trees of an answer acts on each of them. -/
theorem trees_map (g : τ → σ) (r : Reply V γ τ) : (r.map g).trees = r.trees.map g := by
  cases r <;> rfl

/-- Only the trees of an answer tell two such maps apart. -/
theorem map_congr (h : ∀ t ∈ r.trees, g t = g' t) : r.map g = r.map g' := by
  cases r <;> simp_all [trees, map]

end Reply

namespace Forest

variable {part : Forest K V T → δ} [Detached part]

instance leaves_drop (t : Snapshot) : Leaves part (drop t) := Detached.unshare t.root

instance leaves_shelve (t : Snapshot) : Leaves part (shelve t) := by
  constructor
  intro f
  have hregistry : part { f with registry := (enter t f.registry).1 } = part f :=
    Detached.registry f _
  rw [shelve]
  cases (enter t f.registry).2 with
  | none => exact hregistry
  | some old => exact ((leaves_drop old).same _).trans hregistry

instance leaves_register (t : Snapshot) : Leaves part (register t) := by
  unfold register
  infer_instance

instance leaves_lookup (v : UInt64) : Leaves part (lookup v) := by
  refine .bind .get fun f => ?_
  cases f.registry.lookup v with
  | none => exact .pure _
  | some t => exact .map

instance leaves_unregister (v : UInt64) : Leaves part (unregister v) := by
  constructor
  intro f
  rw [unregister]
  cases f.registry.lookup v with
  | none => rfl
  | some t => exact Detached.registry f _

instance leaves_collect : Leaves part collect := Detached.collect

end Forest

/-- There was no place left. -/
def Trouble.exceeds : Trouble → Bool
  | .failed e => e.exceeds
  | _ => false

/-- A promise about the contents of a store was broken. -/
def Trouble.IsFault : Trouble → Prop
  | .failed (.fault _) => True
  | _ => False

namespace Session

/-- What a handle shows. -/
def figure (s : Session K V T) (t : Snapshot) : Figure K V T :=
  ⟨t.forest, t.version,
    ((s.forests[t.forest]?).map fun f => f.store.treeAt t.root).getD .absent⟩

/-- How many snapshots have been derived in a forest. -/
def derivedIn (s : Session K V T) (n : Nat) : Nat := ((s.forests[n]?).map (·.derived)).getD 0

/-- The shadow of a session. -/
def shadow (s : Session K V T) : Shadow K V T :=
  ⟨s.forests.size, fun x => (s.holding x).map s.figure, s.derivedIn⟩

variable {aug : Augment K V T} {cs : List Config} {c : Config} {P : NodeTree K V T → Prop}
  {s₀ s s₁ s' : Session K V T} {L L' : Multiset Snapshot} {t u : Snapshot} {n : Nat}
  {f f' : Forest K V T} {name dest : String} {x : Holder} {p : Placed (Node K V T)}

/-! ## Figures and counts in a session -/

/-- The figure of a handle is read in its own forest. -/
theorem figure_of_forest (hf : s.forests[t.forest]? = some f) : s.figure t = f.figure t := by
  rw [figure, hf]
  rfl

/-- A handle that shows a tree has that tree for its figure. -/
theorem figure_of_shows (h : s.Tidy aug cs P L) (hp : s.Shows t p) :
    s.figure t = ⟨t.forest, t.version, p.bare⟩ := by
  obtain ⟨f, hf, hroot, hunf⟩ := hp
  obtain ⟨c, hc⟩ := h.exists_config hf
  obtain ⟨-, -, htended⟩ := h.tended t.forest f c hf hc
  obtain ⟨F, -, hsound, -⟩ := htended.backs
  rw [figure_of_forest hf, Forest.figure_eq hsound hunf hroot]

/-- Figures are read from the forests alone. -/
theorem figure_congr (h : s'.forests = s.forests) : s'.figure = s.figure := by
  funext t
  rw [figure, figure, h]

/-- A change to one forest changes the number of snapshots derived there and nowhere else. -/
theorem derivedIn_set (hf : s.forests[n]? = some f) (f' : Forest K V T) :
    derivedIn { s with forests := s.forests.setIfInBounds n f' }
      = fun m => if m = n then f'.derived else s.derivedIn m := by
  have hn : n < s.forests.size := (Array.getElem?_eq_some_iff.1 hf).1
  funext m
  rw [derivedIn]
  by_cases hmn : m = n
  · rw [if_pos hmn, hmn, Array.getElem?_setIfInBounds_self_of_lt hn]
    rfl
  · rw [if_neg hmn, Array.getElem?_setIfInBounds_ne (Ne.symm hmn)]
    rfl

theorem derivedIn_of_forest (hf : s.forests[n]? = some f) : s.derivedIn n = f.derived := by
  rw [derivedIn, hf]
  rfl

theorem derivedIn_set_of_eq (hf : s.forests[n]? = some f) (hderived : f'.derived = f.derived) :
    derivedIn { s with forests := s.forests.setIfInBounds n f' } = s.derivedIn := by
  rw [derivedIn_set hf, hderived, ← derivedIn_of_forest hf]
  funext m
  split
  · rename_i hm
    rw [hm]
  · rfl

/-! ## What commands leave alone -/

section

variable {view : Session K V T → ω}

instance leaves_onView (n : Nat) (look : Forest K V T → Except Fault α) :
    Leaves view (onView n look) := by
  constructor
  intro s
  unfold onView
  split
  · rfl
  · split <;> rfl

instance leaves_tree (name : String) : Leaves view (tree name) := by
  refine .bind .get fun s => ?_
  cases s.trees.get? name with
  | none => exact .throw _
  | some t => exact .pure _

instance leaves_walk (name : String) : Leaves view (walk name) := by
  refine .bind .get fun s => ?_
  cases s.walks.get? name with
  | none => exact .throw _
  | some w => exact .pure _

end

/-- A part of each forest. -/
def across (part : Forest K V T → ω) (s : Session K V T) (n : Nat) : Option ω :=
  (s.forests[n]?).map part

section

variable {part : Forest K V T → ω}

theorem across_set_of_eq (hf : s.forests[n]? = some f) (hpart : part f' = part f) :
    across part { s with forests := s.forests.setIfInBounds n f' } = across part s := by
  have hn : n < s.forests.size := (Array.getElem?_eq_some_iff.1 hf).1
  funext m
  rw [across, across]
  by_cases hmn : m = n
  · rw [hmn, Array.getElem?_setIfInBounds_self_of_lt hn, hf, Option.map_some, Option.map_some, hpart]
  · rw [Array.getElem?_setIfInBounds_ne (Ne.symm hmn)]

/-- A session is heard across its forests. -/
theorem rung_of_across (h : across Rung s' = across Rung s) (hrung : Rung s') : Rung s := by
  obtain ⟨f', hf', hrung⟩ := hrung
  obtain ⟨n, hn⟩ := Array.mem_iff_getElem?.1 hf'
  have hpart := congrFun h n
  rw [across, across, hn, Option.map_some] at hpart
  obtain ⟨f, hf, hsame⟩ := Option.map_eq_some_iff.1 hpart.symm
  exact ⟨f, Array.mem_of_getElem? hf, hsame ▸ hrung⟩

instance leaves_onForest {m : ForestM K V T α} [h : Leaves part m] :
    Leaves (across part) (onForest n m) := by
  constructor
  intro s
  rw [onForest]
  cases hf : s.forests[n]? with
  | none => rfl
  | some f =>
    have hsame := h.same f
    dsimp only
    cases hr : m f with
    | ok a f' =>
      rw [hr] at hsame
      exact across_set_of_eq hf hsame
    | error e f' =>
      rw [hr] at hsame
      exact across_set_of_eq hf hsame

variable [∀ t, Leaves part (Forest.drop t)]

instance leaves_discard (t : Snapshot) : Leaves (across part) (discard t) := leaves_onForest

instance leaves_keep (name : String) (t : Snapshot) : Leaves (across part) (keep name t) := by
  refine .bind .get fun s => .bind (.modify fun _ => rfl) fun _ => ?_
  cases s.trees.get? name with
  | none => exact .pure _
  | some old => exact leaves_discard old

instance leaves_store (note : Forest K V T → Snapshot → Except Fault δ) (dest : String)
    (t : Snapshot) : Leaves (across part) (store note dest t) := by
  unfold store
  infer_instance

end

instance leaves_derivedIn {m : SessionM K V T α} [h : Leaves (across Forest.derived) m] :
    Leaves derivedIn m := h.comp fun count n => (count n).getD 0

/-! ## What handles show in the middle of a command -/

/-- What is held in both sessions shows the same there. -/
def Steady (s : Session K V T) (L : Multiset Snapshot) (s' : Session K V T)
    (L' : Multiset Snapshot) : Prop :=
  ∀ t, s.Has L t → s'.Has L' t → s'.figure t = s.figure t

/-- Whatever else happens to a session, as long as the forests are left alone. -/
theorem steady_of_forests (h : s'.forests = s.forests) : Steady s L s' L' :=
  fun _ _ _ => by rw [figure_congr h]

/-- A session like this one, in which handles that are under no name yet have names. -/
theorem exists_settled (h : s.Tidy aug cs P L) :
    ∃ s₀ : Session K V T, s₀.forests = s.forests ∧ (∀ t, s.Has L t → s₀.Has 0 t) ∧
      Went aug cs P s₀ L s := by
  set s₀ : Session K V T :=
    { s with trees := ⟨s.trees.pairs ++ L.toList.map fun t => ("", t)⟩ } with hs₀
  have hnamed : s₀.named + 0 = s.named + L := by
    have hall : (s₀.trees.all : Multiset Snapshot) = (s.trees.all : Multiset Snapshot) + L := by
      rw [hs₀, Names.all, Names.all, List.map_append, List.map_map, ← Multiset.coe_add]
      congr 1
      exact (congrArg _ (List.map_id _)).trans (Multiset.coe_toList L)
    rw [add_zero, named, named, hall]
    abel
  refine ⟨s₀, rfl, fun t ht => ?_, h, fun t p _ _ hp => hp⟩
  obtain ⟨f, hf, hmem⟩ := ht
  exact ⟨f, hf, by rwa [hnamed]⟩

/-- What is gone on to from a session that holds the same handles keeps their figures. -/
theorem steady_of_went (h : s.Tidy aug cs P L) (hforests : s₀.forests = s.forests)
    (hhas : ∀ t, s.Has L t → s₀.Has 0 t) (hwent : Went aug cs P s₀ L' s') : Steady s L s' L' := by
  intro t ht ht'
  obtain ⟨p, hp, -⟩ := h.exists_shown ht
  have hp₀ : s₀.Shows t p := by rwa [Shows, hforests]
  rw [figure_of_shows h hp, figure_of_shows hwent.tidy (hwent.kept t p (hhas t ht) ht' hp₀)]

/-- In particular what is gone on to from the session itself. -/
theorem Went.steady (h : s.Tidy aug cs P 0) (hwent : Went aug cs P s L s') : Steady s 0 s' L :=
  steady_of_went h rfl (fun _ ht => ht) hwent

/-- Everything is held where it was, but at one place. -/
theorem shadow_hold (h : s.Tidy aug cs P L) (h' : s'.Tidy aug cs P L') (hsteady : Steady s L s' L')
    (hderived : s'.derivedIn = s.derivedIn) {o : Option Snapshot} (ho : ∀ t ∈ o, s.Has L t)
    (hheld : ∀ y, s'.holding y = if y = x then o else s.holding y) :
    s'.shadow = s.shadow.hold x (o.map s.figure) := by
  have hfigure : ∀ y t, s'.holding y = some t → s.Has L t → s'.figure t = s.figure t :=
    fun y t ht hhas => hsteady t hhas (has_of_holding h' ht)
  refine Shadow.ext (h'.size.trans h.size.symm) (funext fun y => ?_) hderived
  show (s'.holding y).map s'.figure = if y = x then o.map s.figure else (s.holding y).map s.figure
  by_cases hy : y = x
  · have hyo : s'.holding y = o := by rw [hheld, if_pos hy]
    rw [if_pos hy, hyo]
    cases o with
    | none => rfl
    | some t => exact congrArg some (hfigure y t hyo (ho t rfl))
  · have hys : s'.holding y = s.holding y := by rw [hheld, if_neg hy]
    rw [if_neg hy, hys]
    cases ht : s.holding y with
    | none => rfl
    | some t => exact congrArg some (hfigure y t (hys.trans ht) (has_of_holding h ht))

/-- Everything is held where it was. -/
theorem held_same (h : s.Tidy aug cs P L) (h' : s'.Tidy aug cs P L') (hsteady : Steady s L s' L')
    (hheld : ∀ y, s'.holding y = s.holding y) : s'.shadow.held = s.shadow.held := by
  funext y
  show (s'.holding y).map s'.figure = (s.holding y).map s.figure
  rw [hheld]
  cases ht : s.holding y with
  | none => rfl
  | some t =>
    refine congrArg some (hsteady t (has_of_holding h ht) (has_of_holding h' (x := y) ?_))
    rw [hheld, ht]

/-- A step that keeps figures, counts and holdings is not seen. -/
theorem shadow_same (h : s.Tidy aug cs P L) (h' : s'.Tidy aug cs P L') (hsteady : Steady s L s' L')
    (hderived : s'.derivedIn = s.derivedIn) (hheld : ∀ y, s'.holding y = s.holding y) :
    s'.shadow = s.shadow :=
  Shadow.ext (h'.size.trans h.size.symm) (held_same h h' hsteady hheld) hderived

/-- Giving up a handle that is under no name is not seen. -/
theorem discard_shadow (h : s.Tidy aug cs P (L + {t})) :
    ∃ s', discard t s = .ok () s' ∧ s'.Tidy aug cs P L ∧ s'.shadow = s.shadow := by
  obtain ⟨s₀, hforests, hhas, hwent⟩ := exists_settled h
  obtain ⟨s', hrun, hwent', htrees, hwalks, hshelf⟩ := discard_spec hwent
  exact ⟨s', hrun, hwent'.tidy, shadow_same h hwent'.tidy
    (steady_of_went h hforests hhas hwent') (Leaves.of_ok derivedIn hrun)
    (holding_congr htrees hwalks hshelf)⟩

/-- A handle that is put under a name is seen there. -/
theorem store_shadow (h : s.Tidy aug cs P (L + {t})) (dest : String) :
    ∃ s', store (fun _ _ => .ok ()) dest t s = .ok () s' ∧ s'.Tidy aug cs P L ∧
      Steady s (L + {t}) s' L ∧ s'.shadow = s.shadow.hold (.tree dest) (some (s.figure t)) := by
  obtain ⟨s₀, hforests, hhas, hwent⟩ := exists_settled h
  obtain ⟨s', hrun, hwent', htrees, hwalks, hshelf⟩ := store_spec hwent dest
  have hsteady := steady_of_went h hforests hhas hwent'
  refine ⟨s', hrun, hwent'.tidy, hsteady, shadow_hold (o := some t) h hwent'.tidy hsteady
    (Leaves.of_ok derivedIn hrun) ?_ (holding_store htrees hwalks hshelf)⟩
  rintro u hu
  obtain rfl := Option.some.inj hu
  exact has_of_mem h (by simp)

/-- Keep snapshots under names, one after another. -/
def storeAll : List String → List Snapshot → SessionM K V T Unit
  | dest :: dests, t :: ts => do
    store (fun _ _ => .ok ()) dest t
    storeAll dests ts
  | _, _ => pure ()

instance leaves_storeAll {part : Forest K V T → ω} [Forest.Detached part] (dests : List String)
    (ts : List Snapshot) : Leaves (across part) (storeAll dests ts) := by
  induction ts generalizing dests with
  | nil => cases dests <;> exact .pure _
  | cons t ts ih =>
    cases dests with
    | nil => exact .pure _
    | cons dest dests =>
      unfold storeAll
      infer_instance

/-- To store handles under names is to hold their figures there. -/
theorem storeAll_shadow {dests : List String} {ts : List Snapshot}
    (h : s.Tidy aug cs P (ts : Multiset Snapshot)) (hlen : dests.length = ts.length) :
    ∃ s', storeAll dests ts s = .ok () s' ∧
      s'.shadow = s.shadow.holdAll dests (ts.map s.figure) := by
  induction ts generalizing s dests with
  | nil =>
    obtain rfl := List.length_eq_zero_iff.1 hlen
    exact ⟨s, rfl, rfl⟩
  | cons t ts ih =>
    obtain ⟨dest, dests, rfl⟩ := List.exists_cons_of_length_eq_add_one hlen
    have hsplit : ((t :: ts : List Snapshot) : Multiset Snapshot)
        = (ts : Multiset Snapshot) + {t} := by
      rw [add_comm, Multiset.singleton_add, Multiset.cons_coe]
    rw [hsplit] at h
    obtain ⟨s₁, hrun, h₁, hsteady, hshadow⟩ := store_shadow h dest
    obtain ⟨s', hrun', hshadow'⟩ := ih h₁ (by simpa using hlen)
    -- Those still to be stored are held on both sides of the first step.
    have hmap : ts.map s₁.figure = ts.map s.figure := by
      refine List.map_congr_left fun u hu => hsteady u (has_of_mem h ?_) (has_of_mem h₁ ?_)
      · exact Multiset.mem_add.2 (.inr (Multiset.mem_add.2 (.inl (Multiset.mem_coe.2 hu))))
      · exact Multiset.mem_add.2 (.inr (Multiset.mem_coe.2 hu))
    refine ⟨s', ?_, ?_⟩
    · rw [storeAll, bind_of_ok hrun, hrun']
    · rw [hshadow', hshadow, hmap]
      rfl

end Session

end SharedForest

/-
Runs of a session.

One command after another, whatever their outcomes: every session that a run reaches is
tidy, because the first one is and every command keeps it so (`exec_spec`).  That is all
there is to invariants of a run, and the property `P` of trees is carried along with it.

Of a single handle more can be said, namely where it is.  A `Holder` is a place where a
handle can be held, and `follow` tells where the handle at a place is after a command
has succeeded, if it has not been given up: most of them stay, one that is turned into a
walk or taken out of a registry moves, and one whose name is taken is gone.  A command
that fails moves nothing and gives nothing up.
-/
import SharedForest.Proofs.Roster
import SharedForest.Augment.Standard

set_option autoImplicit false

namespace SharedForest

open Alarmed

variable {γ K Q V T α β ω : Type}

/-- A place where a handle can be held. -/
inductive Holder where
  | tree (name : String)
  | walk (name : String)
  | registered (forest : Nat) (version : UInt64)
deriving DecidableEq

namespace Session

/-- The handle at a place. -/
def holding (s : Session K V T) : Holder → Option Snapshot
  | .tree name => s.trees.get? name
  | .walk name => (s.walks.get? name).map (·.tree)
  | .registered n v => (s.shelf n).lookup v

/-- Everything stays where it is but what is at `x`. -/
def spare (x h : Holder) : Option Holder := if h = x then none else some h

/-- Where the handle at `h` is after the command has succeeded, if it has not been given up. -/
def follow (s : Session K V T) (c : Command K V Q) (h : Holder) : Option Holder :=
  match c with
  | .empty _ dest => spare (.tree dest) h
  | .ofSorted _ _ dest => spare (.tree dest) h
  | .ofEntries _ _ dest => spare (.tree dest) h
  | .insert _ _ _ dest => spare (.tree dest) h
  | .remove _ _ dest => spare (.tree dest) h
  | .tryRemove _ _ dest => spare (.tree dest) h
  | .split _ _ below above => (spare (.tree below) h).bind (spare (.tree above))
  | .join _ _ _ _ dest => spare (.tree dest) h
  | .concat _ _ dest => spare (.tree dest) h
  | .union _ _ _ dest => spare (.tree dest) h
  | .copy _ dest => spare (.tree dest) h
  | .drop name => spare (.tree name) h
  | .intoWalk name dest => if h = .tree name then some (.walk dest) else spare (.walk dest) h
  | .pull _ _ => some h
  | .dropWalk name => spare (.walk name) h
  | .register n name =>
    -- A copy of the named tree takes the place of what was registered under its version.
    if h = .registered n (((s.trees.get? name).map (·.version)).getD 0)
        ∧ s.holding h ≠ s.trees.get? name then none
    else some h
  | .lookup n v dest => if (s.holding (.registered n v)).isSome then spare (.tree dest) h else some h
  | .unregister n v dest =>
    if h = .registered n v then dest.map .tree
    else if (s.holding (.registered n v)).isSome then
      dest.elim (some h) fun dest => spare (.tree dest) h
    else some h
  | .collect _ => some h

/-- After a command: the session is tidy, and handles are where `go` says. -/
structure After (aug : Augment K V T) (cs : List Config) (P : NodeTree K V T → Prop)
    (s : Session K V T) (go : Holder → Option Holder) (s' : Session K V T) : Prop where
  went : Went aug cs P s 0 s'
  tracks : ∀ h h' t, go h = some h' → s.holding h = some t → s'.holding h' = some t

/-- A step on the way: handles have been made, and everything else is where it was. -/
structure Made (aug : Augment K V T) (cs : List Config) (P : NodeTree K V T → Prop)
    (s : Session K V T) (L : Multiset Snapshot) (s' : Session K V T) : Prop where
  went : Went aug cs P s L s'
  trees : s'.trees = s.trees
  walks : s'.walks = s.walks
  shelf : s'.shelf = s.shelf

variable {aug : Augment K V T} {cs : List Config} {c : Config} {P : NodeTree K V T → Prop}
  {s s₁ s' : Session K V T} {L : Multiset Snapshot} {t : Snapshot} {n : Nat}
  {go : Holder → Option Holder} {name dest : String}

/-- What is held at a place is what stands there under its name. -/
theorem holding_eq {h : Holder}
    (htrees : ∀ name, h = .tree name → s'.trees.get? name = s.trees.get? name)
    (hwalks : ∀ name, h = .walk name → s'.walks.get? name = s.walks.get? name)
    (hshelf : ∀ n v, h = .registered n v → (s'.shelf n).lookup v = (s.shelf n).lookup v) :
    s'.holding h = s.holding h := by
  cases h with
  | tree name => exact htrees name rfl
  | walk name => exact congrArg (Option.map Walk.tree) (hwalks name rfl)
  | registered n v => exact hshelf n v rfl

/-- What is held at a place is told by the names, the walks and the registries. -/
theorem holding_congr (htrees : s'.trees = s.trees) (hwalks : s'.walks = s.walks)
    (hshelf : s'.shelf = s.shelf) (h : Holder) : s'.holding h = s.holding h := by
  apply holding_eq
  · rw [htrees]
    exact fun _ _ => rfl
  · rw [hwalks]
    exact fun _ _ => rfl
  · rw [hshelf]
    exact fun _ _ _ => rfl

/-- Putting a tree under a name disturbs that name only. -/
theorem holding_put (htrees : s'.trees = s.trees.put dest t) (hwalks : s'.walks = s.walks)
    (hshelf : s'.shelf = s.shelf) {h : Holder} (hne : h ≠ .tree dest) :
    s'.holding h = s.holding h := by
  apply holding_eq
  · rintro name rfl
    have hname : name ≠ dest := fun heq => hne (heq ▸ rfl)
    rw [htrees, Names.get?_put_other _ _ hname]
  · rw [hwalks]
    exact fun _ _ => rfl
  · rw [hshelf]
    exact fun _ _ _ => rfl

/-- After a tree has been put under a name it is there, and nothing else has moved. -/
theorem holding_store (htrees : s'.trees = s.trees.put dest t) (hwalks : s'.walks = s.walks)
    (hshelf : s'.shelf = s.shelf) (h : Holder) :
    s'.holding h = if h = .tree dest then some t else s.holding h := by
  split
  · rename_i hdest
    rw [hdest, holding, htrees, Names.get?_put_self]
  · rename_i hdest
    exact holding_put htrees hwalks hshelf hdest

/-- What stays does not move. -/
theorem eq_of_spare {x h h' : Holder} (hgo : spare x h = some h') : h' = h ∧ h ≠ x := by
  rw [spare] at hgo
  split at hgo
  · cases hgo
  · rename_i hne
    exact ⟨(Option.some.inj hgo).symm, hne⟩

/-- Nothing has happened. -/
theorem After.refl (h : s.Tidy aug cs P 0) : After aug cs P s some s :=
  ⟨.refl h, fun _ _ _ hgo ht => Option.some.inj hgo ▸ ht⟩

/-- Nothing that is made is left, so the command is done. -/
theorem Made.after (h : Made aug cs P s 0 s') : After aug cs P s some s' := by
  refine ⟨h.went, fun x x' t hgo ht => ?_⟩
  obtain rfl := Option.some.inj hgo
  rw [holding_congr h.trees h.walks h.shelf]
  exact ht

/-- It is enough to follow the places where something was held. -/
theorem After.mono {go' : Holder → Option Holder} (h : After aug cs P s go s')
    (hgo : ∀ x x', go' x = some x' → s.holding x ≠ none → go x = some x') :
    After aug cs P s go' s' :=
  ⟨h.went, fun x x' t hx ht => h.tracks x x' t (hgo x x' hx (by rw [ht]; simp)) ht⟩

/-! ## The steps of a command -/

/-- A tree under a name is held. -/
theorem mem_named_of_tree (ht : s.trees.get? name = some t) : t ∈ s.named := by
  obtain ⟨l, r, hpairs, -⟩ := List.lookup_eq_some_iff.1 ht
  refine Multiset.mem_add.2 (.inl (Multiset.mem_coe.2 ?_))
  rw [Names.all, hpairs]
  simp

/-- So is the tree that a walk goes through. -/
theorem mem_named_of_walk {w : Walk} (hw : s.walks.get? name = some w) : w.tree ∈ s.named := by
  obtain ⟨l, r, hpairs, -⟩ := List.lookup_eq_some_iff.1 hw
  refine Multiset.mem_add.2 (.inr (Multiset.mem_coe.2 ?_))
  rw [Names.all, hpairs]
  simp

/-- A tree that is needed by name. -/
theorem tree_spec (h : s.Tidy aug cs P 0) (name : String) :
    Ends (tree name s) (fun t s' => s = s' ∧ s.trees.get? name = some t)
      (fun _ s' => After aug cs P s some s') := by
  rw [tree, bind_get]
  cases ht : s.trees.get? name with
  | some t => exact .pure ⟨rfl, rfl⟩
  | none => exact .error (.refl h)

/-- An operation that makes handles and leaves the registry alone. -/
theorem made_spec {m : ForestM K V T α} {L : α → Multiset Snapshot} {R : α → Prop}
    (h : s.Tidy aug cs P 0)
    (hm : ∀ (f : Forest K V T) c, f.id = n → f.augment = aug → f.Tended c P s.named →
      Ends (m f) (fun a f' => R a ∧ f.Advance c P (f.held s.named) (L a) f')
        (fun _ f' => f.Advance c P (f.held s.named) 0 f')) :
    Ends (onForest n m s) (fun a s' => R a ∧ Made aug cs P s (L a) s')
      (fun _ s' => After aug cs P s some s') := by
  refine (onForest_spec (L := L) (X := fun a f f' => R a ∧ f'.registry = f.registry)
    (Y := fun f f' => f'.registry = f.registry) h ?_).mono ?_ ?_
  · intro f c _ hid haug htended
    refine (hm f c hid haug htended).mono ?_ ?_
    · rintro a f' ⟨hR, hadv⟩
      exact ⟨hadv.own, htended.onward hadv, hR, hadv.registry⟩
    · intro e f' hadv
      exact ⟨htended.onward_zero hadv, hadv.registry⟩
  · rintro a s' ⟨f, f', hf, ⟨hR, hreg⟩, rfl, hwent⟩
    exact ⟨hR, hwent, rfl, rfl, shelf_set_of_eq hf hreg⟩
  · rintro e s' ⟨rfl | ⟨f, f', hf, hreg, rfl⟩, hwent⟩
    · exact .refl h
    · exact Made.after ⟨hwent, rfl, rfl, shelf_set_of_eq hf hreg⟩

/-- The last step of most commands. -/
theorem stored_spec {E : Trouble → Session K V T → Prop} (h : Made aug cs P s {t} s₁)
    (dest : String) (g : Unit → β) :
    Ends ((store (fun _ _ => .ok ()) dest t >>= fun w => pure (g w) : SessionM K V T β) s₁)
      (fun _ s' => After aug cs P s (spare (.tree dest)) s') E := by
  have hwent := h.went
  rw [← zero_add ({t} : Multiset Snapshot)] at hwent
  obtain ⟨s', hrun, hwent', htrees, hwalks, hshelf⟩ := store_spec hwent dest
  rw [bind_of_ok hrun]
  refine .pure ⟨hwent', fun x x' u hgo hu => ?_⟩
  obtain ⟨rfl, hne⟩ := eq_of_spare hgo
  rw [holding_put (htrees.trans (by rw [h.trees])) (hwalks.trans h.walks)
    (hshelf.trans h.shelf) hne]
  exact hu

/-- Looking changes nothing. -/
theorem onView_spec (h : s.Tidy aug cs P 0)
    (look : Forest K V T → Except Fault α) :
    Ends (onView n look s) (fun _ s' => s = s') (fun _ s' => After aug cs P s some s') := by
  unfold onView
  split
  · exact .error (.refl h)
  · split
    · exact .ok rfl
    · exact .error (.refl h)

/-- A walk that is needed by name. -/
theorem walk_spec (h : s.Tidy aug cs P 0) (name : String) :
    Ends (walk name s) (fun w s' => s = s' ∧ s.walks.get? name = some w)
      (fun _ s' => After aug cs P s some s') := by
  rw [walk, bind_get]
  cases hw : s.walks.get? name with
  | some w => exact .pure ⟨rfl, rfl⟩
  | none => exact .error (.refl h)

/-- The trees of walks, when a walk is put under a name. -/
theorem trees_put (h : s.walks.Distinct) (name : String) (w : Walk) :
    ((s.walks.put name w).all.map (·.tree) : Multiset Snapshot)
        + (((s.walks.get? name).map (·.tree)).toList : Multiset Snapshot)
      = (s.walks.all.map (·.tree) : Multiset Snapshot) + {w.tree} := by
  have hall := congrArg (Multiset.map Walk.tree) (Names.all_put h name w)
  rw [Multiset.map_add, Multiset.map_add, Multiset.map_singleton, Multiset.map_coe,
    Multiset.map_coe, Multiset.map_coe] at hall
  rw [← hall]
  cases s.walks.get? name <;> rfl

/-- A walk that is taken off its name takes its tree along. -/
theorem trees_erase (h : s.walks.Distinct) (name : String) :
    ((s.walks.erase name).all.map (·.tree) : Multiset Snapshot)
        + (((s.walks.get? name).map (·.tree)).toList : Multiset Snapshot)
      = (s.walks.all.map (·.tree) : Multiset Snapshot) := by
  have hall := congrArg (Multiset.map Walk.tree) (Names.all_erase h name)
  rw [Multiset.map_add, Multiset.map_coe, Multiset.map_coe, Multiset.map_coe] at hall
  rw [← hall]
  cases s.walks.get? name <;> rfl

/-- A handle that has gone out of all names is given up. -/
theorem given_up {E : Trouble → Session K V T → Prop} {b : β} (h : Went aug cs P s {t} s₁)
    (hgo : ∀ x x' u, go x = some x' → s.holding x = some u → s₁.holding x' = some u) :
    Ends ((discard t >>= fun _ => pure b : SessionM K V T β) s₁)
      (fun _ s' => After aug cs P s go s') E := by
  rw [← zero_add ({t} : Multiset Snapshot)] at h
  obtain ⟨s', hrun, hwent, htrees, hwalks, hshelf⟩ := discard_spec h
  rw [bind_of_ok hrun]
  refine .pure ⟨hwent, fun x x' u hx hu => ?_⟩
  rw [holding_congr htrees hwalks hshelf]
  exact hgo x x' u hx hu

/-- A registry without the handle that was under a version. -/
theorem holding_unregistered {f f' : Forest K V T} {v : UInt64} (hf : s.forests[n]? = some f)
    (hreg : f'.registry = f.registry.filter (·.1 != v)) {x : Holder}
    (hx : x ≠ .registered n v) :
    holding { s with forests := s.forests.setIfInBounds n f' } x = s.holding x := by
  apply holding_eq
  · exact fun _ _ => rfl
  · exact fun _ _ => rfl
  · rintro m w rfl
    rw [shelf_set hf]
    by_cases hm : m = n
    · subst hm
      have hw : w ≠ v := fun heq => hx (heq ▸ rfl)
      rw [if_pos rfl, hreg, lookup_filter_other hw, shelf_of_forest hf]
    · rw [if_neg hm]

/-- A handle is taken out of a registry, and everything else stays where it is. -/
theorem unregistered_spec (h : s.Tidy aug cs P 0) (n : Nat) (v : UInt64) :
    Ends (onForest n (Forest.unregister v) s)
      (fun u s' => s.holding (.registered n v) = u ∧
        Went aug cs P s (u.toList : Multiset Snapshot) s' ∧
        ∀ x, x ≠ .registered n v → s'.holding x = s.holding x)
      (fun _ s' => After aug cs P s some s') := by
  refine (onForest_spec (L := fun u => (u.toList : Multiset Snapshot))
    (X := fun u f f' => u = f.registry.lookup v ∧ f'.registry = f.registry.filter (·.1 != v))
    (Y := fun _ _ => False) h ?_).mono ?_ ?_
  · intro f c _ hid haug htended
    obtain ⟨f', hrun, hreg, hon⟩ := Forest.unregister_spec v htended
    refine .of_ok hrun fun _ => ⟨fun t ht => ?_, hon, rfl, hreg⟩
    exact (htended.mem_of_lookup (by simpa using ht)).2
  · rintro u s' ⟨f, f', hf, ⟨rfl, hreg⟩, rfl, hwent⟩
    refine ⟨?_, hwent, fun x hx => holding_unregistered hf hreg hx⟩
    rw [holding, shelf_of_forest hf]
  · rintro e s' ⟨rfl | ⟨f, f', hf, hfalse, rfl⟩, -⟩
    · exact .refl h
    · exact hfalse.elim

/-- A tree that goes out of its name. -/
theorem went_erase (h : s.Tidy aug cs P 0) (ht : s.trees.get? name = some t) :
    Went aug cs P s {t} { s with trees := s.trees.erase name } := by
  have hall := Names.all_erase h.trees name
  rw [ht, Option.toList_some, Multiset.coe_singleton] at hall
  refine (Went.refl h).shuffle rfl ?_ (Names.distinct_erase h.trees name) h.walks
  rw [add_zero, named, named, ← hall]
  abel

/-- A walk that goes out of its name. -/
theorem went_eraseWalk {w : Walk} (h : s.Tidy aug cs P 0) (hw : s.walks.get? name = some w) :
    Went aug cs P s {w.tree} { s with walks := s.walks.erase name } := by
  have hall := trees_erase h.walks name
  rw [hw] at hall
  refine (Went.refl h).shuffle rfl ?_ h.trees (Names.distinct_erase h.walks name)
  rw [add_zero, named, named, ← hall, add_assoc]
  rfl

/-- A tree that goes from its name to a walk, and the walk that was there goes out. -/
theorem went_intoWalk (h : s.Tidy aug cs P 0) (ht : s.trees.get? name = some t) (dest : String)
    (position : Traversal) :
    Went aug cs P s (((s.walks.get? dest).map (·.tree)).toList : Multiset Snapshot)
      { s with trees := s.trees.erase name, walks := s.walks.put dest ⟨t, position⟩ } := by
  have htrees := Names.all_erase h.trees name
  have hwalks := trees_put h.walks dest ⟨t, position⟩
  rw [ht, Option.toList_some, Multiset.coe_singleton] at htrees
  refine (Went.refl h).shuffle rfl ?_ (Names.distinct_erase h.trees name)
    (Names.distinct_put h.walks dest _)
  rw [add_zero, named, named, ← htrees, add_assoc, hwalks]
  abel

/-- Erasing the name of a tree leaves every other place as it was. -/
theorem holding_erase {x : Holder} (hx : x ≠ .tree name) :
    holding { s with trees := s.trees.erase name } x = s.holding x := by
  refine holding_eq ?_ (fun _ _ => rfl) fun _ _ _ => rfl
  rintro other rfl
  have hother : other ≠ name := fun heq => hx (heq ▸ rfl)
  exact Names.get?_erase_other _ hother

theorem holding_eraseWalk {x : Holder} (hx : x ≠ .walk name) :
    holding { s with walks := s.walks.erase name } x = s.holding x := by
  refine holding_eq (fun _ _ => rfl) ?_ fun _ _ _ => rfl
  rintro other rfl
  have hother : other ≠ name := fun heq => hx (heq ▸ rfl)
  exact Names.get?_erase_other _ hother

/-- What is held at each place once the name of a tree is erased. -/
theorem holding_erase_eq (x : Holder) :
    holding { s with trees := s.trees.erase name } x
      = if x = .tree name then none else s.holding x := by
  split
  · rename_i hx
    rw [hx]
    exact Names.get?_erase_self _ _
  · rename_i hx
    exact holding_erase hx

theorem holding_eraseWalk_eq (x : Holder) :
    holding { s with walks := s.walks.erase name } x
      = if x = .walk name then none else s.holding x := by
  split
  · rename_i hx
    rw [hx]
    exact congrArg (Option.map Walk.tree) (Names.get?_erase_self _ _)
  · rename_i hx
    exact holding_eraseWalk hx

/-- What is held at each place once a walk is put under a name. -/
theorem holding_putWalk_eq (w : Walk) (x : Holder) :
    holding { s with walks := s.walks.put name w } x
      = if x = .walk name then some w.tree else s.holding x := by
  split
  · rename_i hx
    rw [hx, holding, Names.get?_put_self]
    rfl
  · rename_i hx
    refine holding_eq (fun _ _ => rfl) ?_ fun _ _ _ => rfl
    rintro other rfl
    have hother : other ≠ name := fun heq => hx (heq ▸ rfl)
    exact Names.get?_put_other _ _ hother

/-! ## Commands -/

/-- How the command ends in the session: tidily, and with all handles where they should be. -/
def Obeyed [Ord K] [Ord Q] [KeyView K Q] (aug : Augment K V T) (cs : List Config)
    (P : NodeTree K V T → Prop) (sort : List (K × V) → List (K × V)) (c : Command K V Q)
    (s : Session K V T) : Prop :=
  Ends (execBy sort (fun _ _ => .ok ()) c s) (fun _ s' => After aug cs P s (s.follow c) s')
    (fun _ s' => After aug cs P s some s')

/-- Where handles are once a tree has been turned into a walk. -/
theorem holding_intoWalk {position : Traversal} {x x' : Holder} {u : Snapshot}
    (ht : s.trees.get? name = some t)
    (hgo : s.follow (.intoWalk name dest : Command K V Q) x = some x')
    (hu : s.holding x = some u) :
    holding { s with
      trees := s.trees.erase name, walks := s.walks.put dest ⟨t, position⟩ } x' = some u := by
  rw [follow] at hgo
  by_cases hx : x = .tree name
  · rw [if_pos hx] at hgo
    obtain rfl := Option.some.inj hgo
    rw [hx, holding, ht] at hu
    rw [holding, Names.get?_put_self]
    exact hu
  · rw [if_neg hx] at hgo
    obtain ⟨rfl, hne⟩ := eq_of_spare hgo
    rw [← hu]
    refine holding_eq ?_ ?_ fun _ _ _ => rfl
    · rintro other rfl
      have hother : other ≠ name := fun heq => hx (heq ▸ rfl)
      exact Names.get?_erase_other _ hother
    · rintro other rfl
      have hother : other ≠ dest := fun heq => hne (heq ▸ rfl)
      exact Names.get?_put_other _ _ hother

section

variable [Ord K] [Ord Q] [KeyView K Q] {sort : List (K × V) → List (K × V)}

/-- A handle goes out of its name and is given up; where there is none, nothing happens. -/
theorem obeyed_drop (h : s.Tidy aug cs P 0) (name : String) :
    Obeyed aug cs P sort (.drop name : Command K V Q) s := by
  rw [Obeyed, execBy, bind_get]
  cases ht : s.trees.get? name with
  | none =>
    refine .pure ((After.refl h).mono fun x x' hgo _ => ?_)
    obtain ⟨rfl, -⟩ := eq_of_spare hgo
    rfl
  | some t =>
    dsimp only
    rw [bind_modify]
    refine given_up (went_erase h ht) fun x x' u hgo hu => ?_
    obtain ⟨rfl, hne⟩ := eq_of_spare hgo
    exact (holding_erase hne).trans hu

theorem obeyed_dropWalk (h : s.Tidy aug cs P 0) (name : String) :
    Obeyed aug cs P sort (.dropWalk name : Command K V Q) s := by
  rw [Obeyed, execBy, bind_get]
  cases hw : s.walks.get? name with
  | none =>
    refine .pure ((After.refl h).mono fun x x' hgo _ => ?_)
    obtain ⟨rfl, -⟩ := eq_of_spare hgo
    rfl
  | some w =>
    dsimp only
    rw [bind_modify]
    refine given_up (went_eraseWalk h hw) fun x x' u hgo hu => ?_
    obtain ⟨rfl, hne⟩ := eq_of_spare hgo
    exact (holding_eraseWalk hne).trans hu

/-- The handle moves from the tree's name to the walk's, and what was there before is given up. -/
theorem obeyed_intoWalk (h : s.Tidy aug cs P 0) (name dest : String) :
    Obeyed aug cs P sort (.intoWalk name dest : Command K V Q) s := by
  rw [Obeyed, execBy]
  refine .bind_of_lasting (tree_spec h name) (fun t s₁ h₁ => ?_) fun t => ?_
  · obtain ⟨rfl, ht⟩ := h₁
    refine .bind_of_lasting (onView_spec h _) (fun position s₂ h₂ => ?_) fun position => ?_
    · obtain rfl := h₂
      rw [bind_get, bind_modify]
      have hwent := went_intoWalk h ht dest position
      cases hold : s.walks.get? dest with
      | none =>
        rw [hold] at hwent
        exact .pure ⟨hwent, fun x x' u hgo hu => holding_intoWalk ht hgo hu⟩
      | some old =>
        rw [hold] at hwent
        exact given_up hwent fun x x' u hgo hu => holding_intoWalk ht hgo hu
    · refine .bind .get fun s => .bind (.modify fun _ h => h) fun _ => ?_
      split <;> infer_instance
  · refine .bind (lasting_onView _ _) fun position => .bind .get fun s => ?_
    refine .bind (.modify fun _ h => h) fun _ => ?_
    split <;> infer_instance

/-- The walk goes on, and holds its handle as before. -/
theorem obeyed_pull (h : s.Tidy aug cs P 0) (name : String) (pulls : List Pull) :
    Obeyed aug cs P sort (.pull name pulls : Command K V Q) s := by
  rw [Obeyed, execBy]
  refine .bind_of_lasting (walk_spec h name) (fun w s₁ h₁ => ?_) fun w => ?_
  · obtain ⟨rfl, hw⟩ := h₁
    refine .bind_of_lasting (onView_spec h _) (fun res s₂ h₂ => ?_) fun ⟨ys, position⟩ => ?_
    · obtain rfl := h₂
      obtain ⟨ys, position⟩ := res
      have hall := trees_put h.walks name { w with position }
      rw [hw] at hall
      refine .of_ok (bind_modify _ _ _) fun _ => ⟨(Went.refl h).shuffle rfl ?_ h.trees
        (Names.distinct_put h.walks name _), fun x x' u hgo hu => ?_⟩
      · -- The walk goes on with the same tree.
        have hsame := add_right_cancel hall
        rw [add_zero, add_zero, named, named, ← hsame]
      · obtain rfl := Option.some.inj hgo
        cases x with
        | tree _ => exact hu
        | walk other =>
          by_cases hother : other = name
          · rw [hother, holding, hw] at hu
            rw [hother, holding, Names.get?_put_self]
            exact hu
          · exact (congrArg (Option.map Walk.tree) (Names.get?_put_other _ _ hother)).trans hu
        | registered _ _ => exact hu
    · exact .bind (.modify fun _ h => h) fun _ => .pure _
  · refine .bind (lasting_onView _ _) fun ⟨ys, position⟩ => ?_
    exact .bind (.modify fun _ h => h) fun _ => .pure _

/-- The copy takes the place of what was under its name. -/
theorem obeyed_copy (h : s.Tidy aug cs P 0) (name dest : String) :
    Obeyed aug cs P sort (.copy name dest : Command K V Q) s := by
  rw [Obeyed, execBy]
  refine .bind (tree_spec h name) fun t s₁ h₁ => ?_
  obtain ⟨rfl, ht⟩ := h₁
  refine .bind (made_spec (R := fun _ => True) (L := fun u => {u}) h ?_) fun u s₂ h₂ => ?_
  · intro f c hid haug htended
    have hmem := Forest.mem_held_of_own (mem_named_of_tree ht) hid.symm
    refine (Forest.advance_copy htended.backs hmem hid.symm).weaken ?_
    rintro u f' ⟨rfl, hadv⟩
    exact ⟨trivial, hadv⟩
  · exact stored_spec h₂.2 dest _

/-- What is taken back was held by nobody. -/
theorem obeyed_collect (h : s.Tidy aug cs P 0) (n : Nat) :
    Obeyed aug cs P sort (.collect n : Command K V Q) s := by
  rw [Obeyed, execBy]
  refine .bind (made_spec (R := fun _ => True) (L := fun _ => 0) h ?_) fun u s₂ h₂ => ?_
  · intro f c hid haug htended
    obtain ⟨m, f', hrun, hadv⟩ := Forest.advance_collect htended.backs
    exact .of_ok hrun fun _ => ⟨trivial, hadv⟩
  · exact .pure h₂.2.after

/-- A copy goes to the place of the version in the registry. -/
theorem obeyed_register (h : s.Tidy aug cs P 0) (n : Nat) (name : String) :
    Obeyed aug cs P sort (.register n name : Command K V Q) s := by
  rw [Obeyed, execBy]
  refine .bind (tree_spec h name) fun t s₁ h₁ => ?_
  obtain ⟨rfl, ht⟩ := h₁
  refine .bind ((onForest_spec (L := fun _ => 0)
    (X := fun _ f f' => f'.registry = (Forest.enter t f.registry).1)
    (Y := fun f f' => f'.registry = f.registry) h ?_).mono (fun _ _ hq => hq) ?_) fun v s₂ h₂ => ?_
  · intro f c _ hid haug htended
    refine (Forest.register_spec htended (mem_named_of_tree ht)).mono ?_ ?_
    · rintro v f' ⟨-, hreg, hon⟩
      exact ⟨fun u hu => absurd hu (Multiset.notMem_zero u), by rwa [add_zero], hreg⟩
    · rintro e f' ⟨hreg, hon⟩
      exact ⟨hon, hreg⟩
  · rintro e s' ⟨rfl | ⟨f, f', hf, hreg, rfl⟩, hwent⟩
    · exact .refl h
    · exact Made.after ⟨hwent, rfl, rfl, shelf_set_of_eq hf hreg⟩
  · obtain ⟨f, f', hf, hreg, rfl, hwent⟩ := h₂
    refine .pure ⟨hwent, fun x x' u hgo hu => ?_⟩
    rw [follow] at hgo
    split at hgo
    -- Something else under that version is pushed out, and is not followed any further.
    · cases hgo
    rename_i hstays
    obtain rfl := Option.some.inj hgo
    cases x with
    | tree _ => exact hu
    | walk _ => exact hu
    | registered m w =>
      rw [holding, shelf_set hf]
      by_cases hm : m = n
      · subst hm
        rw [if_pos rfl, hreg, Forest.lookup_enter]
        by_cases hw : w = t.version
        · -- The copy takes the place of a handle like itself.
          rw [if_pos hw]
          have hsame : s.holding (.registered m w) = s.trees.get? name := by
            by_contra hne
            exact hstays ⟨by rw [ht, hw]; rfl, hne⟩
          rw [← hu, hsame, ht]
        · rw [if_neg hw, ← shelf_of_forest hf]
          exact hu
      · rw [if_neg hm]
        exact hu

/-- A copy comes from there; without one the name keeps what it has. -/
theorem obeyed_lookup (h : s.Tidy aug cs P 0) (n : Nat) (v : UInt64) (dest : String) :
    Obeyed aug cs P sort (.lookup n v dest : Command K V Q) s := by
  rw [Obeyed, execBy]
  refine .bind_of_lasting ((onForest_spec (L := fun u => (u.toList : Multiset Snapshot))
    (X := fun u f f' => u = f.registry.lookup v ∧ f'.registry = f.registry)
    (Y := fun f f' => f'.registry = f.registry) h ?_).mono (fun _ _ hq => hq) ?_)
    (fun u s₁ h₁ => ?_) fun u => ?_
  · intro f c _ hid haug htended
    refine (Forest.lookup_spec v htended).mono ?_ ?_
    · rintro u f' ⟨rfl, hreg, hon⟩
      refine ⟨fun t ht => ?_, hon, rfl, hreg⟩
      exact (htended.mem_of_lookup (by simpa using ht)).2
    · rintro e f' ⟨hreg, hon⟩
      exact ⟨hon, hreg⟩
  · rintro e s' ⟨rfl | ⟨f, f', hf, hreg, rfl⟩, hwent⟩
    · exact .refl h
    · exact Made.after ⟨hwent, rfl, rfl, shelf_set_of_eq hf hreg⟩
  · obtain ⟨f, f', hf, ⟨hu, hreg⟩, rfl, hwent⟩ := h₁
    have hholding : s.holding (.registered n v) = u := by
      rw [hu, holding, shelf_of_forest hf]
    have hmade := Made.mk hwent rfl rfl (shelf_set_of_eq hf hreg)
    cases u with
    | none => exact .pure (hmade.after.mono fun x x' hgo _ => by simpa [follow, hholding] using hgo)
    | some t =>
      refine (stored_spec (by simpa using hmade) dest _).weaken fun _ s' hafter => ?_
      exact hafter.mono fun x x' hgo _ => by simpa [follow, hholding] using hgo
  · cases u <;> infer_instance

/-- The handle itself comes from there, and goes under the name or is given up. -/
theorem obeyed_unregister (h : s.Tidy aug cs P 0) (n : Nat) (v : UInt64)
    (dest : Option String) :
    Obeyed aug cs P sort (.unregister n v dest : Command K V Q) s := by
  rw [Obeyed, execBy]
  refine .bind_of_lasting (unregistered_spec h n v) (fun u s₁ h₁ => ?_) fun u => ?_
  · obtain ⟨hholding, hwent, hother⟩ := h₁
    cases u with
    | none =>
      refine .pure ⟨hwent, fun x x' t hgo ht => ?_⟩
      by_cases hx : x = .registered n v
      -- Nothing was held there.
      · rw [hx, hholding] at ht
        cases ht
      · rw [follow, if_neg hx, hholding] at hgo
        obtain rfl : x = x' := by simpa using hgo
        rw [hother x hx, ht]
    | some t =>
      rw [Option.toList_some, Multiset.coe_singleton] at hwent
      cases dest with
      | none =>
        refine given_up hwent fun x x' u hgo hu => ?_
        by_cases hx : x = .registered n v
        · rw [follow, if_pos hx] at hgo
          cases hgo
        · rw [follow, if_neg hx, hholding] at hgo
          obtain rfl : x = x' := by simpa using hgo
          rw [hother x hx, hu]
      | some dest =>
        -- The handle moves from the registry to the name.
        rw [← zero_add ({t} : Multiset Snapshot)] at hwent
        obtain ⟨s', hrun, hwent', htrees, hwalks, hshelf⟩ := store_spec hwent dest
        refine .bind (.of_ok (Q := fun _ s₂ => s₂ = s') hrun fun _ => rfl) fun w s₂ h₂ => ?_
        subst h₂
        refine .pure ⟨hwent', fun x x' u hgo hu => ?_⟩
        by_cases hx : x = .registered n v
        · rw [follow, if_pos hx] at hgo
          obtain rfl : Holder.tree dest = x' := by simpa using hgo
          rw [hx, hholding] at hu
          rw [holding, htrees, Names.get?_put_self, hu]
        · rw [follow, if_neg hx, hholding] at hgo
          obtain ⟨rfl, hne⟩ := eq_of_spare (by simpa using hgo)
          rw [holding_put htrees hwalks hshelf hne, hother _ hx, hu]
  · cases u <;> cases dest <;> infer_instance

end

section

variable [Ord K] [Ord Q] [KeyView K Q] (hP : Closed Q aug P)
  {sort : List (K × V) → List (K × V)}
include hP

theorem obeyed_empty (h : s.Tidy aug cs P 0) (n : Nat) (dest : String) :
    Obeyed aug cs P sort (.empty n dest : Command K V Q) s := by
  rw [Obeyed, execBy]
  refine .bind (made_spec (R := fun _ => True) (L := fun u => {u}) h ?_) fun u s₁ h₁ => ?_
  · intro f c hid haug htended
    obtain rfl := haug
    exact (Forest.advance_empty hP htended.backs).weaken fun _ _ hadv => ⟨trivial, hadv⟩
  · exact stored_spec h₁.2 dest _

theorem obeyed_ofSorted (h : s.Tidy aug cs P 0) (n : Nat) (items : List (K × V)) (dest : String) :
    Obeyed aug cs P sort (.ofSorted n items dest : Command K V Q) s := by
  rw [Obeyed, execBy]
  refine .bind (made_spec (R := fun _ => True) (L := fun u => {u}) h ?_) fun u s₁ h₁ => ?_
  · intro f c hid haug htended
    obtain rfl := haug
    exact (Forest.advance_ofSorted hP htended.backs items).weaken fun _ _ hadv => ⟨trivial, hadv⟩
  · exact stored_spec h₁.2 dest _

theorem obeyed_ofEntries (h : s.Tidy aug cs P 0) (n : Nat) (items : List (K × V))
    (dest : String) : Obeyed aug cs P sort (.ofEntries n items dest : Command K V Q) s := by
  have hsorted : Obeyed aug cs P sort
      (.ofSorted n (Forest.dropRepeats (sort items.reverse)) dest : Command K V Q) s :=
    obeyed_ofSorted hP h n _ dest
  exact hsorted

/-- The new tree takes the place of what was under its name, the old one if it had that name. -/
theorem obeyed_insert (h : s.Tidy aug cs P 0) (name : String) (k : K) (v : V) (dest : String) :
    Obeyed aug cs P sort (.insert name k v dest : Command K V Q) s := by
  rw [Obeyed, execBy]
  refine .bind (tree_spec h name) fun t s₁ h₁ => ?_
  obtain ⟨rfl, ht⟩ := h₁
  refine .bind (made_spec (R := fun _ => True) (L := fun u => {u}) h ?_) fun u s₁ h₁ => ?_
  · intro f c hid haug htended
    obtain rfl := haug
    have hmem := Forest.mem_held_of_own (mem_named_of_tree ht) hid.symm
    exact (Forest.advance_insert hP htended.backs hmem k v).weaken fun _ _ hadv => ⟨trivial, hadv⟩
  · exact stored_spec h₁.2 dest _

theorem obeyed_remove (h : s.Tidy aug cs P 0) (name : String) (key : Q) (dest : String) :
    Obeyed aug cs P sort (.remove name key dest : Command K V Q) s := by
  rw [Obeyed, execBy]
  refine .bind (tree_spec h name) fun t s₁ h₁ => ?_
  obtain ⟨rfl, ht⟩ := h₁
  refine .bind (made_spec (R := fun _ => True) (L := fun u => {u}) h ?_) fun u s₁ h₁ => ?_
  · intro f c hid haug htended
    obtain rfl := haug
    have hmem := Forest.mem_held_of_own (mem_named_of_tree ht) hid.symm
    exact (Forest.advance_remove hP htended.backs hmem hid.symm key).weaken
      fun _ _ hadv => ⟨trivial, hadv⟩
  · exact stored_spec h₁.2 dest _

theorem obeyed_tryRemove (h : s.Tidy aug cs P 0) (name : String) (key : Q) (dest : String) :
    Obeyed aug cs P sort (.tryRemove name key dest : Command K V Q) s := by
  rw [Obeyed, execBy]
  refine .bind (tree_spec h name) fun t s₁ h₁ => ?_
  obtain ⟨rfl, ht⟩ := h₁
  refine .bind (made_spec (R := fun _ => True) (L := fun res => {res.1}) h ?_) fun res s₁ h₁ => ?_
  · intro f c hid haug htended
    obtain rfl := haug
    have hmem := Forest.mem_held_of_own (mem_named_of_tree ht) hid.symm
    exact (Forest.advance_tryRemove hP htended.backs hmem key).weaken
      fun _ _ hadv => ⟨trivial, hadv⟩
  · exact stored_spec h₁.2 dest _

/-- Two trees are put under names one after another, so the second may take the place of the
first. -/
theorem obeyed_split (h : s.Tidy aug cs P 0) (name : String) (key : Q) (below above : String) :
    Obeyed aug cs P sort (.split name key below above : Command K V Q) s := by
  rw [Obeyed, execBy]
  refine .bind (tree_spec h name) fun t s₁ h₁ => ?_
  obtain ⟨rfl, ht⟩ := h₁
  refine .bind (made_spec (R := fun _ => True) (L := fun res => {res.1} + {res.2.2}) h ?_)
    fun res s₁ h₁ => ?_
  · intro f c hid haug htended
    obtain rfl := haug
    have hmem := Forest.mem_held_of_own (mem_named_of_tree ht) hid.symm
    exact (Forest.advance_split hP htended.backs hmem key).weaken fun _ _ hadv => ⟨trivial, hadv⟩
  · obtain ⟨l, found, r⟩ := res
    obtain ⟨-, hwent, htrees, hwalks, hshelf⟩ := h₁
    rw [add_comm] at hwent
    obtain ⟨s₂, hrun, hwent, htrees₂, hwalks₂, hshelf₂⟩ := store_spec hwent below
    rw [← zero_add ({r} : Multiset Snapshot)] at hwent
    obtain ⟨s₃, hrun', hwent, htrees₃, hwalks₃, hshelf₃⟩ := store_spec hwent above
    dsimp only
    rw [bind_of_ok hrun, bind_of_ok hrun']
    -- A handle is still held if neither of the two names was its place.
    refine .pure ⟨hwent, fun x x' u hgo hu => ?_⟩
    rw [follow, Option.bind_eq_some_iff] at hgo
    obtain ⟨y, hy, hy'⟩ := hgo
    obtain ⟨rfl, hbelow⟩ := eq_of_spare hy
    obtain ⟨rfl, habove⟩ := eq_of_spare hy'
    rw [holding_put htrees₃ hwalks₃ hshelf₃ habove, holding_put htrees₂ hwalks₂ hshelf₂ hbelow,
      holding_congr htrees hwalks hshelf, hu]

theorem obeyed_join (h : s.Tidy aug cs P 0) (left : String) (k : K) (v : V)
    (right dest : String) :
    Obeyed aug cs P sort (.join left k v right dest : Command K V Q) s := by
  rw [Obeyed, execBy]
  refine .bind (tree_spec h left) fun t s₁ h₁ => ?_
  obtain ⟨rfl, ht⟩ := h₁
  refine .bind (tree_spec h right) fun u s₁ h₁ => ?_
  obtain ⟨rfl, hu⟩ := h₁
  refine .bind (made_spec (R := fun _ => True) (L := fun w => {w}) h ?_) fun w s₁ h₁ => ?_
  · intro f c hid haug htended
    obtain rfl := haug
    exact (Forest.advance_join hP htended.backs
      (Forest.mem_held_of_own (mem_named_of_tree ht) hid.symm)
      (Forest.mem_held_of_own (mem_named_of_tree hu)) k v).weaken fun _ _ hadv => ⟨trivial, hadv⟩
  · exact stored_spec h₁.2 dest _

theorem obeyed_concat (h : s.Tidy aug cs P 0) (left right dest : String) :
    Obeyed aug cs P sort (.concat left right dest : Command K V Q) s := by
  rw [Obeyed, execBy]
  refine .bind (tree_spec h left) fun t s₁ h₁ => ?_
  obtain ⟨rfl, ht⟩ := h₁
  refine .bind (tree_spec h right) fun u s₁ h₁ => ?_
  obtain ⟨rfl, hu⟩ := h₁
  refine .bind (made_spec (R := fun _ => True) (L := fun w => {w}) h ?_) fun w s₁ h₁ => ?_
  · intro f c hid haug htended
    obtain rfl := haug
    exact (Forest.advance_concat hP htended.backs
      (Forest.mem_held_of_own (mem_named_of_tree ht) hid.symm)
      (Forest.mem_held_of_own (mem_named_of_tree hu))).weaken fun _ _ hadv => ⟨trivial, hadv⟩
  · exact stored_spec h₁.2 dest _

/-- Both operands are trees under names, and the second may be of another forest. -/
theorem obeyed_union (h : s.Tidy aug cs P 0) (ours theirs : String) (merge : K → V → V → V)
    (dest : String) :
    Obeyed aug cs P sort (.union ours theirs merge dest : Command K V Q) s := by
  rw [Obeyed, execBy]
  refine .bind (tree_spec h ours) fun t s₁ h₁ => ?_
  obtain ⟨rfl, ht⟩ := h₁
  refine .bind (tree_spec h theirs) fun u s₁ h₁ => ?_
  obtain ⟨rfl, hu⟩ := h₁
  refine .bind (made_spec (R := fun _ => True) (L := fun res => {res.1}) h ?_) fun res s₁ h₁ => ?_
  · intro f c hid haug htended
    obtain rfl := haug
    exact (Forest.advance_union hP htended.backs
      (Forest.mem_held_of_own (mem_named_of_tree ht) hid.symm)
      (Forest.mem_held_of_own (mem_named_of_tree hu)) (recordCalls merge) []).weaken
      fun _ _ hadv => ⟨trivial, hadv⟩
  · exact stored_spec h₁.2 dest _

/-- Every command keeps a session tidy. -/
theorem obeyed (h : s.Tidy aug cs P 0) (c : Command K V Q) : Obeyed aug cs P sort c s := by
  cases c with
  | empty n dest => exact obeyed_empty hP h n dest
  | ofSorted n items dest => exact obeyed_ofSorted hP h n items dest
  | ofEntries n items dest => exact obeyed_ofEntries hP h n items dest
  | insert name k v dest => exact obeyed_insert hP h name k v dest
  | remove name key dest => exact obeyed_remove hP h name key dest
  | tryRemove name key dest => exact obeyed_tryRemove hP h name key dest
  | split name key below above => exact obeyed_split hP h name key below above
  | join left k v right dest => exact obeyed_join hP h left k v right dest
  | concat left right dest => exact obeyed_concat hP h left right dest
  | union ours theirs merge dest => exact obeyed_union hP h ours theirs merge dest
  | copy name dest => exact obeyed_copy h name dest
  | drop name => exact obeyed_drop h name
  | intoWalk name dest => exact obeyed_intoWalk h name dest
  | pull name pulls => exact obeyed_pull h name pulls
  | dropWalk name => exact obeyed_dropWalk h name
  | register n name => exact obeyed_register h n name
  | lookup n v dest => exact obeyed_lookup h n v dest
  | unregister n v dest => exact obeyed_unregister h n v dest
  | collect n => exact obeyed_collect h n

end

/-! ## Runs -/

section

variable [Ord K] [Ord Q] [KeyView K Q] {sort : List (K × V) → List (K × V)}

instance lasting_execBy (note : Forest K V T → Snapshot → Except Fault ω) (c : Command K V Q) :
    Lasting (execBy sort note c) := by
  cases c with
  | split name key below above =>
    exact .bind (lasting_tree name) fun t => .bind lasting_onForest fun ⟨l, found, r⟩ =>
      .bind (lasting_store ..) fun l => .bind (lasting_store ..) fun r => .pure _
  | tryRemove name key dest =>
    exact .bind (lasting_tree name) fun t => .bind lasting_onForest fun ⟨t', value⟩ =>
      .bind (lasting_store ..) fun _ => .pure _
  | union ours theirs merge dest =>
    exact .bind (lasting_tree ours) fun t => .bind (lasting_tree theirs) fun u =>
      .bind lasting_onForest fun ⟨w, calls⟩ => .bind (lasting_store ..) fun _ => .pure _
  | drop name =>
    refine .bind .get fun s => ?_
    cases s.trees.get? name with
    | none => exact .pure _
    | some t =>
      exact .bind (.modify fun _ h => h) fun _ => .bind (lasting_discard t) fun _ => .pure _
  | intoWalk name dest =>
    refine .bind (lasting_tree name) fun t => .bind (lasting_onView _ _) fun position => ?_
    refine .bind .get fun s => .bind (.modify fun _ h => h) fun _ => ?_
    cases s.walks.get? dest with
    | none => exact .pure _
    | some old => exact .bind (lasting_discard _) fun _ => .pure _
  | pull name pulls =>
    refine .bind (lasting_walk name) fun w => .bind (lasting_onView _ _) fun ⟨ys, position⟩ => ?_
    exact .bind (.modify fun _ h => h) fun _ => .pure _
  | dropWalk name =>
    refine .bind .get fun s => ?_
    cases s.walks.get? name with
    | none => exact .pure _
    | some w =>
      exact .bind (.modify fun _ h => h) fun _ => .bind (lasting_discard _) fun _ => .pure _
  | lookup n v dest =>
    refine .bind lasting_onForest fun u => ?_
    cases u with
    | none => exact .pure _
    | some t => exact .bind (lasting_store ..) fun _ => .pure _
  | unregister n v dest =>
    refine .bind lasting_onForest fun u => ?_
    cases u with
    | none => exact .pure _
    | some t =>
      cases dest with
      | none => exact .bind (lasting_discard t) fun _ => .pure _
      | some dest => exact .bind (lasting_store ..) fun _ => .pure _
  | _ =>
    unfold execBy
    infer_instance

/-- The session after a command, whatever its outcome. -/
def next (sort : List (K × V) → List (K × V)) (c : Command K V Q) (s : Session K V T) :
    Session K V T :=
  final (execBy sort (fun _ _ => .ok ()) c s)

/-- The first command, whatever comes of it, and then the rest. -/
theorem execAllBy_cons (c : Command K V Q) (cmds : List (Command K V Q)) :
    execAllBy sort (c :: cmds) s = execAllBy sort cmds (next sort c s) := by
  rw [execAllBy, next]
  cases execBy sort (fun _ _ => .ok ()) c s <;> rfl

/-- Where the handle at `h` is after a command, if it has not been given up. -/
def goes (sort : List (K × V) → List (K × V)) (s : Session K V T) (c : Command K V Q) :
    Holder → Option Holder :=
  match execBy sort (fun _ _ => .ok ()) c s with
  | .ok _ _ => s.follow c
  | .error _ _ => some

/-- Where the handle at `h` is after a run, if it has not been given up. -/
def trace (sort : List (K × V) → List (K × V)) :
    List (Command K V Q) → Session K V T → Holder → Option Holder
  | [], _, h => some h
  | c :: cmds, s, h => (goes sort s c h).bind (trace sort cmds (next sort c s))

/-- What a command leaves behind. -/
theorem after_next (hP : Closed Q aug P) (h : s.Tidy aug cs P 0) (c : Command K V Q)
    (hquiet : ¬ Rung (next sort c s)) : After aug cs P s (goes sort s c) (next sort c s) := by
  have hstep : Obeyed aug cs P sort c s := obeyed hP h c
  rw [Obeyed] at hstep
  rw [next] at hquiet ⊢
  rw [goes]
  cases hr : execBy sort (fun _ _ => .ok ()) c s <;> rw [hr] at hstep hquiet <;>
    exact hstep hquiet

/-- An alarm that has rung goes on ringing. -/
theorem rung_execAllBy (cmds : List (Command K V Q)) (h : Rung s) :
    Rung (execAllBy sort cmds s) := by
  induction cmds generalizing s with
  | nil => exact h
  | cons c cmds ih =>
    rw [execAllBy_cons]
    exact ih ((lasting_execBy _ c).rung s h)

/-- The sessions that a run reaches are tidy, if no count ever wraps. -/
theorem tidy_execAllBy (hP : Closed Q aug P) (cmds : List (Command K V Q))
    (h : s.Tidy aug cs P 0) (hquiet : ¬ Rung (execAllBy sort cmds s)) :
    (execAllBy sort cmds s).Tidy aug cs P 0 := by
  induction cmds generalizing s with
  | nil => exact h
  | cons c cmds ih =>
    rw [execAllBy_cons] at hquiet ⊢
    have hstep := after_next hP h c fun hrung => hquiet (rung_execAllBy cmds hrung)
    exact ih hstep.went.tidy hquiet

end

/-- What is under a name, or on the way to one, is held. -/
theorem has_of_mem (h : s.Tidy aug cs P L) (ht : t ∈ s.named + L) : s.Has L t := by
  obtain ⟨f, hf⟩ := h.exists_forest ht
  obtain ⟨c, hc⟩ := h.exists_config hf
  obtain ⟨hid, -, -⟩ := h.tended t.forest f c hf hc
  exact ⟨f, hf, Forest.mem_held_of_own ht hid.symm⟩

/-- Where a handle is held, it is held. -/
theorem has_of_holding (h : s.Tidy aug cs P L) {x : Holder} (ht : s.holding x = some t) :
    s.Has L t := by
  cases x with
  | tree name => exact has_of_mem h (Multiset.mem_add.2 (.inl (mem_named_of_tree ht)))
  | walk name =>
    obtain ⟨w, hw, rfl⟩ := Option.map_eq_some_iff.1 ht
    exact has_of_mem h (Multiset.mem_add.2 (.inl (mem_named_of_walk hw)))
  | registered n v =>
    cases hf : s.forests[n]? with
    | none =>
      rw [holding, shelf, hf] at ht
      cases ht
    | some f =>
      obtain ⟨c, hc⟩ := h.exists_config hf
      obtain ⟨hid, -, htended⟩ := h.tended n f c hf hc
      rw [holding, shelf_of_forest hf] at ht
      obtain ⟨hmem, hown⟩ := htended.mem_of_lookup ht
      refine ⟨f, ?_, hmem⟩
      rw [hown, hid, hf]

/-- Every handle is held at some place. -/
theorem exists_holder (h : s.Tidy aug cs P 0) (ht : t ∈ s.handles) :
    ∃ x, s.holding x = some t := by
  rw [handles, List.mem_append, List.mem_append] at ht
  rcases ht with (ht | ht) | ht
  · obtain ⟨⟨name, u⟩, hmem, rfl⟩ := List.mem_map.1 ht
    exact ⟨.tree name, lookup_of_mem h.trees hmem⟩
  · obtain ⟨w, hw, rfl⟩ := List.mem_map.1 ht
    obtain ⟨⟨name, w⟩, hmem, rfl⟩ := List.mem_map.1 hw
    exact ⟨.walk name, congrArg (Option.map Walk.tree) (lookup_of_mem h.walks hmem)⟩
  · obtain ⟨f, hf, ht⟩ := List.mem_flatMap.1 ht
    obtain ⟨n, hn⟩ := List.mem_iff_getElem?.1 hf
    rw [Array.getElem?_toList] at hn
    obtain ⟨c, hc⟩ := h.exists_config hn
    obtain ⟨-, -, htended⟩ := h.tended n f c hn hc
    obtain ⟨⟨v, u⟩, hmem, rfl⟩ := List.mem_map.1 ht
    refine ⟨.registered n v, ?_⟩
    rw [holding, shelf_of_forest hn]
    exact lookup_of_mem htended.shelved.nodup hmem

/-- Every handle of a session is held at some place. -/
theorem has_of_mem_handles (h : s.Tidy aug cs P 0) (ht : t ∈ s.handles) : s.Has 0 t := by
  obtain ⟨x, hx⟩ := exists_holder h ht
  exact has_of_holding h hx

/-- A handle that is held shows a tree. -/
theorem Tidy.exists_shown (h : s.Tidy aug cs P L) (ht : s.Has L t) :
    ∃ p, s.Shows t p ∧ P p.bare := by
  obtain ⟨f, hf, hmem⟩ := ht
  obtain ⟨c, hc⟩ := h.exists_config hf
  obtain ⟨-, -, htended⟩ := h.tended t.forest f c hf hc
  obtain ⟨F, hF, hsound, hall⟩ := htended.backs
  obtain ⟨p, hp, hroot⟩ := Forest.exists_tree hF hmem
  exact ⟨p, ⟨f, hf, hroot.symm, hsound.unfolds hp⟩, hall p hp⟩

/-- Fresh forests with nothing in them. -/
theorem tidy_new (aug : Augment K V T) (cs : List Config) :
    (new aug cs).Tidy aug cs P 0 := by
  have hforest : ∀ n : Nat, (new aug cs).forests[n]? = (cs[n]?).map (Forest.new n aug) := by
    intro n
    simp [new]
  refine ⟨by simp [new], List.nodup_nil, List.nodup_nil, ?_, ?_⟩
  · intro t ht
    exact absurd ht (Multiset.notMem_zero t)
  · intro n f c hf hc
    rw [hforest, hc] at hf
    obtain rfl := Option.some.inj hf
    exact ⟨rfl, rfl, Forest.shelved_nil, 0, rfl, Store.sound_new c,
      fun p hp => absurd hp (Multiset.notMem_zero p)⟩

/-- No count of references has wrapped so far. -/
def Quiet (s : Session K V T) : Prop := ∀ f ∈ s.forests, f.store.alarms.countHigh = false

instance (s : Session K V T) : Decidable s.Quiet :=
  inferInstanceAs (Decidable (∀ f ∈ s.forests, f.store.alarms.countHigh = false))

/-- Silence can be read off the forests. -/
theorem not_rung_of_quiet (h : s.Quiet) : ¬ Rung s := by
  rintro ⟨f, hf, hrung⟩
  have hquiet := h f hf
  rw [show f.store.alarms.countHigh = true from hrung] at hquiet
  cases hquiet

/-- The session is what a run has made of fresh forests, and no count has wrapped in it. -/
def Reached (Q : Type) [Ord K] [Ord Q] [KeyView K Q] (sort : List (K × V) → List (K × V))
    (aug : Augment K V T) (configs : List Config) (s : Session K V T) : Prop :=
  s.Quiet ∧ ∃ cmds : List (Command K V Q), s = execAllBy sort cmds (new aug configs)

section

variable [Ord K] [Ord Q] [KeyView K Q] {sort : List (K × V) → List (K × V)}

/-- Two versions that share a place; the older one is held by the registry alone. -/
def shortRun : Session Nat Int64 Int64 :=
  execAllBy Forest.sortByKey
    [.empty 0 "a", .insert "a" 2 20 "b", .insert "b" 1 10 "c", .register 0 "b", .drop "b"]
    (new .sum [{ reclamation := .deferred 2 }])

/-- The run goes over two versions, of which one is left to the registry. -/
theorem reached_shortRun :
    shortRun.Reached Nat Forest.sortByKey .sum [{ reclamation := .deferred 2 }] :=
  ⟨by decide +kernel, _, rfl⟩

/-- Whatever all operations preserve holds of every tree in a session that a run reaches. -/
theorem Reached.tidy (hP : Closed Q aug P) (h : s.Reached Q sort aug cs) :
    s.Tidy aug cs P 0 := by
  obtain ⟨hquiet, cmds, rfl⟩ := h
  exact tidy_execAllBy hP cmds (tidy_new aug cs) (not_rung_of_quiet hquiet)

/-- A handle that a run does not give up is where `trace` says, and so is its tree. -/
theorem tracked (cmds : List (Command K V Q)) (h : s.Tidy aug cs (fun _ => True) 0)
    (hquiet : ¬ Rung (execAllBy sort cmds s)) {x x' : Holder}
    (hx : trace sort cmds s x = some x') (ht : s.holding x = some t) :
    (execAllBy sort cmds s).holding x' = some t ∧
      ∀ p, s.Shows t p → (execAllBy sort cmds s).Shows t p := by
  induction cmds generalizing s x with
  | nil =>
    obtain rfl := Option.some.inj hx
    exact ⟨ht, fun p hp => hp⟩
  | cons c cmds ih =>
    rw [execAllBy_cons] at hquiet ⊢
    rw [trace, Option.bind_eq_some_iff] at hx
    obtain ⟨y, hy, hx⟩ := hx
    -- One command takes the handle from `x` to `y`, and the others take it from there.
    have hstep := after_next (closed_true aug) h c fun hrung => hquiet (rung_execAllBy cmds hrung)
    have ht' := hstep.tracks x y t hy ht
    obtain ⟨hend, hshown⟩ := ih hstep.went.tidy hquiet hx ht'
    refine ⟨hend, fun p hp => hshown p (hstep.went.kept t p ?_ ?_ hp)⟩
    · exact has_of_holding h ht
    · exact has_of_holding hstep.went.tidy ht'

end

end Session

end SharedForest

/-
Sessions follow their shadows.

What a command does to the shadow of a session is what `Shadow.step` does, unless the forest
had no place left, and then the shadow is unchanged (`follows`).  So whatever a run leaves to
be seen is a function of the commands and of the number of forests.

Most commands put a request to a forest and the trees of its answer under names.  What is said
about each of these is which request it is (`posed_of_asks`), and the rest is one lemma for all of
them, `comes_make`.  Those that move handles from place to place, or through the registry, go one
by one.
-/
import SharedForest.Proofs.Shadow
import SharedForest.Proofs.Iteration

set_option autoImplicit false

namespace SharedForest

open Alarmed

variable {γ K Q V T α β ω : Type}

namespace Command

/-- The command uses a walk. -/
def Pulls : Command K V Q → Prop
  | .pull _ _ => True
  | _ => False

/-- The command puts a request to a forest. -/
def Asks : Command K V Q → Prop
  | .empty _ _ | .ofSorted _ _ _ | .ofEntries _ _ _ | .insert _ _ _ _ | .remove _ _ _
  | .tryRemove _ _ _ | .split _ _ _ _ | .join _ _ _ _ _ | .concat _ _ _ | .union _ _ _ _
  | .copy _ _ => True
  | _ => False

end Command

namespace Session

variable {aug : Augment K V T} {cs : List Config} {s s₁ s' : Session K V T} {t u : Snapshot}
  {n : Nat} {f f' : Forest K V T} {name dest : String} {x : Holder} {excuse : Prop}

/-! ## Requests -/

section

variable [Ord K] [Ord Q] [KeyView K Q] {sort : List (K × V) → List (K × V)}
  {q : Request K V Q γ Snapshot}

/-- The plain answer to a request may be taken of figures in the session. -/
theorem plain_figure (hf : s.forests[n]? = some f) (hq : q.Among s.handles n) (next : Nat) :
    (q.map f.figure).plain aug sort n next = (q.map s.figure).plain aug sort n next := by
  refine Request.eq_of_agree (Request.plain_alike (R := Eq)
    (S := fun x y => x.forest = y.forest ∧ (x.forest = n → x.tree = y.tree)) aug sort
    (q.alike_refl.map ?_ ?_) (fun x y hxy => by rw [hxy]) ?_ fun _ _ => rfl)
  · rintro t ht _ - rfl
    obtain ⟨-, rfl⟩ := hq.host t ht
    rw [figure_of_forest hf]
  · rintro t - _ - rfl
    refine ⟨rfl, fun hown => ?_⟩
    obtain rfl : t.forest = n := hown
    rw [figure_of_forest hf]
  · rintro x y ⟨hforest, htree⟩
    exact ⟨by rw [hforest], htree⟩

/-- The forest has answered `r`, as the plain answer says, and its trees are under no name yet. -/
structure Answered (aug : Augment K V T) (cs : List Config)
    (sort : List (K × V) → List (K × V)) (s : Session K V T) (n : Nat)
    (q : Request K V Q γ Snapshot) (r : Reply V γ Snapshot) (s₁ : Session K V T) : Prop where
  tidy : s₁.Tidy aug cs (fun _ => True) (r.trees : Multiset Snapshot)
  lt : n < s.forests.size
  answer : ∃ next, (q.map s.figure).plain aug sort n (s.derivedIn n)
      = .ok (r.map s₁.figure, next) ∧
    s₁.shadow = { s.shadow with derived := fun m => if m = n then next else s.derivedIn m }

/-- Nothing is seen of a request that is refused. -/
def Denied (aug : Augment K V T) (sort : List (K × V) → List (K × V)) (s : Session K V T)
    (n : Nat) (q : Request K V Q γ Snapshot) : Prop :=
  ∀ dests, s.shadow.make aug sort n (q.map s.figure) dests = s.shadow

/-- What a forest has answered is an answer in the session: the forest alone has changed, and
nothing is seen of that but the number of snapshots derived. -/
theorem answered_of_answers {r : Reply V γ Snapshot} (h : s.Tidy aug cs (fun _ => True) 0)
    (hf : s.forests[n]? = some f) (hid : f.id = n) (hq : q.Among s.handles n)
    (hplain : (q.map f.figure).plain aug sort f.id f.derived = .ok (r.map f'.figure, f'.derived))
    (hreg : f'.registry = f.registry) (hown : ∀ t ∈ r.trees, t.forest = n)
    (hwent : Went aug cs (fun _ => True) s (r.trees : Multiset Snapshot)
      { s with forests := s.forests.setIfInBounds n f' }) :
    Answered aug cs sort s n q r { s with forests := s.forests.setIfInBounds n f' } := by
  have hn : n < s.forests.size := (Array.getElem?_eq_some_iff.1 hf).1
  refine ⟨hwent.tidy, hn, f'.derived, ?_, ?_⟩
  · rw [← plain_figure hf hq, derivedIn_of_forest hf, ← hid, hplain]
    congr 2
    refine Reply.map_congr fun t ht => (figure_of_forest ?_).symm
    rw [hown t ht, hid]
    exact Array.getElem?_setIfInBounds_self_of_lt hn
  · refine Shadow.ext (hwent.tidy.size.trans h.size.symm) ?_ ?_
    · exact held_same h hwent.tidy (hwent.steady h)
        (holding_congr rfl rfl (shelf_set_of_eq hf hreg))
    · exact derivedIn_set hf f'

/-- A request that is put to a forest of the session. -/
theorem ask_spec (h : s.Tidy aug cs (fun _ => True) 0) (hq : q.Among s.handles n)
    {op : ForestM K V T α} {g : α → Reply V γ Snapshot} (hop : q.run sort = g <$> op) :
    Ends (onForest n op s) (fun a s₁ => Answered aug cs sort s n q (g a) s₁)
      fun e s₁ => s₁.shadow = s.shadow ∧ (e.exceeds ∨ Denied aug sort s n q) ∧ ¬ e.IsFault := by
  refine (onForest_ends (L := fun a => ((g a).trees : Multiset Snapshot))
    (X := fun a f f' => f.id = n ∧ (∀ t ∈ (g a).trees, t.forest = n) ∧
      f'.registry = f.registry ∧ (q.map f.figure).plain aug sort f.id f.derived
        = .ok ((g a).map f'.figure, f'.derived))
    (Y := fun e f f' => f'.registry = f.registry ∧ f'.derived = f.derived ∧
      (e.exceeds ∨ ∃ why, (q.map f.figure).plain aug sort n f.derived = .error why) ∧
      ¬ (Trouble.failed e).IsFault) h ?_).mono ?_ ?_
  -- What the forest answers is in `fares`; the other two goals read it off for the session.
  · rintro f c hf hc rfl rfl htended
    have hheld := h.held_eq hf
    obtain ⟨F, hF, hsound, hall⟩ := htended.backs
    have hfares : Forest.Fares sort f c F _ q :=
      Forest.fares hF hsound q (hheld ▸ h.posed hf hq)
    rw [Forest.Fares, hop] at hfares
    refine hfares.of_map.mono ?_ ?_
    · rintro a f' ⟨hplain, hadv⟩
      have hown : ∀ t ∈ (g a).trees, t.forest = f.id :=
        fun t ht => hadv.own t (Multiset.mem_coe.2 ht)
      exact ⟨hadv.own, htended.onward hadv, rfl, hown, hadv.registry, hplain⟩
    · rintro e f' ⟨hwhy, hholds, hderived⟩
      refine ⟨htended.onward_zero (Forest.advance_of_holds hF hsound hall hholds),
        hholds.registry, hderived, ?_⟩
      rcases hwhy with rfl | ⟨why, rfl, hplain⟩
      · exact ⟨.inl rfl, not_false⟩
      · exact ⟨.inr ⟨why, hplain⟩, not_false⟩
  · rintro a s₁ ⟨f, f', hf, ⟨hid, hown, hreg, hplain⟩, rfl, hwent⟩
    exact answered_of_answers h hf hid hq hplain hreg hown hwent
  · rintro e s₁ ⟨⟨rfl, rfl, hf⟩ | ⟨e', f, f', rfl, hf, ⟨hreg, hderived, hwhy, hfault⟩, rfl⟩, hwent⟩
    · refine ⟨rfl, .inr fun dests => if_neg ?_, not_false⟩
      exact Nat.not_lt.2 (Array.getElem?_eq_none_iff.1 hf)
    · refine ⟨shadow_same h hwent.tidy (hwent.steady h) (derivedIn_set_of_eq hf hderived)
        (holding_congr rfl rfl (shelf_set_of_eq hf hreg)), hwhy.imp_right ?_, hfault⟩
      rintro ⟨why, hplain⟩ dests
      rw [plain_figure hf hq, ← derivedIn_of_forest hf] at hplain
      rw [Shadow.make]
      split
      · rw [show s.shadow.derived n = s.derivedIn n from rfl, hplain]
      · rfl

/-- The trees of an answer are put under their names. -/
theorem keep_answer {r : Reply V γ Snapshot} {dests : List String}
    (h : Answered aug cs sort s n q r s₁) (hlen : dests.length = r.trees.length) :
    ∃ s', storeAll dests r.trees s₁ = .ok () s' ∧
      s'.shadow = s.shadow.make aug sort n (q.map s.figure) dests := by
  obtain ⟨next, hplain, hshadow⟩ := h.answer
  obtain ⟨s', hrun, hshadow'⟩ := storeAll_shadow h.tidy hlen
  refine ⟨s', hrun, ?_⟩
  have hmake : s.shadow.make aug sort n (q.map s.figure) dests
      = Shadow.holdAll dests (r.map s₁.figure).trees
        { s.shadow with derived := fun m => if m = n then next else s.derivedIn m } := by
    rw [Shadow.make, show s.shadow.derived n = s.derivedIn n from rfl, hplain]
    exact if_pos h.lt
  rw [hshadow', hmake, Reply.trees_map, hshadow]

/-! ## Commands -/

/-- The shadow is `h` in the end; or it is what it was, because there was no place left.  A fault
needs an excuse. -/
def Comes (excuse : Prop) (s : Session K V T) (h : Shadow K V T)
    (r : EStateM.Result Trouble (Session K V T) β) : Prop :=
  Ends r (fun _ s' => s'.shadow = h) fun e s' =>
    (s'.shadow = h ∨ e.exceeds ∧ s'.shadow = s.shadow) ∧ (e.IsFault → excuse)

/-- A request, and what is done with the trees of the answer. -/
theorem comes_make (h : s.Tidy aug cs (fun _ => True) 0) {k : α → SessionM K V T β}
    {op : ForestM K V T α} {g : α → Reply V γ Snapshot} {dests : List String}
    (hop : q.run sort = g <$> op) (hlen : ∀ a, dests.length = (g a).trees.length)
    (hlast : ∀ a, Lasting (k a))
    (hk : ∀ a s₁ s', storeAll dests (g a).trees s₁ = .ok () s' → ∃ b, k a s₁ = .ok b s')
    (hq : q.Among s.handles n) :
    Comes excuse s (s.shadow.make aug sort n (q.map s.figure) dests)
      ((onForest n op >>= k) s) := by
  refine .bind_of_lasting ((ask_spec h hq hop).mono (fun _ _ ha => ha) ?_) (fun a s₁ h₁ => ?_) hlast
  · rintro e s₁ ⟨hshadow, hexceeds | hdenied, hfault⟩
    · exact ⟨.inr ⟨hexceeds, hshadow⟩, fun hf => absurd hf hfault⟩
    · exact ⟨.inl (hshadow.trans (hdenied dests).symm), fun hf => absurd hf hfault⟩
  · obtain ⟨s', hrun, hshadow⟩ := keep_answer h₁ (hlen a)
    obtain ⟨b, hrun'⟩ := hk a s₁ s' hrun
    exact .of_ok hrun' fun _ => hshadow

end

/-- A tree is found under a name, or it is said that there is none. -/
theorem tree_cases (name : String) (s : Session K V T) :
    (∃ t, s.trees.get? name = some t ∧ tree name s = .ok t s) ∨
      s.trees.get? name = none ∧ tree name s = .error (.noTree name) s := by
  rw [tree, bind_get]
  cases ht : s.trees.get? name with
  | none => exact .inr ⟨rfl, rfl⟩
  | some t => exact .inl ⟨t, rfl, rfl⟩

/-- A walk is under its name, or that is the failure. -/
theorem walk_cases (name : String) (s : Session K V T) :
    (∃ w, s.walks.get? name = some w ∧ walk name s = .ok w s) ∨
      s.walks.get? name = none ∧ walk name s = .error (.noWalk name) s := by
  rw [walk, bind_get]
  cases hw : s.walks.get? name with
  | none => exact .inr ⟨rfl, rfl⟩
  | some w => exact .inl ⟨w, rfl, rfl⟩

/-- Looking at a forest leaves the session as it is. -/
theorem onView_cases (n : Nat) (look : Forest K V T → Except Fault α) (s : Session K V T) :
    (∃ f a, s.forests[n]? = some f ∧ look f = .ok a ∧ onView n look s = .ok a s) ∨
      ∃ e, onView n look s = .error e s := by
  unfold onView
  cases s.forests[n]? with
  | none => exact .inr ⟨_, rfl⟩
  | some f =>
    dsimp only
    cases hlook : look f with
    | ok a => exact .inl ⟨f, a, rfl, hlook, rfl⟩
    | error e => exact .inr ⟨_, rfl⟩

/-- A command that starts from a tree, against a shadow that starts from its figure. -/
theorem comes_withTree {k : Snapshot → SessionM K V T β} {go : Figure K V T → Shadow K V T}
    (hk : ∀ t, s.trees.get? name = some t → Comes excuse s (go (s.figure t)) (k t s)) :
    Comes excuse s (s.shadow.withTree name go) ((tree name >>= k) s) := by
  have hheld : s.shadow.held (.tree name) = (s.trees.get? name).map s.figure := rfl
  rw [Shadow.withTree, hheld]
  rcases tree_cases name s with ⟨t, ht, hok⟩ | ⟨hnone, herror⟩
  · rw [ht, bind_of_ok hok]
    exact hk t ht
  · rw [hnone, bind_of_error herror]
    exact .error ⟨.inl rfl, False.elim⟩

/-- The last step of most commands. -/
theorem kept_one {G : Unit → β} (h : storeAll [dest] [t] s = .ok () s') :
    ∃ b, (store (fun _ _ => .ok ()) dest t >>= fun w => pure (G w) : SessionM K V T β) s
      = .ok b s' := by
  rw [storeAll] at h
  cases hr : store (fun _ _ => .ok ()) dest t s with
  | ok w s₁ =>
    rw [bind_of_ok hr] at h ⊢
    cases h
    exact ⟨_, rfl⟩
  | error e s₁ =>
    rw [bind_of_error hr] at h
    cases h

/-- The same for the two parts of a split. -/
theorem kept_two {dest' : String} {G : Unit → Unit → β}
    (h : storeAll [dest, dest'] [t, u] s = .ok () s') :
    ∃ b, (store (fun _ _ => .ok ()) dest t >>= fun w => store (fun _ _ => .ok ()) dest' u >>=
      fun w' => pure (G w w') : SessionM K V T β) s = .ok b s' := by
  rw [storeAll] at h
  cases hr : store (fun _ _ => .ok ()) dest t s with
  | ok w s₁ =>
    rw [bind_of_ok hr] at h ⊢
    exact kept_one h
  | error e s₁ =>
    rw [bind_of_error hr] at h
    cases h

/-- A tree under a name is a handle of the session. -/
theorem mem_handles_of_tree (ht : s.trees.get? name = some t) : t ∈ s.handles := by
  obtain ⟨l, r, hpairs, -⟩ := List.lookup_eq_some_iff.1 ht
  rw [handles, List.mem_append, List.mem_append, Names.all, hpairs]
  simp

section

variable {q : Request K V Q γ Snapshot}

theorem among_none (hhost : q.host? = none) (hguest : q.guest? = none) :
    q.Among s.handles n := by
  refine ⟨?_, ?_⟩
  · rw [hhost]
    rintro t ⟨⟩
  · rw [hguest]
    rintro t ⟨⟩

/-- A request on one tree that is held. -/
theorem among_one (ht : s.trees.get? name = some t) (hhost : q.host? = some t)
    (hguest : q.guest? = none) : q.Among s.handles t.forest := by
  refine ⟨?_, ?_⟩
  · rw [hhost]
    rintro _ ⟨⟩
    exact ⟨mem_handles_of_tree ht, rfl⟩
  · rw [hguest]
    rintro u ⟨⟩

/-- A request on two of them, of which the second may be of another forest. -/
theorem among_two {name' : String} (ht : s.trees.get? name = some t)
    (hu : s.trees.get? name' = some u) (hhost : q.host? = some t) (hguest : q.guest? = some u) :
    q.Among s.handles t.forest := by
  refine ⟨?_, ?_⟩
  · rw [hhost]
    rintro _ ⟨⟩
    exact ⟨mem_handles_of_tree ht, rfl⟩
  · rw [hguest]
    rintro _ ⟨⟩
    exact mem_handles_of_tree hu

end

section

variable [Ord K] [Ord Q] [KeyView K Q] (sort : List (K × V) → List (K × V))

/-- What is answered with `r` is a request on handles that are held, and then the trees of its
answer are put under names; or a tree is not there.  For the shadow `after` says as much. -/
inductive Posed (s : Session K V T) (r : EStateM.Result Trouble (Session K V T) β)
    (after : Augment K V T → Shadow K V T) : Prop where
  | request {γ α : Type} {n : Nat} (q : Request K V Q γ Snapshot) (g : α → Reply V γ Snapshot)
      (op : ForestM K V T α) (k : α → SessionM K V T β) (dests : List String)
      (run : r = (onForest n op >>= k) s) (serves : q.run sort = g <$> op)
      (length : ∀ a, dests.length = (g a).trees.length) (lasts : ∀ a, Lasting (k a))
      (keeps : ∀ a s₁ s', storeAll dests (g a).trees s₁ = .ok () s' → ∃ b, k a s₁ = .ok b s')
      (among : q.Among s.handles n)
      (shadows : after = fun aug => s.shadow.make aug sort n (q.map s.figure) dests)
  | lost (name : String) (run : r = .error (.noTree name) s) (shadows : after = fun _ => s.shadow)

variable {sort}

/-- A command that starts from a tree poses what it poses with it, or is lost without. -/
theorem posed_withTree {k : Snapshot → SessionM K V T β}
    {go : Augment K V T → Figure K V T → Shadow K V T}
    (hk : ∀ t, s.trees.get? name = some t →
      Posed (Q := Q) sort s (k t s) fun aug => go aug (s.figure t)) :
    Posed (Q := Q) sort s ((tree name >>= k) s) fun aug => s.shadow.withTree name (go aug) := by
  have hheld : s.shadow.held (.tree name) = (s.trees.get? name).map s.figure := rfl
  rcases tree_cases name s with ⟨t, ht, hok⟩ | ⟨hnone, herror⟩
  · have hafter : (fun aug => s.shadow.withTree name (go aug)) = fun aug => go aug (s.figure t) := by
      funext aug
      rw [Shadow.withTree, hheld, ht]
      rfl
    rw [bind_of_ok hok, hafter]
    exact hk t ht
  · refine .lost name (bind_of_error herror) ?_
    funext aug
    rw [Shadow.withTree, hheld, hnone]
    rfl

/-- Most commands are of this kind. -/
theorem posed_of_asks {c : Command K V Q} (hc : c.Asks) :
    Posed (Q := Q) sort s (execBy sort (fun _ _ => .ok ()) c s)
      fun aug => s.shadow.step aug sort c := by
  cases c with
  | empty n dest =>
    exact .request (.empty : Request K V Q Unit Snapshot) .tree Forest.empty _ [dest] rfl rfl
      (fun _ => rfl) (fun _ => inferInstance) (fun _ _ _ => kept_one) (among_none rfl rfl) rfl
  | ofSorted n items dest =>
    exact .request (.ofSorted items : Request K V Q Unit Snapshot) .tree (Forest.ofSorted items) _
      [dest] rfl rfl (fun _ => rfl) (fun _ => inferInstance) (fun _ _ _ => kept_one)
      (among_none rfl rfl) rfl
  | ofEntries n items dest =>
    exact .request (.ofEntries items : Request K V Q Unit Snapshot) .tree
      (Forest.ofEntriesBy sort items) _ [dest] rfl rfl (fun _ => rfl) (fun _ => inferInstance)
      (fun _ _ _ => kept_one) (among_none rfl rfl) rfl
  | insert name k v dest =>
    exact posed_withTree fun t ht => .request (.insert t k v : Request K V Q Unit Snapshot) .tree
      (Forest.insert t k v) _ [dest] rfl rfl (fun _ => rfl) (fun _ => inferInstance)
      (fun _ _ _ => kept_one) (among_one ht rfl rfl) rfl
  | remove name key dest =>
    exact posed_withTree fun t ht => .request (.remove t key : Request K V Q Unit Snapshot) .tree
      (Forest.remove t key) _ [dest] rfl rfl (fun _ => rfl) (fun _ => inferInstance)
      (fun _ _ _ => kept_one) (among_one ht rfl rfl) rfl
  | tryRemove name key dest =>
    refine posed_withTree fun t ht => .request (.tryRemove t key : Request K V Q Unit Snapshot)
      (fun res => .taken res.1 res.2) (Forest.tryRemove t key) _ [dest] rfl rfl (fun _ => rfl)
      ?_ ?_ (among_one ht rfl rfl) rfl
    · rintro ⟨t', value⟩
      exact .bind (lasting_store ..) fun _ => .pure _
    · rintro ⟨t', value⟩ _ _
      exact kept_one
  | split name key below above =>
    refine posed_withTree fun t ht => .request (.split t key : Request K V Q Unit Snapshot)
      (fun res => .parts res.1 res.2.1 res.2.2) (Forest.split t key) _ [below, above] rfl rfl
      (fun _ => rfl) ?_ ?_ (among_one ht rfl rfl) rfl
    · rintro ⟨l, found, r⟩
      exact .bind (lasting_store ..) fun _ => .bind (lasting_store ..) fun _ => .pure _
    · rintro ⟨l, found, r⟩ _ _
      exact kept_two
  | join left k v right dest =>
    exact posed_withTree fun t ht => posed_withTree fun u hu =>
      .request (.join t k v u : Request K V Q Unit Snapshot) .tree (Forest.join t k v u) _ [dest]
        rfl rfl (fun _ => rfl) (fun _ => inferInstance) (fun _ _ _ => kept_one)
        (among_two ht hu rfl rfl) rfl
  | concat left right dest =>
    exact posed_withTree fun t ht => posed_withTree fun u hu =>
      .request (.concat t u : Request K V Q Unit Snapshot) .tree (Forest.concat t u) _ [dest]
        rfl rfl (fun _ => rfl) (fun _ => inferInstance) (fun _ _ _ => kept_one)
        (among_two ht hu rfl rfl) rfl
  | union ours theirs merge dest =>
    refine posed_withTree fun t ht => posed_withTree fun u hu =>
      .request (.union t u (recordCalls merge) [] : Request K V Q _ Snapshot)
        (fun res => .united res.1 res.2) (CarryM.runFrom [] (Forest.union (recordCalls merge) t u))
        _ [dest] rfl rfl (fun _ => rfl) ?_ ?_ (among_two ht hu rfl rfl) rfl
    · rintro ⟨w, calls⟩
      exact .bind (lasting_store ..) fun _ => .pure _
    · rintro ⟨w, calls⟩ _ _
      exact kept_one
  | copy name dest =>
    exact posed_withTree fun t ht => .request (.copy t : Request K V Q Unit Snapshot) .tree
      (Forest.copy t) _ [dest] rfl rfl (fun _ => rfl) (fun _ => inferInstance)
      (fun _ _ _ => kept_one) (among_one ht rfl rfl) rfl
  | drop _ | intoWalk _ _ | pull _ _ | dropWalk _ | register _ _ | lookup _ _ _
  | unregister _ _ _ | collect _ => exact hc.elim

/-- The others do nothing to a forest but to move references and to file snapshots. -/
theorem leaves_execBy {part : Forest K V T → ω} [Forest.Detached part] {c : Command K V Q}
    (hc : ¬ c.Asks) : Leaves (across part) (execBy sort (fun _ _ => .ok ()) c) := by
  cases c with
  | drop name =>
    refine .bind .get fun s => ?_
    cases s.trees.get? name with
    | none => exact .pure _
    | some t => exact .bind (.modify fun _ => rfl) fun _ => .bind (leaves_discard t) fun _ => .pure _
  | intoWalk name dest =>
    refine .bind (leaves_tree name) fun t => .bind (leaves_onView _ _) fun position => ?_
    refine .bind .get fun s => .bind (.modify fun _ => rfl) fun _ => ?_
    cases s.walks.get? dest with
    | none => exact .pure _
    | some old => exact .bind (leaves_discard _) fun _ => .pure _
  | pull name pulls =>
    refine .bind (leaves_walk name) fun w => .bind (leaves_onView _ _) fun pulled => ?_
    exact .bind (.modify fun _ => rfl) fun _ => .pure _
  | dropWalk name =>
    refine .bind .get fun s => ?_
    cases s.walks.get? name with
    | none => exact .pure _
    | some w => exact .bind (.modify fun _ => rfl) fun _ => .bind (leaves_discard _) fun _ => .pure _
  | register n name => exact .bind (leaves_tree name) fun t => .bind leaves_onForest fun _ => .pure _
  | lookup n v dest =>
    refine .bind leaves_onForest fun u => ?_
    cases u with
    | none => exact .pure _
    | some t => exact .bind (leaves_store ..) fun _ => .pure _
  | unregister n v dest =>
    refine .bind leaves_onForest fun u => ?_
    cases u with
    | none => exact .pure _
    | some t =>
      cases dest with
      | none => exact .bind (leaves_discard t) fun _ => .pure _
      | some dest => exact .bind (leaves_store ..) fun _ => .pure _
  | collect n => exact .bind leaves_onForest fun _ => .pure _
  | _ => exact absurd trivial hc

variable (sort)

/-- What a command does to a session is what it does to the shadow, and if it does not use a walk
it does not come to a fault. -/
def Follows (aug : Augment K V T) (s : Session K V T) (c : Command K V Q) : Prop :=
  Comes c.Pulls s (s.shadow.step aug sort c) (execBy sort (fun _ _ => .ok ()) c s)

variable (h : s.Tidy aug cs (fun _ => True) 0)
include h

/-- One lemma for all commands that put a request to a forest. -/
theorem comes_of_posed {r : EStateM.Result Trouble (Session K V T) β}
    {after : Augment K V T → Shadow K V T} (hr : Posed (Q := Q) sort s r after) :
    Comes excuse s (after aug) r := by
  cases hr with
  | request q g op k dests run serves length lasts keeps among shadows =>
    rw [run, shadows]
    exact comes_make h serves length lasts keeps among
  | lost name run shadows =>
    rw [run, shadows]
    exact .error ⟨.inl rfl, False.elim⟩

/-- And so for each of these commands. -/
theorem follows_of_asks {c : Command K V Q} (hc : c.Asks) : Follows sort aug s c :=
  comes_of_posed sort h (posed_of_asks hc)

omit [Ord K] [Ord Q] [KeyView K Q] in
/-- A handle has gone out of its place and is given up. -/
theorem comes_discard {b : β} (hwent : Went aug cs (fun _ => True) s {t} s₁)
    (hderived : s₁.derivedIn = s.derivedIn)
    (hheld : ∀ y, s₁.holding y = if y = x then none else s.holding y) :
    Comes excuse s (s.shadow.hold x none)
      ((discard t >>= fun _ => pure b : SessionM K V T β) s₁) := by
  have h₁ := hwent.tidy
  rw [← zero_add ({t} : Multiset Snapshot)] at h₁
  obtain ⟨s', hrun, -, hshadow⟩ := discard_shadow h₁
  rw [bind_of_ok hrun]
  refine .pure (hshadow.trans ?_)
  exact shadow_hold (o := none) h hwent.tidy (hwent.steady h) hderived (by simp) hheld

/-- The name is empty then, in the session and in the shadow. -/
theorem follows_drop (name : String) : Follows sort aug s (.drop name : Command K V Q) := by
  rw [Follows, execBy, Shadow.step, bind_get]
  cases ht : s.trees.get? name with
  | none => exact .pure (Shadow.hold_same (congrArg (Option.map s.figure) ht)).symm
  | some t =>
    dsimp only
    rw [bind_modify]
    exact comes_discard h (went_erase h ht) rfl holding_erase_eq

theorem follows_dropWalk (name : String) :
    Follows sort aug s (.dropWalk name : Command K V Q) := by
  rw [Follows, execBy, Shadow.step, bind_get]
  cases hw : s.walks.get? name with
  | none =>
    refine .pure (Shadow.hold_same ?_).symm
    exact congrArg (fun o => (o.map Walk.tree).map s.figure) hw
  | some w =>
    dsimp only
    rw [bind_modify]
    exact comes_discard h (went_eraseWalk h hw) rfl holding_eraseWalk_eq

omit [Ord K] [Ord Q] [KeyView K Q] in
/-- A tree that is held can be gone through. -/
theorem exists_traverse (ht : s.Has 0 t) :
    ∃ position, onView t.forest (fun f => f.traverse t) s = .ok position s := by
  obtain ⟨f, hf, hmem⟩ := ht
  obtain ⟨c, hc⟩ := h.exists_config hf
  obtain ⟨-, -, htended⟩ := h.tended t.forest f c hf hc
  obtain ⟨F, hF, hsound, -⟩ := htended.backs
  obtain ⟨p, hp, hroot⟩ := Forest.exists_tree hF hmem
  have hfull := Traversal.full_eq hsound (hsound.unfolds hp)
  rw [← hroot] at hfull
  refine ⟨⟨p.spine .left, p.spine .right, p.bare.size.toNat⟩, ?_⟩
  rw [onView, hf]
  dsimp only
  rw [Forest.traverse, hfull]

/-- The figure moves with the handle. -/
theorem follows_intoWalk (name dest : String) :
    Follows sort aug s (.intoWalk name dest : Command K V Q) := by
  rw [Follows, execBy, Shadow.step]
  refine comes_withTree fun t ht => ?_
  obtain ⟨position, hview⟩ := exists_traverse h (has_of_holding h (x := .tree name) ht)
  rw [bind_of_ok hview, bind_get, bind_modify]
  set s₁ : Session K V T := { s with trees := s.trees.erase name } with hs₁
  set s₂ : Session K V T := { s₁ with walks := s₁.walks.put dest ⟨t, position⟩ } with hs₂
  -- The tree goes out of its name, and then the walk comes under the other one.
  have h₁ : Went aug cs (fun _ => True) s {t} s₁ := went_erase h ht
  have h₂ : Went aug cs (fun _ => True) s
      (((s.walks.get? dest).map (·.tree)).toList : Multiset Snapshot) s₂ :=
    went_intoWalk h ht dest position
  have hshadow₁ : s₁.shadow = s.shadow.hold (.tree name) none :=
    shadow_hold (o := none) h h₁.tidy (steady_of_forests rfl) rfl (by simp) holding_erase_eq
  have hshadow₂ : s₂.shadow
      = (s.shadow.hold (.tree name) none).hold (.walk dest) (some (s.figure t)) := by
    rw [← hshadow₁]
    refine shadow_hold (o := some t) h₁.tidy h₂.tidy (steady_of_forests rfl) rfl ?_
      (holding_putWalk_eq ⟨t, position⟩)
    rintro u ⟨⟩
    exact has_of_mem h₁.tidy (by simp)
  cases hold : s.walks.get? dest with
  | none => exact .pure hshadow₂
  | some old =>
    have htidy := h₂.tidy
    rw [hold, Option.map_some, Option.toList_some, Multiset.coe_singleton,
      ← zero_add ({old.tree} : Multiset Snapshot)] at htidy
    obtain ⟨s', hrun, -, hshadow⟩ := discard_shadow htidy
    refine .of_ok (bind_of_ok hrun) fun _ => ?_
    exact hshadow.trans hshadow₂

omit h in
/-- A walk that goes on shows what it showed; only here can there be a fault. -/
theorem follows_pull (name : String) (pulls : List Pull) :
    Follows sort aug s (.pull name pulls : Command K V Q) := by
  rw [Follows, execBy, Shadow.step]
  rcases walk_cases name s with ⟨w, hw, hok⟩ | ⟨-, herror⟩
  · rw [bind_of_ok hok]
    rcases onView_cases w.tree.forest (fun f => w.position.pulls f.store pulls) s with
      ⟨-, ⟨ys, position⟩, -, -, hview⟩ | ⟨e, hview⟩
    · rw [bind_of_ok hview]
      refine .of_ok (bind_modify _ _ _) fun _ => ?_
      -- The walk goes on with the same tree.
      refine Shadow.ext rfl (funext fun y => congrArg (Option.map s.figure) ?_) rfl
      cases y with
      | tree _ => rfl
      | walk other =>
        by_cases hother : other = name
        · rw [hother, holding, holding, Names.get?_put_self, hw]
          rfl
        · exact congrArg (Option.map Walk.tree) (Names.get?_put_other _ _ hother)
      | registered _ _ => rfl
    · rw [bind_of_error hview]
      exact .error ⟨.inl rfl, fun _ => trivial⟩
  · rw [bind_of_error herror]
    exact .error ⟨.inl rfl, False.elim⟩

omit [Ord K] [Ord Q] [KeyView K Q] h in
/-- A registry with a handle that has been entered. -/
theorem holding_registered (hf : s.forests[n]? = some f)
    (hreg : f'.registry = (Forest.enter t f.registry).1) (y : Holder) :
    holding { s with forests := s.forests.setIfInBounds n f' } y
      = if y = .registered n t.version then some t else s.holding y := by
  cases y with
  | tree _ => rw [if_neg (by simp)]; rfl
  | walk _ => rw [if_neg (by simp)]; rfl
  | registered m w =>
    rw [holding, shelf_set hf]
    by_cases hm : m = n
    · subst hm
      rw [if_pos rfl, hreg, Forest.lookup_enter]
      by_cases hw : w = t.version
      · rw [if_pos hw, if_pos (by rw [hw])]
      · rw [if_neg hw, if_neg (by simpa using hw), holding, shelf_of_forest hf]
    · rw [if_neg hm, if_neg (by simp [hm])]
      rfl

omit [Ord K] in
/-- A copy of a tree that is held under a name comes into a registry, or the tree is of another
forest and everything stays where it is. -/
theorem register_ends (ht : s.trees.get? name = some t) :
    Ends (onForest n (Forest.register t) s)
      (fun _ s₁ => t.forest = n ∧ Went aug cs (fun _ => True) s 0 s₁ ∧ s₁.derivedIn = s.derivedIn ∧
        ∀ y, s₁.holding y = if y = .registered n t.version then some t else s.holding y)
      (fun e s₁ => ¬ e.IsFault ∧ t.forest ≠ n ∧ Went aug cs (fun _ => True) s 0 s₁ ∧
        s₁.derivedIn = s.derivedIn ∧ ∀ y, s₁.holding y = s.holding y) := by
  refine ((onForest_ends (L := fun _ => 0)
    (X := fun _ f f' => t.forest = n ∧ f'.registry = (Forest.enter t f.registry).1)
    (Y := fun e f f' => e = .refused .foreignTree ∧ t.forest ≠ n ∧ f' = f) h ?_).leaving
      derivedIn).mono ?_ ?_
  · rintro f c hf - rfl - htended
    refine ((Forest.register_spec htended (mem_named_of_tree ht)).and (Forest.register_ends htended
      fun hown => Forest.mem_held_of_own (mem_named_of_tree ht) hown)).mono ?_ ?_
    · rintro v f' ⟨⟨-, hreg, hon⟩, hown⟩
      exact ⟨fun u hu => absurd hu (Multiset.notMem_zero u), by rwa [add_zero], hown, hreg⟩
    · rintro e f' ⟨⟨hreg, hon⟩, hwhy, hforeign, rfl⟩
      exact ⟨hon, hwhy, hforeign, rfl⟩
  · rintro v s₁ ⟨⟨f, f', hf, ⟨hown, hreg⟩, rfl, hwent⟩, hderived⟩
    exact ⟨hown, hwent, hderived, holding_registered hf hreg⟩
  · rintro e s₁ ⟨⟨⟨rfl, rfl, hnone⟩ | ⟨e', f, f', rfl, hf, ⟨rfl, hforeign, rfl⟩, rfl⟩, hwent⟩,
      hderived⟩
    -- A handle is of a forest that is there, so where there is none it is of another.
    · refine ⟨not_false, ?_, hwent, hderived, fun _ => rfl⟩
      rintro rfl
      obtain ⟨f, hf, -⟩ := has_of_holding h (x := .tree name) ht
      rw [hnone] at hf
      cases hf
    · exact ⟨not_false, hforeign, hwent, hderived, holding_congr rfl rfl (shelf_set_of_eq hf rfl)⟩

/-- The version that the copy is registered under can be read off the figure. -/
theorem follows_register (n : Nat) (name : String) :
    Follows sort aug s (.register n name : Command K V Q) := by
  rw [Follows, execBy, Shadow.step]
  refine comes_withTree fun t ht => ?_
  refine .bind_of_lasting ((register_ends h ht).mono (fun _ _ hq => hq) ?_) (fun v s₁ h₁ => ?_)
    fun _ => inferInstance
  · rintro e s₁ ⟨hfault, hforeign, hwent, hderived, hheld⟩
    refine ⟨.inl ?_, fun hf => absurd hf hfault⟩
    exact (shadow_same h hwent.tidy (hwent.steady h) hderived hheld).trans (if_neg hforeign).symm
  · obtain ⟨hown, hwent, hderived, hheld⟩ := h₁
    refine .pure ((shadow_hold (o := some t) h hwent.tidy (hwent.steady h) hderived ?_
      hheld).trans (if_pos hown).symm)
    rintro u ⟨⟩
    exact has_of_holding h (x := .tree name) ht

omit [Ord K] in
/-- What is under a version is copied, and everything stays where it is. -/
theorem lookup_ends (v : UInt64) :
    Ends (onForest n (Forest.lookup v) s)
      (fun u s₁ => u = s.holding (.registered n v) ∧
        Went aug cs (fun _ => True) s (u.toList : Multiset Snapshot) s₁ ∧
        s₁.derivedIn = s.derivedIn ∧ ∀ y, s₁.holding y = s.holding y)
      (fun e s₁ => e = .noForest n ∧ s₁ = s ∧ s.forests[n]? = none) := by
  refine ((onForest_ends (L := fun u => (u.toList : Multiset Snapshot))
    (X := fun u f f' => u = f.registry.lookup v ∧ f'.registry = f.registry)
    (Y := fun _ _ _ => False) h ?_).leaving derivedIn).mono ?_ ?_
  · rintro f c hf - rfl - htended
    refine ((Forest.lookup_spec v htended).and (Forest.lookup_succeeds htended v)).mono ?_ ?_
    · rintro u f' ⟨⟨rfl, hreg, hon⟩, -⟩
      refine ⟨fun t ht => ?_, hon, rfl, hreg⟩
      exact (htended.mem_of_lookup (by simpa using ht)).2
    · rintro e f' ⟨-, hfalse⟩
      exact hfalse.elim
  · rintro u s₁ ⟨⟨f, f', hf, ⟨rfl, hreg⟩, rfl, hwent⟩, hderived⟩
    refine ⟨?_, hwent, hderived, holding_congr rfl rfl (shelf_set_of_eq hf hreg)⟩
    rw [holding, shelf_of_forest hf]
  · rintro e s₁ ⟨⟨hnone | ⟨e', f, f', -, -, hfalse, -⟩, -⟩, -⟩
    · exact hnone
    · exact hfalse.elim

/-- What is looked up is a copy, so the figure is there twice. -/
theorem follows_lookup (n : Nat) (v : UInt64) (dest : String) :
    Follows sort aug s (.lookup n v dest : Command K V Q) := by
  have hheld : s.shadow.held (.registered n v) = (s.holding (.registered n v)).map s.figure := rfl
  rw [Follows, execBy, Shadow.step, hheld]
  refine .bind_of_lasting ((lookup_ends h v).mono (fun _ _ hq => hq) ?_) (fun u s₁ h₁ => ?_)
    fun u => ?_
  · rintro e s₁ ⟨rfl, rfl, hnone⟩
    rw [holding_of_no_forest hnone]
    exact ⟨.inl rfl, False.elim⟩
  · obtain ⟨hu, hwent, hderived, hheld⟩ := h₁
    have hshadow := shadow_same h hwent.tidy (hwent.steady h) hderived hheld
    rw [← hu]
    cases u with
    | none => exact .pure hshadow
    | some t =>
      have htidy := hwent.tidy
      rw [Option.toList_some, Multiset.coe_singleton, ← zero_add ({t} : Multiset Snapshot)] at htidy
      obtain ⟨s', hrun, -, -, hstored⟩ := store_shadow htidy dest
      -- It is the handle in the registry once more, and shows what it did before.
      have hfigure := hwent.steady h t (has_of_holding h hu.symm) (has_of_mem hwent.tidy (by simp))
      refine .of_ok (bind_of_ok hrun) fun _ => ?_
      rw [hstored, hshadow, hfigure]
      rfl
  · cases u <;> infer_instance

/-- What is taken out of the registry is the handle itself, so the figure moves. -/
theorem follows_unregister (n : Nat) (v : UInt64) (dest : Option String) :
    Follows sort aug s (.unregister n v dest : Command K V Q) := by
  have hheld : s.shadow.held (.registered n v) = (s.holding (.registered n v)).map s.figure := rfl
  rw [Follows, execBy, Shadow.step, hheld]
  cases hf : s.forests[n]? with
  | none =>
    rw [bind_of_error (onForest_of_none hf), holding_of_no_forest hf]
    exact .error ⟨.inl rfl, False.elim⟩
  | some f =>
    obtain ⟨s₁, hok, hwent, hheld⟩ := unregister_eq h hf v
    have hderived := Leaves.of_ok derivedIn hok
    have hshadow := shadow_hold (o := none) h hwent.tidy (hwent.steady h) hderived (by simp) hheld
    rw [bind_of_ok hok]
    cases hu : s.holding (.registered n v) with
    | none =>
      refine .pure (hshadow.trans (Shadow.hold_same ?_))
      exact congrArg (Option.map s.figure) hu
    | some t =>
      rw [hu] at hwent
      cases dest with
      | none => exact comes_discard h hwent hderived hheld
      | some dest =>
        have htidy := hwent.tidy
        rw [Option.toList_some, Multiset.coe_singleton,
          ← zero_add ({t} : Multiset Snapshot)] at htidy
        obtain ⟨s', hrun, -, -, hstored⟩ := store_shadow htidy dest
        have hfigure := hwent.steady h t (has_of_holding h hu) (has_of_mem hwent.tidy (by simp))
        refine .of_ok (bind_of_ok hrun) fun _ => ?_
        rw [hstored, hshadow, hfigure]
        rfl

omit [Ord K] in
/-- What waits in a forest is taken back, and everything stays where it is. -/
theorem collect_ends :
    Ends (onForest n Forest.collect s)
      (fun _ s₁ => Went aug cs (fun _ => True) s 0 s₁ ∧ s₁.derivedIn = s.derivedIn ∧
        ∀ y, s₁.holding y = s.holding y)
      (fun e s₁ => e = .noForest n ∧ s₁ = s) := by
  refine ((onForest_ends (L := fun _ => 0) (X := fun _ f f' => f'.registry = f.registry)
    (Y := fun _ _ _ => False) h ?_).leaving derivedIn).mono ?_ ?_
  · rintro f c hf - rfl - htended
    obtain ⟨m, f', hrun, hadv⟩ := Forest.advance_collect htended.backs
    refine .of_ok hrun fun _ => ⟨fun u hu => absurd hu (Multiset.notMem_zero u), ?_, hadv.registry⟩
    rw [add_zero]
    exact htended.onward_zero hadv
  · rintro k s₁ ⟨⟨f, f', hf, hreg, rfl, hwent⟩, hderived⟩
    exact ⟨hwent, hderived, holding_congr rfl rfl (shelf_set_of_eq hf hreg)⟩
  · rintro e s₁ ⟨⟨⟨rfl, rfl, -⟩ | ⟨e', f, f', -, -, hfalse, -⟩, -⟩, -⟩
    · exact ⟨rfl, rfl⟩
    · exact hfalse.elim

/-- Nothing is seen of what is taken back. -/
theorem follows_collect (n : Nat) : Follows sort aug s (.collect n : Command K V Q) := by
  rw [Follows, execBy, Shadow.step]
  refine .bind_of_lasting ((collect_ends h).mono (fun _ _ hq => hq) ?_) (fun k s₁ h₁ => ?_)
    fun _ => inferInstance
  · rintro e s₁ ⟨rfl, rfl⟩
    exact ⟨.inl rfl, False.elim⟩
  · obtain ⟨hwent, hderived, hheld⟩ := h₁
    exact .pure (shadow_same h hwent.tidy (hwent.steady h) hderived hheld)

/-- Whatever a command does to a session, it does to the shadow. -/
theorem follows (c : Command K V Q) : Follows sort aug s c := by
  cases c with
  | empty _ _ | ofSorted _ _ _ | ofEntries _ _ _ | insert _ _ _ _ | remove _ _ _ | tryRemove _ _ _
  | split _ _ _ _ | join _ _ _ _ _ | concat _ _ _ | union _ _ _ _ | copy _ _ =>
    exact follows_of_asks sort h trivial
  | drop name => exact follows_drop sort h name
  | intoWalk name dest => exact follows_intoWalk sort h name dest
  | pull name pulls => exact follows_pull sort name pulls
  | dropWalk name => exact follows_dropWalk sort h name
  | register n name => exact follows_register sort h n name
  | lookup n v dest => exact follows_lookup sort h n v dest
  | unregister n v dest => exact follows_unregister sort h n v dest
  | collect n => exact follows_collect sort h n

end

end Session

end SharedForest

/-
What a command does to handles.

A command makes handles in one forest, or none at all, and whatever else is held after it has been
held before (`Issues`).  The handles it makes carry the numbers from the count of the forest on,
in order, and the count goes up by as many; an operation that answers with its own operand uses no
number up (`Numbers`), and neither does one that fails.  What stands in a registry afterwards depends
on the command alone (`filed`).

The shadow of a session would not do here, because it has no roots.  But most commands come down to
a request, as far as handles go just as for the shadow (`posed_of_asks`), and again there is one lemma
for all of these.
-/
import SharedForest.Proofs.Following
import SharedForest.Proofs.Unordered

set_option autoImplicit false

namespace SharedForest

open Alarmed

variable {γ K Q V T α β : Type}

/-! ## The numbers an operation uses up -/

/-- What is known of the count in all cases is known in silence. -/
theorem Numbered.ends {σ : Type} [Alarmed σ] {count : σ → Nat} {next : Nat} {Q : α → σ → Prop}
    {r : EStateM.Result Failure σ α} (h : Numbered count next Q r) :
    Ends r Q fun _ s => count s = next := by
  cases r with
  | ok a s => exact fun _ => h
  | error e s => exact fun _ => h

/-- The operation answers with its own operand. -/
def Request.Reuses [Ord Q] [KeyView K Q] (q : Request K V Q γ Snapshot) (f : Forest K V T) : Prop :=
  match q with
  | .copy _ => True
  | .remove t key => f.containsKey t key = .ok false
  | _ => False

namespace Forest

variable {f f' : Forest K V T} {c : Config} {F : Multiset (Placed (Node K V T))}
  {H : Multiset Snapshot} {p : Placed (Node K V T)} {t u : Snapshot}

/-- The snapshots carry the numbers from `next` on, in order, and these are used up. -/
def Stamps (next : Nat) (ts : List Snapshot) (f : Forest K V T) : Prop :=
  ts.map (·.version) = (List.range' next ts.length).map UInt64.ofNat ∧
    f.derived = next + ts.length

/-- One snapshot is a list of snapshots. -/
theorem stamps_one {next : Nat} (h : Stamped next t f) : Stamps next [t] f := by
  obtain ⟨hversion, hderived⟩ := h
  exact ⟨by rw [List.map_singleton, hversion]; rfl, hderived⟩

/-- Numbers from `next` on can be read off the tags as long as they are words. -/
theorem tag_bounds {next : Nat} {ts : List Snapshot}
    (h : ts.map (·.version) = (List.range' next ts.length).map UInt64.ofNat)
    (hfew : next + ts.length ≤ 2 ^ 64) (ht : t ∈ ts) :
    next ≤ t.version.toNat ∧ t.version.toNat < next + ts.length := by
  have hmem : t.version ∈ (List.range' next ts.length).map UInt64.ofNat := by
    rw [← h]
    exact List.mem_map_of_mem ht
  obtain ⟨k, hk, hversion⟩ := List.mem_map.1 hmem
  have hbounds := List.mem_range'_1.1 hk
  rwa [← hversion, UInt64.toNat_ofNat_of_lt' (by show k < 2 ^ 64; omega)]

/-- What an answer says about numbers. -/
structure Numbers [Ord Q] [KeyView K Q] (f : Forest K V T) (q : Request K V Q γ Snapshot)
    (r : Reply V γ Snapshot) (f' : Forest K V T) : Prop where
  reused : q.Reuses f → (∃ t ∈ q.host?, r = .tree t) ∧ f'.derived = f.derived
  fresh : ¬ q.Reuses f → Stamps f.derived r.trees f'

section

variable [Ord Q] [KeyView K Q]

theorem numbers_of_stamps {q : Request K V Q γ Snapshot} {r : Reply V γ Snapshot}
    (hq : ¬ q.Reuses f) (h : Stamps f.derived r.trees f') : Numbers f q r f' :=
  ⟨fun hreuses => absurd hreuses hq, fun _ => h⟩

/-- A removal that finds nothing answers with a copy, and only then no number is used up. -/
theorem numbers_remove (key : Q) (h : f.store.Sound c F) (hp : p ∈ F) (ht : t.root = p.root) :
    Ends (remove t key f)
      (fun u f' => Numbers f (.remove t key : Request K V Q γ Snapshot) (.tree u) f')
      (fun _ f' => f'.derived = f.derived) := by
  have hnum := numbered_tryRemove t key f
  have hmissing := tryRemove_missing_iff key h hp ht
  rw [remove]
  cases hr : tryRemove t key f with
  | ok res f₁ =>
    rw [hr] at hnum hmissing
    refine fun hquiet => numbers_of_stamps (fun hreuses => ?_) (stamps_one hnum)
    obtain ⟨f₂, hrun⟩ := (hmissing hquiet).2 hreuses
    cases hrun
  | error e f₁ =>
    rw [hr] at hnum hmissing
    have hcopy := numbered_copy t f₁
    rw [show f₁.derived = f.derived from hnum] at hcopy
    split <;> rename_i heq <;> cases heq
    -- There is nothing to remove, so the answer is a copy.
    · by_cases hrung : Rung f₁
      · exact .of_rung ((lasting_copy t).rung f₁ hrung)
      have hreuses := (hmissing hrung).1 ⟨f₁, rfl⟩
      refine hcopy.ends.weaken ?_
      rintro u f' ⟨rfl, hderived⟩
      exact ⟨fun _ => ⟨⟨u, rfl, rfl⟩, hderived⟩, fun hnot => absurd hreuses hnot⟩
    · exact .error hnum

end

variable [Ord K] [Ord Q] [KeyView K Q] {sort : List (K × V) → List (K × V)}

/-- An operation that answers with its own operand derives nothing, and any other answer is stamped
with the next numbers; one that fails uses no number up. -/
theorem numbers_run (hF : F.map Tree.root = H.map Snapshot.root) (h : f.store.Sound c F)
    (q : Request K V Q γ Snapshot) (hq : q.Posed f H) :
    Ends (q.run sort f) (Numbers f q) fun _ f' => f'.derived = f.derived := by
  have hmade : ¬ q.Reuses f → ∀ {m : ForestM K V T Snapshot},
      Numbered Forest.derived f.derived (Stamped f.derived) (m f) →
      Ends ((Reply.tree <$> m) f) (Numbers f q) fun _ f' => f'.derived = f.derived :=
    fun hfresh _ hm => .map (hm.ends.weaken fun u f' hstamp =>
      numbers_of_stamps hfresh (stamps_one hstamp))
  cases q with
  | empty => exact hmade not_false (numbered_empty f)
  | ofSorted items => exact hmade not_false (numbered_ofSorted items f)
  | ofEntries items => exact hmade not_false (numbered_ofSorted _ f)
  | insert t k v => exact hmade not_false (numbered_insert t k v f)
  | join l k v r => exact hmade not_false (numbered_join l k v r f)
  | concat l r => exact hmade not_false (numbered_concat l r f)
  -- If the key is absent the operand itself is the answer, and no number is used up.
  | remove t key =>
    obtain ⟨p, hp, hroot⟩ := exists_tree hF (hq.host t rfl).2
    exact .map (numbers_remove key h hp hroot)
  | tryRemove t key =>
    exact .map ((numbered_tryRemove t key f).ends.weaken fun res f' hstamp =>
      numbers_of_stamps not_false (stamps_one hstamp))
  | split t key =>
    refine .map ((numbered_split t key f).ends.weaken ?_)
    rintro ⟨l, found, r⟩ f' ⟨hbelow, habove, hderived⟩
    refine numbers_of_stamps not_false ⟨?_, hderived⟩
    rw [Reply.trees, List.map_cons, List.map_singleton, hbelow, habove]
    rfl
  | union a b merge state =>
    exact .map ((numbered_union merge a b state f).ends.weaken fun res f' hstamp =>
      numbers_of_stamps not_false (stamps_one hstamp))
  | copy t =>
    refine .map ((numbered_copy t f).ends.weaken ?_)
    rintro u f' ⟨rfl, hderived⟩
    exact ⟨fun _ => ⟨⟨u, rfl, rfl⟩, hderived⟩, fun hnot => absurd trivial hnot⟩

end Forest

/-! ## What a command does to handles -/

namespace Session

variable {aug : Augment K V T} {cs : List Config} {P : NodeTree K V T → Prop}
  {s s₀ s₁ s' : Session K V T} {t u : Snapshot} {n : Nat} {name dest : String} {x : Holder}
  {c : Command K V Q}

/-- Handles of forest `n` have been made and carry its next numbers; whatever else is held has been
held before. -/
structure Issues (s : Session K V T) (n : Nat) (made : List Snapshot) (s' : Session K V T) :
    Prop where
  held : ∀ x t, s'.holding x = some t → (∃ y, s.holding y = some t) ∨ t ∈ made
  own : ∀ t ∈ made, t.forest = n
  tags : made.map (·.version) = (List.range' (s.derivedIn n) made.length).map UInt64.ofNat
  derived : s'.derivedIn =
    fun m => if m = n then s.derivedIn n + made.length else s.derivedIn m

/-- What is registered under a tag after a command has been carried out. -/
def filed (s : Session K V T) (c : Command K V Q) (n : Nat) (v : UInt64) : Option Snapshot :=
  match c with
  | .register m name =>
    match s.trees.get? name with
    | some t => if m = n ∧ t.forest = n ∧ t.version = v then some t else s.holding (.registered n v)
    | none => s.holding (.registered n v)
  | .unregister m w _ => if m = n ∧ w = v then none else s.holding (.registered n v)
  | _ => s.holding (.registered n v)

/-- What a command has done to handles, tags and registries. -/
structure Accounted (s : Session K V T) (c : Command K V Q) (s' : Session K V T) : Prop where
  issues : ∃ n made, Issues s n made s'
  files : ∀ n v, s'.holding (.registered n v) = s.filed c n v

/-- A command that makes no handle has only to say where the handles went. -/
theorem accounted_of_held (hheld : ∀ x t, s'.holding x = some t → ∃ y, s.holding y = some t)
    (hderived : s'.derivedIn = s.derivedIn)
    (hfiles : ∀ n v, s'.holding (.registered n v) = s.filed c n v) : Accounted s c s' := by
  refine ⟨⟨0, [], fun x t ht => .inl (hheld x t ht), by simp, rfl, ?_⟩, hfiles⟩
  rw [hderived]
  funext m
  split
  · rename_i hm
    rw [hm]
    rfl
  · rfl

/-- Everything is held where it was. -/
theorem accounted_of_same (hheld : ∀ x, s'.holding x = s.holding x)
    (hderived : s'.derivedIn = s.derivedIn)
    (hfiled : ∀ n v, s.holding (.registered n v) = s.filed c n v) : Accounted s c s' :=
  accounted_of_held (fun x _ ht => ⟨x, (hheld x).symm.trans ht⟩) hderived
    fun n v => (hheld _).trans (hfiled n v)

/-- Everything is held where it was but at `x`, where there is nothing, or what is held elsewhere
too. -/
theorem accounted_of_hold {o : Option Snapshot}
    (hheld : ∀ y, s'.holding y = if y = x then o else s.holding y)
    (ho : ∀ t ∈ o, ∃ y, s.holding y = some t) (hderived : s'.derivedIn = s.derivedIn)
    (hfiled : ∀ n v,
      (if .registered n v = x then o else s.holding (.registered n v)) = s.filed c n v) :
    Accounted s c s' := by
  refine accounted_of_held (fun y t ht => ?_) hderived fun n v => (hheld _).trans (hfiled n v)
  rw [hheld] at ht
  split at ht
  · exact ho t ht
  · exact ⟨y, ht⟩

/-- Handles are kept under names, one after another. -/
theorem storeAll_spec {dests : List String} {ts : List Snapshot}
    (h : Went aug cs P s₀ (ts : Multiset Snapshot) s) (hlen : dests.length = ts.length) :
    ∃ s', storeAll dests ts s = .ok () s' ∧ s'.derivedIn = s.derivedIn ∧
      (∀ x t, s'.holding x = some t → s.holding x = some t ∨ t ∈ ts) ∧
      ∀ n v, s'.holding (.registered n v) = s.holding (.registered n v) := by
  induction ts generalizing s dests with
  | nil =>
    obtain rfl := List.length_eq_zero_iff.1 hlen
    exact ⟨s, rfl, rfl, fun _ _ ht => .inl ht, fun _ _ => rfl⟩
  | cons t ts ih =>
    obtain ⟨dest, dests, rfl⟩ := List.exists_cons_of_length_eq_add_one hlen
    rw [← Multiset.cons_coe, ← Multiset.singleton_add, add_comm] at h
    obtain ⟨s₁, hrun, h₁, htrees, hwalks, hshelf⟩ := store_spec h dest
    have hheld₁ := holding_store htrees hwalks hshelf
    obtain ⟨s', hrun', hderived, hheld, hfiled⟩ := ih h₁ (by simpa using hlen)
    refine ⟨s', ?_, hderived.trans (Leaves.of_ok derivedIn hrun), fun x u hu => ?_, fun n v => ?_⟩
    · rw [storeAll, bind_of_ok hrun, hrun']
    · rcases hheld x u hu with hu | hu
      · rw [hheld₁] at hu
        split at hu
        · exact .inr (Option.some.inj hu ▸ List.mem_cons_self)
        · exact .inl hu
      · exact .inr (List.mem_cons_of_mem t hu)
    · rw [hfiled, hheld₁, if_neg (by simp)]

section

variable [Ord K] [Ord Q] [KeyView K Q] (sort : List (K × V) → List (K × V))

/-- The command is accounted for, however it ends. -/
def Accounts (s : Session K V T) (c : Command K V Q) : Prop :=
  Ends (execBy sort (fun _ _ => .ok ()) c s) (fun _ s' => Accounted s c s')
    fun _ s' => Accounted s c s'

variable {sort}

omit [Ord K] [Ord Q] [KeyView K Q] in
/-- A command that needs a tree by name. -/
theorem accounts_withTree {k : Snapshot → SessionM K V T β} (hnone : Accounted s c s)
    (hk : ∀ t, s.trees.get? name = some t →
      Ends (k t s) (fun _ s' => Accounted s c s') fun _ s' => Accounted s c s') :
    Ends ((tree name >>= k) s) (fun _ s' => Accounted s c s') fun _ s' => Accounted s c s' := by
  rcases tree_cases name s with ⟨t, ht, hok⟩ | ⟨-, herror⟩
  · rw [bind_of_ok hok]
    exact hk t ht
  · rw [bind_of_error herror]
    exact .error hnone

/-- A request that is put to a forest of the session, and the tags on the trees of the answer. -/
theorem ask_numbers (h : s.Tidy aug cs (fun _ => True) 0) {q : Request K V Q γ Snapshot}
    {op : ForestM K V T α} {g : α → Reply V γ Snapshot} (hop : q.run sort = g <$> op)
    (hq : q.Among s.handles n) :
    Ends (onForest n op s)
      (fun a s₁ => ∃ f f', s.forests[n]? = some f ∧ ((∀ t ∈ (g a).trees, t.forest = n) ∧
        f'.registry = f.registry ∧ Forest.Numbers f q (g a) f') ∧
        s₁ = { s with forests := s.forests.setIfInBounds n f' } ∧
        Went aug cs (fun _ => True) s ((g a).trees : Multiset Snapshot) s₁)
      fun _ s₁ => (∀ x, s₁.holding x = s.holding x) ∧ s₁.derivedIn = s.derivedIn := by
  refine (onForest_ends (Y := fun e f f' => f'.registry = f.registry ∧ f'.derived = f.derived) h
    ?_).mono (fun _ _ ha => ha) ?_
  · rintro f c hf hc rfl rfl htended
    have hheld := h.held_eq hf
    obtain ⟨F, hF, hsound, hall⟩ := htended.backs
    have hfares : Forest.Fares sort f c F _ q :=
      Forest.fares hF hsound q (hheld ▸ h.posed hf hq)
    have hends := hfares.and (Forest.numbers_run hF hsound q (hheld ▸ h.posed hf hq))
    rw [hop] at hends
    refine hends.of_map.mono ?_ ?_
    · rintro a f' ⟨⟨-, hadv⟩, hnum⟩
      exact ⟨hadv.own, htended.onward hadv, fun t ht => hadv.own t (Multiset.mem_coe.2 ht),
        hadv.registry, hnum⟩
    · rintro e f' ⟨⟨-, hholds, hderived⟩, -⟩
      exact ⟨htended.onward_zero (Forest.advance_of_holds hF hsound hall hholds), hholds.registry,
        hderived⟩
  · rintro e s₁ ⟨⟨-, rfl, -⟩ | ⟨e', f, f', -, hf, ⟨hreg, hderived⟩, rfl⟩, -⟩
    · exact ⟨fun _ => rfl, rfl⟩
    · exact ⟨holding_congr rfl rfl (shelf_set_of_eq hf hreg), derivedIn_set_of_eq hf hderived⟩

/-- A request, and what is done with the trees of the answer. -/
theorem accounts_make (h : s.Tidy aug cs (fun _ => True) 0) {q : Request K V Q γ Snapshot}
    {k : α → SessionM K V T β} {op : ForestM K V T α} {g : α → Reply V γ Snapshot}
    {dests : List String} (hop : q.run sort = g <$> op)
    (hlen : ∀ a, dests.length = (g a).trees.length) (hlast : ∀ a, Lasting (k a))
    (hk : ∀ a s₁ s', storeAll dests (g a).trees s₁ = .ok () s' → ∃ b, k a s₁ = .ok b s')
    (hq : q.Among s.handles n) (hc : ∀ n v, s.holding (.registered n v) = s.filed c n v) :
    Ends ((onForest n op >>= k) s) (fun _ s' => Accounted s c s') fun _ s' => Accounted s c s' := by
  refine .bind_of_lasting ((ask_numbers h hop hq).mono (fun _ _ ha => ha) ?_) (fun a s₁ h₁ => ?_)
    hlast
  · rintro e s₁ ⟨hheld, hderived⟩
    exact accounted_of_same hheld hderived hc
  · obtain ⟨f, f', hf, ⟨hown, hreg, hnum⟩, rfl, hwent⟩ := h₁
    set s₁ : Session K V T := { s with forests := s.forests.setIfInBounds n f' }
    have hheld₁ : ∀ x, s₁.holding x = s.holding x :=
      holding_congr rfl rfl (shelf_set_of_eq hf hreg)
    obtain ⟨s', hrun, hderived', hheld, hfiled⟩ := storeAll_spec hwent (hlen a)
    obtain ⟨b, hrun'⟩ := hk a s₁ s' hrun
    have hfiles : ∀ n v, s'.holding (.registered n v) = s.filed c n v := fun n v =>
      (hfiled n v).trans ((hheld₁ _).trans (hc n v))
    refine .of_ok hrun' fun _ => ?_
    by_cases hreuses : q.Reuses f
    -- The operand has been held all along.
    · obtain ⟨⟨t, ht, hanswer⟩, hderived⟩ := hnum.reused hreuses
      refine accounted_of_held (fun x u hu => ?_)
        (hderived'.trans (derivedIn_set_of_eq hf hderived)) hfiles
      rcases hheld x u hu with hu | hu
      · exact ⟨x, (hheld₁ x).symm.trans hu⟩
      · rw [hanswer, Reply.trees, List.mem_singleton] at hu
        exact exists_holder h (hu ▸ (hq.host t ht).1)
    · obtain ⟨htags, hderived⟩ := hnum.fresh hreuses
      refine ⟨⟨n, (g a).trees, fun x u hu => ?_, hown, ?_, ?_⟩, hfiles⟩
      · rcases hheld x u hu with hu | hu
        · exact .inl ⟨x, (hheld₁ x).symm.trans hu⟩
        · exact .inr hu
      · rw [derivedIn_of_forest hf]
        exact htags
      · rw [hderived', derivedIn_set hf, hderived, derivedIn_of_forest hf]

/-- A command that asks a forest for trees is accounted for, and registers nothing. -/
theorem accounts_of_posed (h : s.Tidy aug cs (fun _ => True) 0)
    {r : EStateM.Result Trouble (Session K V T) β} {after : Augment K V T → Shadow K V T}
    (hr : Posed (Q := Q) sort s r after)
    (hc : ∀ n v, s.holding (.registered n v) = s.filed c n v) :
    Ends r (fun _ s' => Accounted s c s') fun _ s' => Accounted s c s' := by
  cases hr with
  | request q g op k dests run serves length lasts keeps among _ =>
    rw [run]
    exact accounts_make h serves length lasts keeps among hc
  | lost name run _ =>
    rw [run]
    exact .error (accounted_of_same (fun _ => rfl) rfl hc)

omit [Ord K] [Ord Q] [KeyView K Q] in
/-- Where a handle is given up that is held nowhere, everything else stays where it is. -/
theorem discard_spec_same (h : Went aug cs P s₀ {t} s₁) :
    ∃ s', discard t s₁ = .ok () s' ∧ s'.derivedIn = s₁.derivedIn ∧
      ∀ x, s'.holding x = s₁.holding x := by
  rw [← zero_add ({t} : Multiset Snapshot)] at h
  obtain ⟨s', hrun, -, htrees, hwalks, hshelf⟩ := discard_spec h
  exact ⟨s', hrun, Leaves.of_ok derivedIn hrun, holding_congr htrees hwalks hshelf⟩

omit [Ord K] [Ord Q] [KeyView K Q] in
/-- The same for a handle that is kept under a name. -/
theorem store_spec_hold (h : Went aug cs P s₀ {t} s₁) (dest : String) :
    ∃ s', store (fun _ _ => .ok ()) dest t s₁ = .ok () s' ∧ s'.derivedIn = s₁.derivedIn ∧
      ∀ x, s'.holding x = if x = .tree dest then some t else s₁.holding x := by
  rw [← zero_add ({t} : Multiset Snapshot)] at h
  obtain ⟨s', hrun, -, htrees, hwalks, hshelf⟩ := store_spec h dest
  exact ⟨s', hrun, Leaves.of_ok derivedIn hrun, holding_store htrees hwalks hshelf⟩

variable (h : s.Tidy aug cs (fun _ => True) 0)
include h

/-- A handle is given up, and no other is touched. -/
theorem accounts_drop (name : String) : Accounts sort s (.drop name : Command K V Q) := by
  rw [Accounts, execBy, bind_get]
  cases ht : s.trees.get? name with
  | none => exact .pure (accounted_of_same (fun _ => rfl) rfl fun _ _ => rfl)
  | some t =>
    dsimp only
    rw [bind_modify]
    obtain ⟨s', hrun, hderived, hheld⟩ := discard_spec_same (went_erase h ht)
    refine .of_ok (bind_of_ok hrun) fun _ => ?_
    exact accounted_of_hold (o := none) (fun x => (hheld x).trans (holding_erase_eq x)) (by simp)
      hderived fun _ _ => if_neg (by simp)

theorem accounts_dropWalk (name : String) :
    Accounts sort s (.dropWalk name : Command K V Q) := by
  rw [Accounts, execBy, bind_get]
  cases hw : s.walks.get? name with
  | none => exact .pure (accounted_of_same (fun _ => rfl) rfl fun _ _ => rfl)
  | some w =>
    dsimp only
    rw [bind_modify]
    obtain ⟨s', hrun, hderived, hheld⟩ := discard_spec_same (went_eraseWalk h hw)
    refine .of_ok (bind_of_ok hrun) fun _ => ?_
    exact accounted_of_hold (o := none) (fun x => (hheld x).trans (holding_eraseWalk_eq x))
      (by simp) hderived fun _ _ => if_neg (by simp)

/-- The handle that the walk goes through is the one that was under the name. -/
theorem accounts_intoWalk (name dest : String) :
    Accounts sort s (.intoWalk name dest : Command K V Q) := by
  rw [Accounts, execBy]
  refine accounts_withTree (accounted_of_same (fun _ => rfl) rfl fun _ _ => rfl) fun t ht => ?_
  obtain ⟨position, hview⟩ := exists_traverse h (has_of_holding h (x := .tree name) ht)
  rw [bind_of_ok hview, bind_get, bind_modify]
  set s₁ : Session K V T :=
    { s with trees := s.trees.erase name, walks := s.walks.put dest ⟨t, position⟩ } with hs₁
  have hheld₁ : ∀ x, s₁.holding x = if x = .walk dest then some t
      else if x = .tree name then none else s.holding x := fun x =>
    (holding_putWalk_eq (s := { s with trees := s.trees.erase name }) ⟨t, position⟩ x).trans
      (by rw [holding_erase_eq])
  have hdone : ∀ s', s'.derivedIn = s.derivedIn → (∀ x, s'.holding x = s₁.holding x) →
      Accounted s (.intoWalk name dest : Command K V Q) s' := by
    intro s' hderived hheld
    refine accounted_of_held (fun x u hu => ?_) hderived fun n v => ?_
    · rw [hheld, hheld₁] at hu
      split at hu
      · exact ⟨.tree name, ht.trans hu⟩
      · split at hu
        · cases hu
        · exact ⟨x, hu⟩
    · rw [hheld, hheld₁, if_neg (by simp), if_neg (by simp)]
      rfl
  have hwent := went_intoWalk h ht dest position
  cases hold : s.walks.get? dest with
  | none => exact .pure (hdone _ rfl fun _ => rfl)
  | some old =>
    rw [hold] at hwent
    obtain ⟨s', hrun, hderived, hheld⟩ := discard_spec_same hwent
    exact .of_ok (bind_of_ok hrun) fun _ => hdone s' hderived hheld

omit h in
/-- The same handle stays with the walk. -/
theorem accounts_pull (name : String) (pulls : List Pull) :
    Accounts sort s (.pull name pulls : Command K V Q) := by
  rw [Accounts, execBy]
  rcases walk_cases name s with ⟨w, hw, hok⟩ | ⟨-, herror⟩
  · rw [bind_of_ok hok]
    rcases onView_cases w.tree.forest (fun f => w.position.pulls f.store pulls) s with
      ⟨-, ⟨ys, position⟩, -, -, hview⟩ | ⟨e, hview⟩
    · rw [bind_of_ok hview]
      refine .of_ok (bind_modify _ _ _) fun _ => ?_
      -- The walk goes on with the same tree.
      refine accounted_of_same (fun x => (holding_putWalk_eq { w with position } x).trans ?_) rfl
        fun _ _ => rfl
      split
      · rename_i hx
        rw [hx, holding, hw]
        rfl
      · rfl
    · rw [bind_of_error hview]
      exact .error (accounted_of_same (fun _ => rfl) rfl fun _ _ => rfl)
  · rw [bind_of_error herror]
    exact .error (accounted_of_same (fun _ => rfl) rfl fun _ _ => rfl)

/-- A copy of what is under the name is filed under its version. -/
theorem accounts_register (n : Nat) (name : String) :
    Accounts sort s (.register n name : Command K V Q) := by
  rw [Accounts, execBy]
  have hlost : ∀ m v, s.trees.get? name = none →
      s.holding (.registered m v) = s.filed (.register n name : Command K V Q) m v := by
    intro m v hnone
    rw [filed, hnone]
  rcases tree_cases name s with ⟨t, ht, hok⟩ | ⟨hnone, herror⟩
  · have hfiled : ∀ m v, s.filed (.register n name : Command K V Q) m v
        = if n = m ∧ t.forest = m ∧ t.version = v then some t else s.holding (.registered m v) := by
      intro m v
      rw [filed, ht]
    rw [bind_of_ok hok]
    refine .bind_of_lasting ((register_ends h ht).mono (fun _ _ hq => hq) ?_) (fun v s₁ h₁ => ?_)
      fun _ => inferInstance
    · rintro e s₁ ⟨-, hforeign, -, hderived, hheld⟩
      refine accounted_of_same hheld hderived fun m v => ?_
      rw [hfiled, if_neg]
      rintro ⟨rfl, hown, -⟩
      exact hforeign hown
    · obtain ⟨hown, -, hderived, hheld⟩ := h₁
      refine .pure (accounted_of_hold (o := some t) hheld ?_ hderived fun m v => ?_)
      · rintro u ⟨⟩
        exact ⟨.tree name, ht⟩
      · rw [hfiled, hown]
        congr 1
        simp only [Holder.registered.injEq, eq_iff_iff]
        constructor
        · rintro ⟨rfl, rfl⟩
          exact ⟨rfl, rfl, rfl⟩
        · rintro ⟨rfl, -, rfl⟩
          exact ⟨rfl, rfl⟩
  · rw [bind_of_error herror]
    exact .error (accounted_of_same (fun _ => rfl) rfl fun m v => hlost m v hnone)

/-- What is handed out is what is filed. -/
theorem accounts_lookup (n : Nat) (v : UInt64) (dest : String) :
    Accounts sort s (.lookup n v dest : Command K V Q) := by
  rw [Accounts, execBy]
  refine .bind_of_lasting ((lookup_ends h v).mono (fun _ _ hq => hq) ?_) (fun u s₁ h₁ => ?_)
    fun u => ?_
  · rintro e s₁ ⟨rfl, rfl, -⟩
    exact accounted_of_same (fun _ => rfl) rfl fun _ _ => rfl
  · obtain ⟨hu, hwent, hderived, hheld⟩ := h₁
    cases u with
    | none => exact .pure (accounted_of_same hheld hderived fun _ _ => rfl)
    | some t =>
      obtain ⟨s', hrun, hderived', hheld'⟩ := store_spec_hold hwent dest
      refine .of_ok (bind_of_ok hrun) fun _ => ?_
      refine accounted_of_hold (o := some t) (fun x => (hheld' x).trans (by rw [hheld])) ?_
        (hderived'.trans hderived) fun _ _ => if_neg (by simp)
      rintro w ⟨⟩
      exact ⟨_, hu.symm⟩
  · cases u <;> infer_instance

/-- What is handed out is not filed any more. -/
theorem accounts_unregister (n : Nat) (v : UInt64) (dest : Option String) :
    Accounts sort s (.unregister n v dest : Command K V Q) := by
  rw [Accounts, execBy]
  have hfiled : ∀ m w, (if Holder.registered m w = .registered n v then none
      else s.holding (.registered m w))
        = s.filed (.unregister n v dest : Command K V Q) m w := by
    intro m w
    rw [filed]
    congr 1
    simp only [Holder.registered.injEq, eq_iff_iff]
    constructor <;> rintro ⟨rfl, rfl⟩ <;> exact ⟨rfl, rfl⟩
  cases hf : s.forests[n]? with
  | none =>
    rw [bind_of_error (onForest_of_none hf)]
    refine .error (accounted_of_same (fun _ => rfl) rfl fun m w => ?_)
    -- In a forest that is not there nothing has been registered.
    rw [← hfiled]
    split
    · rename_i hmw
      rw [hmw, holding_of_no_forest hf]
    · rfl
  | some f =>
    obtain ⟨s₁, hok, hwent, hheld⟩ := unregister_eq h hf v
    have hderived := Leaves.of_ok derivedIn hok
    rw [bind_of_ok hok]
    cases hu : s.holding (.registered n v) with
    | none => exact .pure (accounted_of_hold (o := none) hheld (by simp) hderived hfiled)
    | some t =>
      rw [hu] at hwent
      cases dest with
      | none =>
        obtain ⟨s', hrun, hderived', hheld'⟩ := discard_spec_same hwent
        refine .of_ok (bind_of_ok hrun) fun _ => ?_
        exact accounted_of_hold (o := none) (fun x => (hheld' x).trans (hheld x)) (by simp)
          (hderived'.trans hderived) hfiled
      | some dest =>
        obtain ⟨s', hrun, hderived', hheld'⟩ := store_spec_hold hwent dest
        refine .of_ok (bind_of_ok hrun) fun _ => ?_
        refine accounted_of_held (fun x w hw => ?_) (hderived'.trans hderived) fun m w => ?_
        · rw [hheld', hheld] at hw
          split at hw
          · exact ⟨_, hu.trans hw⟩
          · split at hw
            · cases hw
            · exact ⟨x, hw⟩
        · rw [hheld', if_neg (by simp), hheld, hfiled]

/-- No handle is moved. -/
theorem accounts_collect (n : Nat) : Accounts sort s (.collect n : Command K V Q) := by
  rw [Accounts, execBy]
  refine .bind_of_lasting ((collect_ends h).mono (fun _ _ hq => hq) ?_) (fun k s₁ h₁ => ?_)
    fun _ => inferInstance
  · rintro e s₁ ⟨rfl, rfl⟩
    exact accounted_of_same (fun _ => rfl) rfl fun _ _ => rfl
  · obtain ⟨-, hderived, hheld⟩ := h₁
    exact .pure (accounted_of_same hheld hderived fun _ _ => rfl)

/-- Every command is accounted for. -/
theorem accounts (c : Command K V Q) : Accounts sort s c := by
  cases c with
  | empty _ _ | ofSorted _ _ _ | ofEntries _ _ _ | insert _ _ _ _ | remove _ _ _ | tryRemove _ _ _
  | split _ _ _ _ | join _ _ _ _ _ | concat _ _ _ | union _ _ _ _ | copy _ _ =>
    exact accounts_of_posed h (posed_of_asks trivial) fun _ _ => rfl
  | drop name => exact accounts_drop h name
  | intoWalk name dest => exact accounts_intoWalk h name dest
  | pull name pulls => exact accounts_pull name pulls
  | dropWalk name => exact accounts_dropWalk h name
  | register n name => exact accounts_register h n name
  | lookup n v dest => exact accounts_lookup h n v dest
  | unregister n v dest => exact accounts_unregister h n v dest
  | collect n => exact accounts_collect h n

/-- What a command leaves behind is accounted for. -/
theorem accounted_next (c : Command K V Q) (hquiet : ¬ Rung (next sort c s)) :
    Accounted s c (next sort c s) := by
  have hends : Accounts sort s c := accounts h c
  rw [Accounts] at hends
  rw [next] at hquiet ⊢
  cases hr : execBy sort (fun _ _ => .ok ()) c s <;> rw [hr] at hends hquiet <;>
    exact hends hquiet

end

end Session

end SharedForest

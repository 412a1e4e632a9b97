/-
Sizes never leave a word.

The operations of a forest make nodes only where the size of the new node is the number of its
entries, `builds_run`: the keys of their operands increase, because these are trees of handles, and
the rest is in `Proofs/Tallies`.  So the alarm for sizes is silent in all sessions that a run
reaches.  Nothing but `assemble` ever touches it, which is a matter of `Leaves` again.
-/
import SharedForest.Proofs.Tallies
import SharedForest.Proofs.Following
import SharedForest.Proofs.Atomicity
import SharedForest.Proofs.Waning

set_option autoImplicit false

namespace SharedForest

open Alarmed Store Tree Std

variable {γ K Q V T α β : Type}

/-! ## The alarm for sizes -/

/-- A subtree had more entries than a word can tell. -/
def Store.oversized {ν : Type} (s : Store ν) : Bool := s.alarms.sizeHigh

namespace StoreM

variable {ν : Type}

instance sized_retain (i : Nat) : Leaves Store.oversized (retain (ν := ν) i) := by
  constructor
  intro s
  unfold retain
  split <;> rfl

instance sized_share (root : Option Nat) : Leaves Store.oversized (share (ν := ν) root) := by
  cases root with
  | none => exact .pure _
  | some i => exact .bind (sized_retain i) fun _ => .pure _

/-- No reference that is given up makes a subtree larger. -/
instance sized_of_wanes {m : StoreM ν α} [Wanes m] : Leaves Store.oversized m :=
  (Wanes.leaves_excess (m := m)).comp Prod.snd

instance sized_allocate (c : Cell ν) : Leaves Store.oversized (allocate c) :=
  (excess_allocate c).comp Prod.snd

end StoreM

/-- The word that is added up is the one kept at the root. -/
theorem Tree.entries_data? (t : NodeTree K V T) : Node.entries t.data? = t.size.toNat := by
  cases t <;> rfl

/-- A node whose size is right does not ring the alarm. -/
theorem Subtree.oversized_assemble (aug : Augment K V T) (l : Option Nat) (k : K) (v : V)
    (c : Color) (r : Option Nat) (s : NodeStore K V T) (h : Tallied s l r)
    (hs : s.oversized = false) : (final (assemble aug l k v c r s)).oversized = false := by
  obtain ⟨p, q, rfl, rfl, hp, hq, -, hfits, -⟩ := h
  rw [assemble, bind_of_ok (guarding_of_ok (peeks_eq hp hq))]
  refine (Leaves.after Store.oversized (StoreM.allocate _) _).trans ?_
  show (s.alarms.sizeHigh || decide _) = false
  rw [entries_data?, entries_data?, decide_eq_false (Nat.not_lt.2 hfits), Bool.or_false]
  exact hs

/-- A run that makes only nodes with right sizes leaves the alarm as it was. -/
theorem Makes.oversized {σ : Type} [Stores σ (Node K V T)] {m : EStateM Failure σ α} {s : σ}
    (h : Makes Tallied m s) (hs : (Stores.store s).oversized = false) :
    (Stores.store (final (m s))).oversized = false :=
  h.keeps (I := fun s => s.oversized = false)
    (fun i s hs => (Leaves.after _ (StoreM.retain i) s).trans hs)
    (fun i s hs => (Leaves.after _ (StoreM.release i) s).trans hs) Subtree.oversized_assemble hs

/-! ## Operations on forests -/

namespace Forest

variable {c : Config} {F : Multiset (Placed (Node K V T))} {p q : Placed (Node K V T)}
  {f : Forest K V T} {t u : Snapshot} {H : Multiset Snapshot}
  {P : NodeStore K V T → Option Nat → Option Nat → Prop}

instance leaves_derive (root : Option Nat) :
    Leaves Stores.store (derive (K := K) (V := V) (T := T) root) := ⟨fun _ => rfl⟩

/-- A copy makes no node. -/
theorem makes_copy (t : Snapshot) (f : Forest K V T) : Makes P (copy t) f :=
  .bind (.onStore (.share t.root)) fun _ _ _ => .leaves (.pure _)

/-- An operation that has nothing left to do but to derive a snapshot. -/
theorem builds_derive {action : Augment K V T → NodeM K V T α} {g : α → Option Nat}
    [∀ aug, Lasting (action aug)] (h : Builds P (action f.augment) f.store) :
    Builds P (onStore action >>= fun a => derive (g a)) f :=
  .finish (.onStore h) inferInstance fun _ _ => .leaves (leaves_derive _)

/-- An operation that starts with a reference to a held tree. -/
theorem builds_share {s : NodeStore K V T} {act : Option Nat → NodeM K V T α}
    [∀ root, Lasting (act root)] (h : s.Sound c F) (hp : p ∈ F)
    (hact : ∀ s', s'.Sound c (F + {p}) → Builds P (act p.root) s') :
    Builds P (StoreM.share p.root >>= act) s := by
  refine .bind (.of_makes (.share _)) (share_held (E := Never) h hp) fun root s' h' => ?_
  obtain ⟨rfl, h'⟩ := h'
  exact hact s' h'

/-- The same where a state is carried along. -/
theorem builds_share_carrying {s : NodeStore K V T} {g : γ}
    {act : Option Nat → CarryM γ (NodeStore K V T) α} [∀ root, Lasting (act root)]
    (h : s.Sound c F) (hp : p ∈ F)
    (hact : ∀ s', s'.Sound c (F + {p}) → Builds P (act p.root) (s', g)) :
    Builds P (CarryM.lift (StoreM.share p.root) >>= act) (s, g) := by
  refine .bind (.lift (.of_makes (.share _))) (.lift (c := c) (F := F) (share_held h hp))
    fun root sg' h' => ?_
  obtain ⟨s', rfl, rfl, h'⟩ := h'
  exact hact s' h'

/-- Nothing is made for a tree of another forest. -/
theorem makes_foreign {k : Unit → ForestM K V T α} (hown : u.forest ≠ f.id) :
    Makes P (requireOwn u >>= k) f := by
  refine .bind (.leaves inferInstance) fun a f' hr => ?_
  rw [requireOwn_eq, if_neg hown] at hr
  cases hr

section

variable [Ord K] [TransOrd K]

/-- The list is in order, or nothing is built. -/
theorem builds_ofSorted (items : List (K × V)) (h : f.store.Sound c F) :
    Builds Tallied (ofSorted items) f := by
  rw [ofSorted]
  cases hdis : firstDisorder items 0 with
  | some n => exact .leaves (.throw _)
  | none =>
    refine builds_derive ?_
    exact Subtree.builds_build f.augment h (increasing_of_firstDisorder hdis)

/-- The keys of a handle's tree increase. -/
theorem builds_insert (k : K) (v : V) (h : f.store.Sound c F) (hp : p ∈ F) (ht : t.root = p.root)
    (ho : Orderly f.augment p.bare) : Builds Tallied (insert t k v) f := by
  rw [insert, ht]
  refine builds_derive ?_
  exact builds_share h hp fun s₁ h₁ => Subtree.builds_insert f.augment k v h₁ ho

/-- The search comes first, and makes nothing. -/
theorem builds_tryRemove [Ord Q] [KeyView K Q] (key : Q) (h : f.store.Sound c F) (hp : p ∈ F)
    (ht : t.root = p.root) (ho : Orderly f.augment p.bare) :
    Builds Tallied (tryRemove t key) f := by
  rw [tryRemove]
  refine .step (.leaves inferInstance) (find_eq key h hp ht) ?_
  cases p.seek (sought key) with
  | none => exact .leaves (.throw _)
  | some x =>
    rw [ht]
    refine .finish (.onStore ?_) (fun res => ?_) fun res f' => ?_
    · exact builds_share h hp fun s₁ h₁ => Subtree.builds_remove f.augment key h₁ ho
    · obtain ⟨root, removed⟩ := res
      cases removed <;> infer_instance
    · obtain ⟨root, removed⟩ := res
      cases removed with
      | none => exact .bind (.onStore (.unshare root)) fun _ _ _ => .leaves (.throw _)
      | some v => exact .bind (.leaves (leaves_derive root)) fun _ _ _ => .leaves (.pure _)

omit [Ord K] [TransOrd K] in
/-- Removing is trying to, and copying the snapshot where the key is not there. -/
theorem remove_eq [Ord Q] [KeyView K Q] (t : Snapshot) (key : Q) :
    remove (K := K) (V := V) (T := T) t key
      = tryCatch ((·.1) <$> tryRemove t key) fun e =>
        if e = .refused .keyNotFound then copy t else throw e := by
  funext f
  show _ = EStateM.tryCatch (EStateM.map _ _) _ f
  rw [remove, EStateM.tryCatch, EStateM.map]
  cases tryRemove t key f with
  | ok res f' => rfl
  | error e f' =>
    dsimp only
    split <;> rename_i heq
    · cases heq
    · cases heq
      rfl
    · rename_i hne
      cases heq
      rw [if_neg hne]
      rfl

/-- A copy, where the key is missing, makes nothing either. -/
theorem builds_remove [Ord Q] [KeyView K Q] (key : Q) (h : f.store.Sound c F) (hp : p ∈ F)
    (ht : t.root = p.root) (ho : Orderly f.augment p.bare) : Builds Tallied (remove t key) f := by
  rw [remove_eq]
  refine .catch (.map _ (builds_tryRemove key h hp ht ho)) (fun e => inferInstance) fun e f' => ?_
  split
  · exact makes_copy t f'
  · exact .leaves (.throw e)

/-- The parts that are painted are parts of an orderly tree. -/
theorem builds_split [Ord Q] [KeyView K Q] (key : Q) (h : f.store.Sound c F) (hp : p ∈ F)
    (ht : t.root = p.root) (ho : Orderly f.augment p.bare) : Builds Tallied (split t key) f := by
  obtain ⟨hbelow, habove⟩ := ho.split (sought key)
  rw [split, ht]
  refine .finish (.onStore ?_) inferInstance fun res f' => ?_
  · refine builds_share h hp fun s₁ h₁ => ?_
    refine .bind (Subtree.builds_split f.augment key h₁ ho) (Subtree.split_spec f.augment key h₁)
      fun res s₂ h₂ => ?_
    obtain ⟨x, y, rfl, hx, hy, h₂⟩ := h₂
    rw [← hx] at hbelow
    rw [← hy] at habove
    have hown : s₂.Sound c (F + {y} + {x}) := h₂.cast (by abel)
    refine .bind (.guarding (Subtree.builds_blacken f.augment hown hbelow))
      (.guarding_one y (Subtree.blacken_spec f.augment hown)) fun root s₃ h₃ => ?_
    obtain ⟨x', rfl, -, h₃⟩ := h₃
    exact .finish (.guarding (Subtree.builds_blacken f.augment
      (h₃.cast (by abel) : s₃.Sound c (F + {x'} + {y})) habove)) inferInstance
      fun _ _ => .leaves (.pure _)
  · obtain ⟨l, found, r⟩ := res
    exact .bind (.leaves (leaves_derive l)) fun _ _ _ =>
      .bind (.leaves (leaves_derive r)) fun _ _ _ => .leaves (.pure _)

/-- What the checks have let through stands in order. -/
theorem builds_join (k : K) (v : V) (h : f.store.Sound c F) (hp : p ∈ F) (ht : t.root = p.root)
    (hq : q ∈ F) (hu : u.root = q.root) (hown : u.forest = f.id) (hop : Orderly f.augment p.bare)
    (hoq : Orderly f.augment q.bare) : Builds Tallied (join t k v u) f := by
  have hreq := requireOwn_eq u f
  rw [if_pos hown] at hreq
  rw [join]
  refine .step (.leaves inferInstance) hreq ?_
  have hbefores : Ends (requireBefore t k f) (Passed f (EndsBefore p.bare k))
      (Refused f c F fun _ => True) := requireBefore_spec k h hp ht fun _ => trivial
  have hafters : Ends (requireAfter u k f) (Passed f (StartsAfter q.bare k))
      (Refused f c F fun _ => True) := requireAfter_spec k h hq hu fun _ => trivial
  refine .bind (.leaves inferInstance) hbefores fun _ f₁ h₁ => ?_
  obtain ⟨rfl, hbefore⟩ := h₁
  refine .bind (.leaves inferInstance) hafters fun _ f₁ h₁ => ?_
  obtain ⟨rfl, hafter⟩ := h₁
  have hadj : Adjoining f₁.augment p.bare (k, v) q.bare :=
    ⟨hop.cached, hoq.cached, increasing_middle.2 ⟨hop.increasing, hoq.increasing,
      lt_of_endsBefore hop.increasing hbefore, lt_of_startsAfter hoq.increasing hafter⟩⟩
  rw [ht, hu]
  refine builds_derive ?_
  refine builds_share h hp fun s₁ h₁ => ?_
  refine builds_share h₁ (show q ∈ F + {p} by simp [hq]) fun s₂ h₂ => ?_
  refine .bind (Subtree.builds_join f₁.augment k v h₂ hadj) (Subtree.join_spec f₁.augment k v h₂)
    fun i s₃ h₃ => ?_
  obtain ⟨x, hi, hx, h₃⟩ := h₃
  rw [← hi]
  refine Subtree.builds_blacken f₁.augment h₃ ?_
  rw [hx]
  exact hadj.join

/-- The same without an entry between. -/
theorem builds_concat (h : f.store.Sound c F) (hp : p ∈ F) (ht : t.root = p.root)
    (hq : q ∈ F) (hu : u.root = q.root) (hown : u.forest = f.id) (hop : Orderly f.augment p.bare)
    (hoq : Orderly f.augment q.bare) : Builds Tallied (concat t u) f := by
  have hreq := requireOwn_eq u f
  rw [if_pos hown] at hreq
  rw [concat]
  refine .step (.leaves inferInstance) hreq ?_
  have haparts : Ends (requireApart t u f) (Passed f (Apart p.bare q.bare))
      (Refused f c F fun _ => True) := requireApart_spec h hp ht hq hu fun _ => trivial
  refine .bind (.leaves inferInstance) haparts fun _ f₁ h₁ => ?_
  obtain ⟨rfl, hapart⟩ := h₁
  have hincr := increasing_append_of_apart hop.increasing hoq.increasing hapart
  rw [ht, hu]
  refine builds_derive ?_
  refine builds_share h hp fun s₁ h₁ => ?_
  refine builds_share h₁ (show q ∈ F + {p} by simp [hq]) fun s₂ h₂ => ?_
  refine .bind (Subtree.builds_append f₁.augment h₂ hop.cached hoq.cached hincr)
    (Subtree.append_spec f₁.augment h₂) fun root s₃ h₃ => ?_
  obtain ⟨x, rfl, hx, h₃⟩ := h₃
  refine Subtree.builds_blacken f₁.augment h₃ ?_
  rw [hx]
  refine ⟨cached_append hop.cached hoq.cached, ?_⟩
  rw [entries_append]
  exact hincr

/-- Both trees are orderly, and nothing is asked of how their keys lie. -/
theorem builds_union (merge : K → V → V → γ → V × γ) (g : γ) (h : f.store.Sound c F)
    (hp : p ∈ F) (ht : t.root = p.root) (hq : q ∈ F) (hu : u.root = q.root)
    (hown : u.forest = f.id) (hop : Orderly f.augment p.bare) (hoq : Orderly f.augment q.bare) :
    Builds Tallied (union merge t u) (f, g) := by
  have hreq := requireOwn_eq u f
  rw [if_pos hown] at hreq
  rw [union, ht, hu]
  refine .step (.lift (.leaves inferInstance)) (CarryM.lift_of_ok hreq) ?_
  refine .finish (.onStoreCarrying ?_) inferInstance fun root fg =>
    .lift (.leaves (leaves_derive root))
  refine builds_share_carrying h hp fun s₁ h₁ => ?_
  refine builds_share_carrying h₁ (show q ∈ F + {p} by simp [hq]) fun s₂ h₂ => ?_
  refine .bind (Subtree.builds_union f.augment merge h₂ hop hoq)
    (Subtree.union_spec f.augment merge h₂) fun root sg₃ h₃ => ?_
  obtain ⟨s₃, rfl, x, rfl, hx, h₃⟩ := h₃
  refine .lift (Subtree.builds_blacken f.augment h₃ ?_)
  rw [hx]
  exact ⟨cached_union merge g hop.cached hoq.cached,
    (union_of_increasing f.augment merge g hop.increasing hoq.increasing).1⟩

/-- No operation on handles makes a node whose size would be wrong. -/
theorem builds_run [Ord Q] [KeyView K Q] (sort : List (K × V) → List (K × V))
    (hF : F.map Tree.root = H.map Snapshot.root) (h : f.store.Sound c F)
    (hall : ∀ p ∈ F, Orderly f.augment p.bare) (q : Request K V Q γ Snapshot) (hq : q.Posed f H) :
    Builds Tallied (q.run sort) f := by
  obtain ⟨hhost, hguest⟩ := hq
  -- Where there is a host and a guest, the guest may be of another forest.
  cases q with
  | empty => exact .map _ (.leaves (leaves_derive none))
  | ofSorted items => exact .map _ (builds_ofSorted items h)
  | ofEntries items => exact .map _ (builds_ofSorted _ h)
  | insert t k v =>
    obtain ⟨p, hp, hroot⟩ := exists_tree hF (hhost t rfl).2
    exact .map _ (builds_insert k v h hp hroot (hall p hp))
  | remove t key =>
    obtain ⟨p, hp, hroot⟩ := exists_tree hF (hhost t rfl).2
    exact .map _ (builds_remove key h hp hroot (hall p hp))
  | tryRemove t key =>
    obtain ⟨p, hp, hroot⟩ := exists_tree hF (hhost t rfl).2
    exact .map _ (builds_tryRemove key h hp hroot (hall p hp))
  | split t key =>
    obtain ⟨p, hp, hroot⟩ := exists_tree hF (hhost t rfl).2
    exact .map _ (builds_split key h hp hroot (hall p hp))
  | join t k v u =>
    obtain ⟨p, hp, hroot⟩ := exists_tree hF (hhost t rfl).2
    refine .map _ ?_
    by_cases hown : u.forest = f.id
    · obtain ⟨q, hq, hroot'⟩ := exists_tree hF (hguest u rfl hown)
      exact builds_join k v h hp hroot hq hroot' hown (hall p hp) (hall q hq)
    · exact .of_makes (makes_foreign hown)
  | concat t u =>
    obtain ⟨p, hp, hroot⟩ := exists_tree hF (hhost t rfl).2
    refine .map _ ?_
    by_cases hown : u.forest = f.id
    · obtain ⟨q, hq, hroot'⟩ := exists_tree hF (hguest u rfl hown)
      exact builds_concat h hp hroot hq hroot' hown (hall p hp) (hall q hq)
    · exact .of_makes (makes_foreign hown)
  | union t u merge state =>
    obtain ⟨p, hp, hroot⟩ := exists_tree hF (hhost t rfl).2
    refine .map _ (.runFrom ?_)
    by_cases hown : u.forest = f.id
    · obtain ⟨q, hq, hroot'⟩ := exists_tree hF (hguest u rfl hown)
      exact builds_union merge state h hp hroot hq hroot' hown (hall p hp) (hall q hq)
    · exact .of_makes (.bind (.lift (.leaves inferInstance)) fun a fg hr => by
        rw [CarryM.lift_of_error ((requireOwn_eq u f).trans (if_neg hown))] at hr
        cases hr)
  | copy t => exact .map _ (.of_makes (makes_copy t f))

end

/-! ## Sessions -/

/-- The alarm for the sizes in a forest. -/
def oversized (f : Forest K V T) : Bool := f.store.oversized

instance : Detached (oversized (K := K) (V := V) (T := T)) where
  registry _ _ := rfl
  share root := ⟨fun f => by
    rw [final_onStore]
    exact Leaves.after Store.oversized (StoreM.share root) f.store⟩
  unshare root := ⟨fun f => by
    rw [final_onStore]
    exact Leaves.after Store.oversized (StoreM.unshare root) f.store⟩
  collect := ⟨fun f => by
    rw [final_onStore]
    exact Leaves.after Store.oversized StoreM.collect f.store⟩

/-- The size a handle tells is the number of its entries; these are in as many slots, and all of
them are live. -/
def Measures (f : Forest K V T) (t : Snapshot) : Prop :=
  ∃ p, p.root = t.root ∧ f.store.Unfolds p ∧ p.slots.Nodup ∧ f.size t = .ok p.count ∧
    p.count ≤ f.stats.live

end Forest

namespace Session

variable {aug : Augment K V T} {cs : List Config} {s s' : Session K V T} {n : Nat}
  {f f' : Forest K V T} {op : ForestM K V T α}

/-- No subtree ever had more entries than a word can tell. -/
def Sized (s : Session K V T) : Prop :=
  ∀ (n : Nat) (f : Forest K V T), s.forests[n]? = some f → f.oversized = false

/-- The alarm of each forest is left as it was. -/
theorem sized_of_same (h : s.Sized)
    (hsame : across Forest.oversized s' = across Forest.oversized s) : s'.Sized := by
  intro n f' hf'
  have hpart := congrFun hsame n
  rw [across, across, hf', Option.map_some] at hpart
  obtain ⟨f, hf, hpart⟩ := Option.map_eq_some_iff.1 hpart.symm
  exact hpart.symm.trans (h n f hf)

/-- A new session has heard no alarm. -/
theorem sized_new (aug : Augment K V T) (cs : List Config) : (new aug cs).Sized := by
  intro n f hf
  simp only [new, List.getElem?_toArray, List.getElem?_mapIdx] at hf
  obtain ⟨c, -, rfl⟩ := Option.map_eq_some_iff.1 hf
  rfl

/-- One forest was changed. -/
theorem sized_set (h : s.Sized) (hf : s.forests[n]? = some f) (hf' : f'.oversized = false) :
    Sized { s with forests := s.forests.setIfInBounds n f' } :=
  sized_of_same h (across_set_of_eq hf (hf'.trans (h n f hf).symm))

/-- What is done to one forest rings no alarm but its own. -/
theorem sized_onForest (h : s.Sized) (hop : ∀ f, s.forests[n]? = some f →
      ¬ Rung (final (op f)) → (final (op f)).oversized = false) :
    Ends (onForest n op s) (fun _ s₁ => s₁.Sized) fun _ s₁ => s₁.Sized := by
  unfold onForest
  cases hf : s.forests[n]? with
  | none => exact .error h
  | some f =>
    have hend := hop f hf
    dsimp only
    cases hr : op f with
    | ok a f' =>
      rw [hr] at hend
      exact fun hquiet => sized_set h hf (hend fun hrung => hquiet (rung_set hf hrung))
    | error e f' =>
      rw [hr] at hend
      exact fun hquiet => sized_set h hf (hend fun hrung => hquiet (rung_set hf hrung))

section

variable [Ord K] [TransOrd K] [Ord Q] [KeyView K Q] {sort : List (K × V) → List (K × V)}

/-- Operations on handles of a session in which all trees are valid. -/
theorem builds_run (sort : List (K × V) → List (K × V)) (h : s.Tidy aug cs (Valid aug) 0)
    (hf : s.forests[n]? = some f) {q : Request K V Q γ Snapshot} (hq : q.Among s.handles n) :
    Builds Tallied (q.run sort) f := by
  have hposed := h.posed hf hq
  obtain ⟨rfl, rfl, c, F, -, hsound, hall, hF⟩ := h.exists_books hf
  exact Forest.builds_run sort hF hsound
    (fun p hp => ⟨(hall p hp).balanced.cached, (hall p hp).increasing⟩) q hposed

/-- A command that asks something of a forest. -/
theorem sized_of_posed {r : EStateM.Result Trouble (Session K V T) β}
    {after : Augment K V T → Shadow K V T} (htidy : s.Tidy aug cs (Valid aug) 0) (h : s.Sized)
    (hr : Posed (Q := Q) sort s r after) :
    Ends r (fun _ s₁ => s₁.Sized) fun _ s₁ => s₁.Sized := by
  cases hr with
  | lost name run _ =>
    rw [run]
    exact .error h
  | @request _ _ n q g op k dests run serves length lasts keeps among _ =>
    rw [run]
    have hop : ∀ f, s.forests[n]? = some f → ¬ Rung (final (op f)) →
        (final (op f)).oversized = false := by
      intro f hf hquiet
      have hmakes := builds_run sort htidy hf among
      rw [serves, Builds, final_map] at hmakes
      have hsized := (hmakes hquiet).oversized (h _ f hf)
      rwa [final_map] at hsized
    have hask := ask_spec (htidy.weaken fun _ _ => trivial) among serves
    refine .bind_of_lasting (((sized_onForest h hop).and hask).mono (fun _ _ h => h) ?_) ?_ lasts
    · exact fun _ _ he => he.1
    · intro a s₁ h₁
      obtain ⟨hsized, hanswered⟩ := h₁
      obtain ⟨s', hstore, -⟩ := keep_answer hanswered (length a)
      obtain ⟨b, hrun⟩ := keeps a s₁ s' hstore
      have hsame := Leaves.of_ok (across Forest.oversized) hstore
      exact .of_ok hrun fun _ => sized_of_same hsized hsame

/-- One command. -/
theorem sized_next (htidy : s.Tidy aug cs (Valid aug) 0) (h : s.Sized) (c : Command K V Q)
    (hquiet : ¬ Rung (next sort c s)) : (next sort c s).Sized := by
  by_cases hc : c.Asks
  · have hstep : Ends (execBy sort (fun _ _ => .ok ()) c s) (fun _ s₁ => s₁.Sized)
        fun _ s₁ => s₁.Sized := sized_of_posed htidy h (posed_of_asks hc)
    rw [next] at hquiet ⊢
    cases hr : execBy sort (fun _ _ => .ok ()) c s <;> rw [hr] at hstep hquiet <;>
      exact hstep hquiet
  · have hleaves : Leaves (across Forest.oversized)
        (execBy sort (fun _ _ => .ok ()) c : SessionM K V T _) := leaves_execBy hc
    exact sized_of_same h (hleaves.same s)

/-- By induction along the commands, with `sized_next` for each. -/
theorem sized_execAllBy (cmds : List (Command K V Q)) (htidy : s.Tidy aug cs (Valid aug) 0)
    (h : s.Sized) (hquiet : ¬ Rung (execAllBy sort cmds s)) : (execAllBy sort cmds s).Sized := by
  induction cmds generalizing s with
  | nil => exact h
  | cons c cmds ih =>
    rw [execAllBy_cons] at hquiet ⊢
    have hnext : ¬ Rung (next sort c s) := fun hrung => hquiet (rung_execAllBy cmds hrung)
    have hstep := after_next (closed_valid (Q := Q) aug) htidy c hnext
    exact ih hstep.went.tidy (sized_next htidy h c hnext) hquiet

/-- In no session that a run reaches has the alarm been rung. -/
theorem Reached.sized (h : s.Reached Q sort aug cs) : s.Sized := by
  obtain ⟨hquiet, cmds, rfl⟩ := h
  exact sized_execAllBy cmds (tidy_new aug cs) (sized_new aug cs) (not_rung_of_quiet hquiet)

end

end Session

end SharedForest

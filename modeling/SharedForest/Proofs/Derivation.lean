/-
What the operations of a forest do.

Each law starts in a forest whose books are right and where the snapshots that are passed
have their trees among the held ones, `F`.  A new snapshot is a new reference to a tree
that looks as the twin of the operation says, and nothing else about the forest changes:
that is `Granted`.  A failure leaves `F` as it was, `Refused`, and its reason is known.

Which reason an operation gives is decided by looking at the trees before anything is
built, so the laws also say when each of them is given.
-/
import SharedForest.Proofs.Versions
import SharedForest.Proofs.Lookup

set_option autoImplicit false

namespace SharedForest

open Store Alarmed

variable {γ K Q V T α : Type}

instance : Alarmed (Forest K V T) := ⟨fun f => Rung f.store⟩

namespace Forest

/-! ## Alarms -/

instance lasting_onStore {action : Augment K V T → NodeM K V T α}
    [h : ∀ aug, Lasting (action aug)] : Lasting (onStore action) := by
  constructor
  intro f hf
  rw [final_onStore]
  exact (h f.augment).rung f.store hf

instance lasting_refuse (why : Refusal) :
    Lasting (refuse (K := K) (V := V) (T := T) (α := α) why) := .throw _

instance lasting_derive (root : Option Nat) :
    Lasting (derive (K := K) (V := V) (T := T) root) := ⟨fun _ hf => hf⟩

instance lasting_empty : Lasting (empty (K := K) (V := V) (T := T)) := lasting_derive none

instance lasting_copy (t : Snapshot) : Lasting (copy (K := K) (V := V) (T := T) t) := by
  unfold copy
  infer_instance

instance lasting_drop (t : Snapshot) : Lasting (drop (K := K) (V := V) (T := T) t) := by
  unfold drop
  infer_instance

instance lasting_requireOwn (t : Snapshot) :
    Lasting (requireOwn (K := K) (V := V) (T := T) t) := by
  unfold requireOwn
  infer_instance

instance lasting_ofSorted [Ord K] (items : List (K × V)) :
    Lasting (ofSorted (T := T) items) := by
  unfold ofSorted
  split <;> infer_instance

instance lasting_ofEntriesBy [Ord K] (sort : List (K × V) → List (K × V))
    (items : List (K × V)) : Lasting (ofEntriesBy (T := T) sort items) := lasting_ofSorted _

instance lasting_insert [Ord K] (t : Snapshot) (k : K) (v : V) :
    Lasting (insert (T := T) t k v) := by
  unfold insert
  infer_instance

instance lasting_tryRemove [Ord Q] [KeyView K Q] (t : Snapshot) (key : Q) :
    Lasting (tryRemove (K := K) (V := V) (T := T) t key) := by
  refine .bind lasting_onStore fun found => ?_
  cases found with
  | none => exact lasting_refuse _
  | some i =>
    refine .bind lasting_onStore fun ⟨root, removed⟩ => ?_
    cases removed <;> infer_instance

instance lasting_remove [Ord Q] [KeyView K Q] (t : Snapshot) (key : Q) :
    Lasting (remove (K := K) (V := V) (T := T) t key) := by
  constructor
  intro f hf
  have hlast := (lasting_tryRemove (K := K) (V := V) (T := T) t key).rung f hf
  unfold remove
  split <;> rename_i hr <;> rw [hr] at hlast
  · exact hlast
  · exact (lasting_copy t).rung _ hlast
  · exact hlast

instance lasting_split [Ord Q] [KeyView K Q] (t : Snapshot) (key : Q) :
    Lasting (split (K := K) (V := V) (T := T) t key) := by
  unfold split
  infer_instance

instance lasting_keyAt (slot : Option Nat) :
    Lasting (keyAt (K := K) (V := V) (T := T) slot) := by
  cases slot with
  | none => exact .pure _
  | some i => exact .bind lasting_onStore fun _ => .pure _

instance lasting_lastKey (t : Snapshot) : Lasting (lastKey (K := K) (V := V) (T := T) t) := by
  unfold lastKey
  infer_instance

instance lasting_firstKey (t : Snapshot) : Lasting (firstKey (K := K) (V := V) (T := T) t) := by
  unfold firstKey
  infer_instance

instance lasting_requireBefore [Ord K] (t : Snapshot) (k : K) :
    Lasting (requireBefore (V := V) (T := T) t k) := by
  refine .bind (lasting_lastKey t) fun last => ?_
  cases last with
  | none => exact .pure _
  | some a => exact .ite

instance lasting_requireAfter [Ord K] (t : Snapshot) (k : K) :
    Lasting (requireAfter (V := V) (T := T) t k) := by
  refine .bind (lasting_firstKey t) fun first => ?_
  cases first with
  | none => exact .pure _
  | some b => exact .ite

instance lasting_requireApart [Ord K] (left right : Snapshot) :
    Lasting (requireApart (K := K) (V := V) (T := T) left right) := by
  refine .bind (lasting_lastKey left) fun last => .bind (lasting_firstKey right) fun first => ?_
  cases last with
  | none => exact .pure _
  | some a =>
    cases first with
    | none => exact .pure _
    | some b => exact .ite

instance lasting_join [Ord K] (left : Snapshot) (k : K) (v : V) (right : Snapshot) :
    Lasting (join (T := T) left k v right) := by
  unfold join
  infer_instance

instance lasting_concat [Ord K] (left right : Snapshot) :
    Lasting (concat (K := K) (V := V) (T := T) left right) := by
  unfold concat
  infer_instance

instance lasting_onStoreCarrying {action : Augment K V T → CarryM γ (NodeStore K V T) α}
    [h : ∀ aug, Lasting (action aug)] : Lasting (onStoreCarrying action) := by
  constructor
  rintro ⟨f, g⟩ hf
  rw [final_onStoreCarrying]
  exact (h f.augment).rung (f.store, g) hf

instance lasting_union [Ord K] (merge : K → V → V → γ → V × γ) (ours theirs : Snapshot) :
    Lasting (union (T := T) merge ours theirs) := by
  unfold union
  infer_instance

instance lasting_shelve (t : Snapshot) : Lasting (shelve (K := K) (V := V) (T := T) t) := by
  constructor
  intro f hf
  unfold shelve
  dsimp only
  split
  · exact (lasting_drop _).rung _ hf
  · exact hf

instance lasting_register (t : Snapshot) :
    Lasting (register (K := K) (V := V) (T := T) t) := by
  unfold register
  infer_instance

instance lasting_lookup (version : UInt64) :
    Lasting (lookup (K := K) (V := V) (T := T) version) := by
  refine .bind .get fun f => ?_
  cases f.registry.lookup version with
  | none => exact .pure _
  | some t => exact .map

instance lasting_unregister (version : UInt64) :
    Lasting (unregister (K := K) (V := V) (T := T) version) := by
  constructor
  intro f hf
  unfold unregister
  split <;> exact hf

instance lasting_collect : Lasting (collect (K := K) (V := V) (T := T)) := by
  unfold collect
  infer_instance

/-! ## What is known afterwards -/

variable {c : Config} {F : Multiset (Placed (Node K V T))} {p q : Placed (Node K V T)}
  {f f₀ : Forest K V T} {t u : Snapshot}

/-- The forest is `f₀` still, but for its store, in which `F` is held. -/
structure Holds (f₀ : Forest K V T) (c : Config) (F : Multiset (Placed (Node K V T)))
    (f : Forest K V T) : Prop where
  id : f.id = f₀.id
  augment : f.augment = f₀.augment
  registry : f.registry = f₀.registry
  sound : f.store.Sound c F

/-- A snapshot of a tree that looks like `tree` has been derived. -/
def Granted (f₀ : Forest K V T) (c : Config) (F : Multiset (Placed (Node K V T)))
    (tree : NodeTree K V T) (t : Snapshot) (f : Forest K V T) : Prop :=
  t.forest = f₀.id ∧ ∃ p, p.root = t.root ∧ p.bare = tree ∧ f₀.Holds c (F + {p}) f

/-- Nothing has been derived, and the reason is one of `why`. -/
def Refused (f₀ : Forest K V T) (c : Config) (F : Multiset (Placed (Node K V T)))
    (why : Failure → Prop) (e : Failure) (f : Forest K V T) : Prop :=
  why e ∧ f₀.Holds c F f

/-- The reason that no place is left. -/
def Full (c : Config) (e : Failure) : Prop :=
  e = .refused (.capacityExceeded (min c.maxNodes maxPlaces))

/-- Nothing has happened. -/
theorem Holds.refl (h : f.store.Sound c F) : f.Holds c F f := ⟨rfl, rfl, rfl, h⟩

/-- More reasons. -/
theorem Refused.mono {why why' : Failure → Prop} {e : Failure} (h : Refused f₀ c F why e f)
    (hwhy : ∀ e, why e → why' e) : Refused f₀ c F why' e f :=
  ⟨hwhy e h.1, h.2⟩

/-- An action on the store of a forest. -/
theorem ends_onStore {action : Augment K V T → NodeM K V T α}
    {Q : α → NodeStore K V T → Prop} {why : Failure → Prop}
    (h : Ends (action f.augment f.store) Q (Short c F))
    (hwhy : ∀ e, Full c e → why e := by exact fun _ h => h) :
    Ends (onStore action f) (fun a f' => Q a f'.store ∧ f' = { f with store := f'.store })
      (Refused f c F why) := by
  unfold onStore
  cases hr : action f.augment f.store with
  | ok a s =>
    rw [hr] at h
    exact fun hs => ⟨h hs, rfl⟩
  | error e s =>
    rw [hr] at h
    exact fun hs => ⟨hwhy e (h hs).1, rfl, rfl, rfl, (h hs).2⟩

/-- A snapshot of a tree that has been handed over. -/
theorem granted_derive {root : Option Nat} {tree : NodeTree K V T}
    (h : Owned c F tree root f.store) (hf : f = { f₀ with store := f.store }) :
    ∃ t f', derive root f = .ok t f' ∧ Granted f₀ c F tree t f' := by
  obtain ⟨p, hroot, hbare, hsound⟩ := h
  refine ⟨_, _, rfl, ?_, p, hroot, hbare, ?_, ?_, ?_, hsound⟩ <;> rw [hf]

/-- A tree that the store was left with is granted, under a fresh snapshot. -/
theorem ends_derive {root : Option Nat} {tree : NodeTree K V T} {E : Failure → Forest K V T → Prop}
    (h : Owned c F tree root f.store) (hf : f = { f₀ with store := f.store }) :
    Ends (derive root f) (Granted f₀ c F tree) E := by
  obtain ⟨t, f', hrun, hgranted⟩ := granted_derive h hf
  exact .of_ok hrun fun _ => hgranted

/-! ## Making trees -/

/-- An absent tree takes no place. -/
theorem empty_spec (h : f.store.Sound c F) :
    Ends (empty f) (Granted f c F .absent) (Refused f c F (Full c)) :=
  ends_derive ⟨.absent, rfl, rfl, h.with_absent⟩ rfl

/-- The reason that entries are not in increasing order. -/
def Disordered [Ord K] (items : List (K × V)) (e : Failure) : Prop :=
  ∃ n, firstDisorder items 0 = some n ∧ e = .refused (.invariantViolation (.notIncreasing n))

/-- The list is looked at first, and a tree is built only if it is in order. -/
theorem ofSorted_spec [Ord K] (items : List (K × V)) (h : f.store.Sound c F) :
    Ends (ofSorted items f)
      (fun t f' => firstDisorder items 0 = none ∧
        Granted f c F (Tree.build f.augment items items.length) t f')
      (Refused f c F fun e => Full c e ∨ Disordered items e) := by
  rw [ofSorted]
  cases hdis : firstDisorder items 0 with
  | some n => exact .error ⟨.inr ⟨n, hdis, rfl⟩, .refl h⟩
  | none =>
    refine .bind (ends_onStore (Subtree.build_spec f.augment h) fun _ => .inl)
      fun root f₁ h₁ => ?_
    exact (ends_derive h₁.1 h₁.2).weaken fun t f' h => ⟨rfl, h⟩

/-! ## Deriving trees -/

/-- A snapshot that is held is shared. -/
theorem share_held {s : NodeStore K V T} {E : Failure → NodeStore K V T → Prop}
    (h : s.Sound c F) (hp : p ∈ F) :
    Ends (StoreM.share p.root s) (fun root s' => root = p.root ∧ s'.Sound c (F + {p})) E :=
  (share_spec h (h.unfolds hp) fun _ hi => (h.counted.contains_of_mem hp hi).2).sure

/-- The new tree is the twin's insertion into the tree of the snapshot, or there is no room for
it. -/
theorem insert_spec [Ord K] (k : K) (v : V) (h : f.store.Sound c F) (hp : p ∈ F)
    (ht : t.root = p.root) :
    Ends (insert t k v f) (Granted f c F (p.bare.insert f.augment k v))
      (Refused f c F (Full c)) := by
  rw [insert, ht]
  have hstore : Ends ((do Subtree.insert f.augment (← StoreM.share p.root) k v) f.store)
      (fun i => Owned c F (p.bare.insert f.augment k v) (some i)) (Short c F) := by
    refine .bind (share_held h hp) fun root s₁ h₁ => ?_
    obtain ⟨rfl, h₁⟩ := h₁
    exact Subtree.insert_spec f.augment k v h₁
  refine .bind (ends_onStore hstore) fun i f₁ h₁ => ?_
  exact ends_derive h₁.1 h₁.2

/-- The reason that the key is not there. -/
def Missing (order : K → Ordering) (tree : NodeTree K V T) (aug : Augment K V T)
    (e : Failure) : Prop :=
  (tree.remove aug order).2 = none ∧ e = .refused .keyNotFound

/-- The search answers with the place where the twin finds the key. -/
theorem find_eq [Ord Q] [KeyView K Q] (key : Q) (h : f.store.Sound c F) (hp : p ∈ F)
    (ht : t.root = p.root) :
    onStore (fun _ => StoreM.view (Subtree.find · t.root key)) f
      = .ok ((p.seek (sought key)).map (·.1)) f := by
  have hfind := Subtree.find_spec key h (h.unfolds hp)
  rw [onStore, StoreM.view, ht, hfind]

/-- The value that a removal takes out is the one that a search finds. -/
theorem removed_eq (aug : Augment K V T) (order : K → Ordering) (p : Placed (Node K V T)) :
    (p.bare.remove aug order).2 = (p.seek order).map (·.2.value) := by
  rw [Tree.remove, Tree.found_split, Option.map_map]
  rfl

/-- The search comes first: without the key nothing is built and the key is reported missing. -/
theorem tryRemove_spec [Ord Q] [KeyView K Q] (key : Q) (h : f.store.Sound c F) (hp : p ∈ F)
    (ht : t.root = p.root) :
    Ends (tryRemove t key f)
      (fun res f' => (p.bare.remove f.augment (sought key)).2 = some res.2 ∧
        Granted f c F (p.bare.remove f.augment (sought key)).1 res.1 f')
      (Refused f c F fun e => Full c e ∨ Missing (sought key) p.bare f.augment e) := by
  -- The search before and the removal after go by the same split, so they agree on what is there;
  -- the branch that finds the key and fails to remove it is dead.
  rw [tryRemove, bind_of_ok (find_eq key h hp ht)]
  have hremoved := removed_eq f.augment (sought key) p
  cases hseek : p.seek (sought key) with
  | none =>
    rw [hseek] at hremoved
    exact .error ⟨.inr ⟨hremoved, rfl⟩, .refl h⟩
  | some x =>
    rw [hseek] at hremoved
    have hstore : Ends ((do Subtree.remove f.augment (← StoreM.share t.root) key) f.store)
        (fun res s' => res.2 = (p.bare.remove f.augment (sought key)).2 ∧
          Owned c F (p.bare.remove f.augment (sought key)).1 res.1 s') (Short c F) := by
      rw [ht]
      refine .bind (share_held h hp) fun root s₁ h₁ => ?_
      obtain ⟨rfl, h₁⟩ := h₁
      exact Subtree.remove_spec f.augment key h₁
    show Ends ((onStore _ >>= _) f) _ _
    refine .bind_of_lasting (ends_onStore hstore fun _ => .inl) (fun res f₁ h₁ => ?_)
      fun ⟨root, removed⟩ => ?_
    · obtain ⟨root, removed⟩ := res
      obtain ⟨⟨hres, howned⟩, hf₁⟩ := h₁
      obtain rfl : removed = some x.2.value := hres.trans hremoved
      exact .bind (ends_derive howned hf₁) fun u f₂ h₂ => .pure ⟨hremoved, h₂⟩
    · cases removed <;> infer_instance

/-- One more reference to the tree, the same snapshot. -/
theorem copy_spec (h : f.store.Sound c F) (hp : p ∈ F) (ht : t.root = p.root) :
    Ends (copy t f) (fun u f' => u = t ∧ f.Holds c (F + {p}) f') (Refused f c F (Full c)) := by
  rw [copy, ht]
  refine .bind (ends_onStore (share_held h hp)) fun root f₁ h₁ => ?_
  obtain ⟨⟨-, hsound⟩, hf₁⟩ := h₁
  refine .pure ⟨rfl, ?_, ?_, ?_, hsound⟩ <;> rw [hf₁]

/-- A key that is missing is no failure here: the answer is a copy then. -/
theorem remove_spec [Ord Q] [KeyView K Q] (key : Q) (h : f.store.Sound c F) (hp : p ∈ F)
    (ht : t.root = p.root) (hown : t.forest = f.id) :
    Ends (remove t key f)
      (fun u f' => match (p.bare.remove f.augment (sought key)).2 with
        | some _ => Granted f c F (p.bare.remove f.augment (sought key)).1 u f'
        | none => u = t ∧ Granted f c F p.bare u f')
      (Refused f c F (Full c)) := by
  have htry := tryRemove_spec key h hp ht
  rw [remove]
  cases hr : tryRemove t key f with
  | ok res f₁ =>
    rw [hr] at htry
    intro hs
    obtain ⟨hsome, hgranted⟩ := htry hs
    rw [hsome]
    exact hgranted
  | error e f₁ =>
    rw [hr] at htry
    -- Copying goes on from where the refusal left the forest, alarms and all.
    by_cases hs : Rung f₁
    · have hlast := (lasting_copy t).rung f₁ hs
      split <;> rename_i heq <;> cases heq
      · exact .of_rung hlast
      · exact .of_rung hs
    obtain ⟨hwhy, hid, haug, hreg, hsound⟩ := htry hs
    rcases hwhy with hfull | ⟨hnone, rfl⟩
    · obtain rfl := hfull
      exact .error ⟨rfl, hid, haug, hreg, hsound⟩
    · rw [hnone]
      refine (copy_spec hsound hp ht).mono ?_ ?_
      · rintro u f' ⟨rfl, hid', haug', hreg', hsound'⟩
        exact ⟨rfl, hown, p, ht.symm, rfl, hid'.trans hid, haug'.trans haug, hreg'.trans hreg,
          hsound'⟩
      · rintro e f' ⟨hfull, hid', haug', hreg', hsound'⟩
        exact ⟨hfull, hid'.trans hid, haug'.trans haug, hreg'.trans hreg, hsound'⟩

/-- Two snapshots have been derived, the first one first. -/
def GrantedTwo (f₀ : Forest K V T) (c : Config) (F : Multiset (Placed (Node K V T)))
    (below above : NodeTree K V T) (t u : Snapshot) (f : Forest K V T) : Prop :=
  t.forest = f₀.id ∧ u.forest = f₀.id ∧ ∃ p q, p.root = t.root ∧ p.bare = below ∧
    q.root = u.root ∧ q.bare = above ∧ f₀.Holds c (F + {p} + {q}) f

/-- Both parts are painted black at the root, the lower one first. -/
theorem split_spec [Ord Q] [KeyView K Q] (key : Q) (h : f.store.Sound c F) (hp : p ∈ F)
    (ht : t.root = p.root) :
    Ends (split t key f)
      (fun res f' => res.2.1 = (p.bare.split f.augment (sought key)).found.map (·.2) ∧
        GrantedTwo f c F ((p.bare.split f.augment (sought key)).below.blacken f.augment)
          ((p.bare.split f.augment (sought key)).above.blacken f.augment) res.1 res.2.2 f')
      (Refused f c F (Full c)) := by
  set halves := p.bare.split f.augment (sought key) with hhalves
  -- In the store first; two snapshots are then made of what it gives, which changes no tree.
  have hstore : Ends ((do
      let p ← Subtree.split f.augment (← StoreM.share p.root) key
      let l ← StoreM.guarding p.above.toList (Subtree.blacken f.augment p.below)
      let r ← StoreM.guarding l.toList (Subtree.blacken f.augment p.above)
      pure (l, p.found, r) : NodeM K V T _) f.store)
      (fun res s' => res.2.1 = halves.found.map (·.2) ∧ ∃ x y : Placed (Node K V T),
        x.root = res.1 ∧ x.bare = halves.below.blacken f.augment ∧ y.root = res.2.2 ∧
        y.bare = halves.above.blacken f.augment ∧ s'.Sound c (F + {x} + {y})) (Short c F) := by
    refine .bind (share_held h hp) fun root s₁ h₁ => ?_
    obtain ⟨rfl, h₁⟩ := h₁
    refine .bind (Subtree.split_spec f.augment key h₁) fun res s₂ h₂ => ?_
    obtain ⟨x, y, rfl, hx, hy, h₂⟩ := h₂
    refine .bind (.guarding_one y (Subtree.blacken_spec f.augment (p := x)
      (h₂.cast (by abel)))) fun root s₃ h₃ => ?_
    obtain ⟨x', rfl, hx', h₃⟩ := h₃
    refine .bind (.guarding_one x' (Subtree.blacken_spec f.augment (p := y)
      (h₃.cast (by abel)))) fun root s₄ h₄ => ?_
    obtain ⟨y', rfl, hy', h₄⟩ := h₄
    refine .pure ⟨rfl, x', y', rfl, ?_, rfl, ?_, h₄⟩
    · rw [hx', hx]
    · rw [hy', hy]
  rw [split, ht]
  refine .bind (ends_onStore hstore) fun res f₁ h₁ => ?_
  obtain ⟨l, found, r⟩ := res
  obtain ⟨⟨hfound, x, y, hx, hx', hy, hy', hsound⟩, hf₁⟩ := h₁
  refine .bind (Q := fun t f' => t.root = x.root ∧ t.forest = f.id ∧ f.Holds c (F + {x} + {y}) f')
    (.of_ok rfl fun _ => ?_) fun below f₂ h₂ => ?_
  · refine ⟨hx.symm, ?_, ?_, ?_, ?_, hsound⟩ <;> rw [hf₁]
  obtain ⟨hbelow, hid, h₂⟩ := h₂
  refine .bind (Q := fun u f' => u.root = y.root ∧ u.forest = f.id ∧ f.Holds c (F + {x} + {y}) f')
    (.of_ok rfl fun _ => ?_) fun above f₃ h₃ => ?_
  · exact ⟨hy.symm, h₂.id, h₂.id, h₂.augment, h₂.registry, h₂.sound⟩
  obtain ⟨habove, hid', h₃⟩ := h₃
  exact .pure ⟨hfound, hid, hid', x, y, hbelow.symm, hx', habove.symm, hy', h₃⟩

/-! ## Putting trees together -/

/-- The key of a node of a held tree, by its slot. -/
theorem keyAt_eq (h : f.store.Sound c F) (hp : p ∈ F) {x : Option (Nat × Node K V T)}
    (hx : ∀ y ∈ x, y ∈ p.toList) : keyAt (x.map (·.1)) f = .ok (x.map (·.2.key)) f := by
  cases x with
  | none => rfl
  | some y =>
    obtain ⟨cell, hcell, hdata⟩ := read_of_mem (h.unfolds hp) (hx y rfl)
    have hread : f.store.read y.1 = .ok cell := by
      rw [Store.read, hcell]
    have hstore : onStore (fun _ => StoreM.read y.1) f = .ok cell f := by
      rw [onStore, StoreM.read, StoreM.view, hread]
    rw [Option.map_some, keyAt, bind_of_ok hstore, hdata]
    rfl

/-- The largest key of a held tree is that of its last entry. -/
theorem lastKey_eq (h : f.store.Sound c F) (hp : p ∈ F) (ht : t.root = p.root) :
    lastKey t f = .ok (p.bare.entries.getLast?.map (·.1)) f := by
  have hlast := Subtree.last_spec h (h.unfolds hp)
  have hstore : onStore (fun _ => StoreM.view (Subtree.last · t.root)) f
      = .ok (p.toList.getLast?.map (·.1)) f := by
    rw [onStore, StoreM.view, ht, hlast]
  have hkey := keyAt_eq h hp (x := p.toList.getLast?) fun y hy => List.mem_of_getLast? hy
  rw [lastKey, bind_of_ok hstore, hkey, Tree.entries, Tree.bare, Tree.toList_map, List.map_map,
    List.getLast?_map, Option.map_map]
  rfl

/-- The smallest key is that of its first. -/
theorem firstKey_eq (h : f.store.Sound c F) (hp : p ∈ F) (ht : t.root = p.root) :
    firstKey t f = .ok (p.bare.entries.head?.map (·.1)) f := by
  have hfirst := Subtree.first_spec h (h.unfolds hp)
  have hstore : onStore (fun _ => StoreM.view (Subtree.first · t.root)) f
      = .ok (p.toList.head?.map (·.1)) f := by
    rw [onStore, StoreM.view, ht, hfirst]
  have hkey := keyAt_eq h hp (x := p.toList.head?) fun y hy => List.mem_of_head? hy
  rw [firstKey, bind_of_ok hstore, hkey, Tree.entries, Tree.bare, Tree.toList_map, List.map_map,
    List.head?_map, Option.map_map]
  rfl

/-- A snapshot of another forest is told by its number alone. -/
theorem requireOwn_eq (t : Snapshot) (f : Forest K V T) :
    requireOwn t f = if t.forest = f.id then .ok () f else .error (.refused .foreignTree) f := by
  show (if f.owns t = true then pure () else refuse .foreignTree : ForestM K V T Unit) f = _
  by_cases hown : t.forest = f.id
  · rw [if_pos hown, if_pos (by simpa [owns] using hown)]
    rfl
  · rw [if_neg hown, if_neg (by simpa [owns] using hown)]
    rfl

/-- A tree of another forest is refused before anything else is looked at. -/
theorem join_foreign [Ord K] (k : K) (v : V) (hown : u.forest ≠ f.id) :
    join t k v u f = .error (.refused .foreignTree) f := by
  have hreq := requireOwn_eq u f
  rw [if_neg hown] at hreq
  exact bind_of_error hreq

/-- A concatenation with one is refused before any tree is looked at. -/
theorem concat_foreign [Ord K] (hown : u.forest ≠ f.id) :
    concat t u f = .error (.refused .foreignTree) f := by
  have hreq := requireOwn_eq u f
  rw [if_neg hown] at hreq
  exact bind_of_error hreq

/-- The last key of a tree, if it has one, is below `k`. -/
def EndsBefore [Ord K] (tree : NodeTree K V T) (k : K) : Prop :=
  ∀ e ∈ tree.entries.getLast?, compare e.1 k = .lt

/-- The first key of a tree, if it has one, is above `k`. -/
def StartsAfter [Ord K] (tree : NodeTree K V T) (k : K) : Prop :=
  ∀ e ∈ tree.entries.head?, compare e.1 k = .gt

/-- The last key of the one is below the first key of the other. -/
def Apart [Ord K] (l r : NodeTree K V T) : Prop :=
  ∀ a ∈ l.entries.getLast?, ∀ b ∈ r.entries.head?, compare a.1 b.1 = .lt

/-- What a join does when all checks have passed. -/
theorem join_store_spec {s : NodeStore K V T} (aug : Augment K V T) (k : K) (v : V)
    (h : s.Sound c F) (hp : p ∈ F) (hq : q ∈ F) :
    Ends ((do
        let l ← StoreM.share p.root
        let r ← StoreM.share q.root
        let joined ← Subtree.join aug l k v r
        Subtree.blacken aug (some joined) : NodeM K V T _) s)
      (Owned c F ((p.bare.join aug k v q.bare).blacken aug)) (Short c F) := by
  refine .bind (share_held h hp) fun root s₁ h₁ => ?_
  obtain ⟨rfl, h₁⟩ := h₁
  refine .bind (share_held h₁ (p := q) (by simp [hq])) fun root s₂ h₂ => ?_
  obtain ⟨rfl, h₂⟩ := h₂
  refine .bind (Subtree.join_spec aug k v h₂) fun i s₃ h₃ => ?_
  obtain ⟨x, hi, hx, h₃⟩ := h₃
  rw [← hi, ← hx]
  exact Subtree.blacken_spec aug h₃

/-- Nothing has happened so far, and a condition is met. -/
def Passed (f₀ : Forest K V T) (cond : Prop) (_ : Unit) (f : Forest K V T) : Prop :=
  f = f₀ ∧ cond

/-- The check on the left operand of a join, with its reason. -/
theorem requireBefore_spec [Ord K] {why : Failure → Prop} (k : K) (h : f.store.Sound c F)
    (hp : p ∈ F) (ht : t.root = p.root)
    (hwhy : ¬ EndsBefore p.bare k → why (.refused (.invariantViolation .leftReachesKey))) :
    Ends (requireBefore t k f) (Passed f (EndsBefore p.bare k)) (Refused f c F why) := by
  rw [requireBefore, bind_of_ok (lastKey_eq h hp ht)]
  cases hlast : p.bare.entries.getLast? with
  | none =>
    refine .pure ⟨rfl, fun e he => ?_⟩
    rw [hlast] at he
    cases he
  | some e =>
    dsimp only [Option.map_some]
    by_cases hlt : compare e.1 k = .lt
    · rw [if_neg (not_not.2 hlt)]
      refine .pure ⟨rfl, fun e' he => ?_⟩
      obtain rfl : e = e' := by simpa [hlast] using he
      exact hlt
    · rw [if_pos hlt]
      exact .error ⟨hwhy fun h => hlt (h e hlast), .refl h⟩

/-- The check on the right operand. -/
theorem requireAfter_spec [Ord K] {why : Failure → Prop} (k : K) (h : f.store.Sound c F)
    (hp : p ∈ F) (ht : t.root = p.root)
    (hwhy : ¬ StartsAfter p.bare k → why (.refused (.invariantViolation .rightReachesKey))) :
    Ends (requireAfter t k f) (Passed f (StartsAfter p.bare k)) (Refused f c F why) := by
  rw [requireAfter, bind_of_ok (firstKey_eq h hp ht)]
  cases hfirst : p.bare.entries.head? with
  | none =>
    refine .pure ⟨rfl, fun e he => ?_⟩
    rw [hfirst] at he
    cases he
  | some e =>
    dsimp only [Option.map_some]
    by_cases hgt : compare e.1 k = .gt
    · rw [if_neg (not_not.2 hgt)]
      refine .pure ⟨rfl, fun e' he => ?_⟩
      obtain rfl : e = e' := by simpa [hfirst] using he
      exact hgt
    · rw [if_pos hgt]
      exact .error ⟨hwhy fun h => hgt (h e hfirst), .refl h⟩

/-- The check on the operands of a concatenation. -/
theorem requireApart_spec [Ord K] {why : Failure → Prop} (h : f.store.Sound c F) (hp : p ∈ F)
    (ht : t.root = p.root) (hq : q ∈ F) (hu : u.root = q.root)
    (hwhy : ¬ Apart p.bare q.bare → why (.refused (.invariantViolation .overlap))) :
    Ends (requireApart t u f) (Passed f (Apart p.bare q.bare)) (Refused f c F why) := by
  rw [requireApart, bind_of_ok (lastKey_eq h hp ht), bind_of_ok (firstKey_eq h hq hu)]
  cases hlast : p.bare.entries.getLast? with
  | none =>
    refine .pure ⟨rfl, fun e he => ?_⟩
    rw [hlast] at he
    cases he
  | some e =>
    cases hfirst : q.bare.entries.head? with
    | none =>
      refine .pure ⟨rfl, fun _ _ e he => ?_⟩
      rw [hfirst] at he
      cases he
    | some e' =>
      dsimp only [Option.map_some]
      -- Both trees have entries, so what is compared is the last key and the first.
      by_cases hlt : compare e.1 e'.1 = .lt
      · rw [if_neg (not_not.2 hlt)]
        refine .pure ⟨rfl, fun a ha b hb => ?_⟩
        obtain rfl : e = a := by simpa [hlast] using ha
        obtain rfl : e' = b := by simpa [hfirst] using hb
        exact hlt
      · rw [if_pos hlt]
        exact .error ⟨hwhy fun h => hlt (h e hlast e' hfirst), .refl h⟩

/-- The reasons not to join: no place, or keys that are not where they should be. -/
def Unjoinable [Ord K] (c : Config) (l : NodeTree K V T) (k : K) (r : NodeTree K V T)
    (e : Failure) : Prop :=
  Full c e ∨ (¬ EndsBefore l k ∧ e = .refused (.invariantViolation .leftReachesKey)) ∨
    (¬ StartsAfter r k ∧ e = .refused (.invariantViolation .rightReachesKey))

/-- A join succeeds only if the key stands between the trees.  The checks read the last key of
the one and the first key of the other, before anything is built. -/
theorem join_spec [Ord K] (k : K) (v : V) (h : f.store.Sound c F) (hp : p ∈ F)
    (ht : t.root = p.root) (hq : q ∈ F) (hu : u.root = q.root) (hown : u.forest = f.id) :
    Ends (join t k v u f)
      (fun w f' => EndsBefore p.bare k ∧ StartsAfter q.bare k ∧
        Granted f c F ((p.bare.join f.augment k v q.bare).blacken f.augment) w f')
      (Refused f c F (Unjoinable c p.bare k q.bare)) := by
  have hreq := requireOwn_eq u f
  rw [if_pos hown] at hreq
  have hstore := join_store_spec f.augment k v h hp hq
  rw [← ht, ← hu] at hstore
  rw [join, bind_of_ok hreq]
  -- Neither check changes the forest, so the second one starts where the first did.
  refine .bind (requireBefore_spec k h hp ht fun hno => .inr (.inl ⟨hno, rfl⟩)) fun _ f₁ h₁ => ?_
  obtain ⟨rfl, hbefore⟩ := h₁
  refine .bind (requireAfter_spec k h hq hu fun hno => .inr (.inr ⟨hno, rfl⟩)) fun _ f₁ h₁ => ?_
  obtain ⟨rfl, hafter⟩ := h₁
  refine .bind (ends_onStore hstore fun _ => .inl) fun root f₁ h₁ => ?_
  exact (ends_derive h₁.1 h₁.2).weaken fun w f' h => ⟨hbefore, hafter, h⟩

/-- What a concatenation does when all checks have passed. -/
theorem append_store_spec {s : NodeStore K V T} (aug : Augment K V T) (h : s.Sound c F)
    (hp : p ∈ F) (hq : q ∈ F) :
    Ends ((do
        let l ← StoreM.share p.root
        let r ← StoreM.share q.root
        let joined ← Subtree.append aug l r
        Subtree.blacken aug joined : NodeM K V T _) s)
      (Owned c F ((p.bare.append aug q.bare).blacken aug)) (Short c F) := by
  refine .bind (share_held h hp) fun root s₁ h₁ => ?_
  obtain ⟨rfl, h₁⟩ := h₁
  refine .bind (share_held h₁ (p := q) (by simp [hq])) fun root s₂ h₂ => ?_
  obtain ⟨rfl, h₂⟩ := h₂
  refine .bind (Subtree.append_spec aug h₂) fun i s₃ h₃ => ?_
  obtain ⟨x, rfl, hx, h₃⟩ := h₃
  rw [← hx]
  exact Subtree.blacken_spec aug h₃

/-- The reasons not to put two trees side by side. -/
def Overlapping [Ord K] (c : Config) (l r : NodeTree K V T) (e : Failure) : Prop :=
  Full c e ∨ (¬ Apart l r ∧ e = .refused (.invariantViolation .overlap))

/-- There is one check here, of the trees against each other. -/
theorem concat_spec [Ord K] (h : f.store.Sound c F) (hp : p ∈ F) (ht : t.root = p.root)
    (hq : q ∈ F) (hu : u.root = q.root) (hown : u.forest = f.id) :
    Ends (concat t u f)
      (fun w f' => Apart p.bare q.bare ∧
        Granted f c F ((p.bare.append f.augment q.bare).blacken f.augment) w f')
      (Refused f c F (Overlapping c p.bare q.bare)) := by
  have hreq := requireOwn_eq u f
  rw [if_pos hown] at hreq
  have hstore := append_store_spec f.augment h hp hq
  rw [← ht, ← hu] at hstore
  rw [concat, bind_of_ok hreq]
  refine .bind (requireApart_spec h hp ht hq hu fun hno => .inr ⟨hno, rfl⟩) fun _ f₁ h₁ => ?_
  obtain ⟨rfl, hapart⟩ := h₁
  refine .bind (ends_onStore hstore fun _ => .inl) fun root f₁ h₁ => ?_
  exact (ends_derive h₁.1 h₁.2).weaken fun w f' h => ⟨hapart, h⟩

/-! ## Uniting -/

/-- An action on the store of a forest that carries a state along. -/
theorem ends_onStoreCarrying {action : Augment K V T → CarryM γ (NodeStore K V T) α} {g g' : γ}
    {Q : α → NodeStore K V T → Prop}
    (h : Ends (action f.augment (f.store, g)) (Subtree.Carrying Q g') (Subtree.ShortCarrying c F)) :
    Ends (onStoreCarrying action (f, g))
      (fun a fg => ∃ f', fg = (f', g') ∧ Q a f'.store ∧ f' = { f with store := f'.store })
      (fun e fg => Refused f c F (Full c) e fg.1) := by
  unfold onStoreCarrying
  dsimp only
  cases hr : action f.augment (f.store, g) with
  | ok a sg =>
    rw [hr] at h
    intro hs
    obtain ⟨s', rfl, hQ⟩ := h hs
    exact ⟨_, rfl, hQ, rfl⟩
  | error e sg =>
    rw [hr] at h
    exact fun hs => ⟨(h hs).1, rfl, rfl, rfl, (h hs).2⟩

/-- Trees of two forests are not united, and the merge function is not called. -/
theorem union_foreign [Ord K] (merge : K → V → V → γ → V × γ) (g : γ) (hown : u.forest ≠ f.id) :
    union merge t u (f, g) = .error (.refused .foreignTree) (f, g) := by
  have hreq := requireOwn_eq u f
  rw [if_neg hown] at hreq
  exact bind_of_error (CarryM.lift_of_error hreq)

/-- The new tree is the union of the twins, and what the merge function carried along is what it is
after the twins' calls. -/
theorem union_spec [Ord K] (merge : K → V → V → γ → V × γ) (g : γ) (h : f.store.Sound c F)
    (hp : p ∈ F) (ht : t.root = p.root) (hq : q ∈ F) (hu : u.root = q.root)
    (hown : u.forest = f.id) :
    Ends (union merge t u (f, g))
      (fun w fg => ∃ f', fg = (f', (p.bare.union f.augment merge q.bare g).2) ∧
        Granted f c F ((p.bare.union f.augment merge q.bare g).1.blacken f.augment) w f')
      (fun e fg => Refused f c F (Full c) e fg.1) := by
  have hreq := requireOwn_eq u f
  rw [if_pos hown] at hreq
  -- In the store, where both operands are shared first and what the merge function carries goes
  -- along.
  have hstore : Ends ((do
      let t₁ ← CarryM.lift (StoreM.share p.root)
      let t₂ ← CarryM.lift (StoreM.share q.root)
      let united ← Subtree.union f.augment merge t₁ t₂
      CarryM.lift (Subtree.blacken f.augment united) : CarryM γ (NodeStore K V T) _) (f.store, g))
      (Subtree.Carrying (Owned c F ((p.bare.union f.augment merge q.bare g).1.blacken f.augment))
        (p.bare.union f.augment merge q.bare g).2) (Subtree.ShortCarrying c F) := by
    refine .bind (.lift (share_held h hp)) fun root sg₁ h₁ => ?_
    obtain ⟨s₁, rfl, rfl, h₁⟩ := h₁
    refine .bind (.lift (share_held h₁ (p := q) (by simp [hq]))) fun root sg₂ h₂ => ?_
    obtain ⟨s₂, rfl, rfl, h₂⟩ := h₂
    refine .bind (Subtree.union_spec f.augment merge h₂) fun root sg₃ h₃ => ?_
    obtain ⟨s₃, rfl, x, rfl, hx, h₃⟩ := h₃
    rw [← hx]
    exact .lift (Subtree.blacken_spec f.augment h₃)
  rw [← ht, ← hu] at hstore
  rw [union, bind_of_ok (CarryM.lift_of_ok hreq)]
  refine .bind (ends_onStoreCarrying hstore) fun root fg₁ h₁ => ?_
  obtain ⟨f₁, rfl, howned, hf₁⟩ := h₁
  obtain ⟨w, f₂, hrun, hgranted⟩ := granted_derive howned hf₁
  exact .of_ok (CarryM.lift_of_ok hrun) fun _ => ⟨f₂, rfl, hgranted⟩

/-! ## Giving up, and keeping in the registry -/

/-- A reference to a held tree is given back. -/
theorem drop_spec (h : f.store.Sound c (F + {p})) (ht : t.root = p.root) :
    ∃ f', drop t f = .ok () f' ∧ f.Holds c F f' := by
  obtain ⟨s', hrun, hsound⟩ := unshare_spec h
  have hdrop : drop t f = .ok () { f with store := s' } := by
    rw [drop, onStore, ht, hrun]
  exact ⟨_, hdrop, rfl, rfl, rfl, hsound⟩

/-- What waits to be taken back is, and all that is held stays. -/
theorem collect_spec (h : f.store.Sound c F) :
    ∃ n f', collect f = .ok n f' ∧ f.Holds c F f' ∧ f'.store.retired.toList = [] := by
  obtain ⟨n, s', hrun, hcounted, hstocked, hretired⟩ := Store.collect_spec h.counted h.stocked
  have hcollect : collect f = .ok n { f with store := s' } := by
    rw [collect, onStore, hrun]
  exact ⟨n, _, hcollect, ⟨rfl, rfl, rfl, hcounted, hstocked, backlog_of_empty hretired⟩, hretired⟩

end Forest

end SharedForest

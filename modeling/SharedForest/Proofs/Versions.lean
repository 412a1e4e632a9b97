/-
Versions, and what else an action leaves alone.

A forest counts the snapshots it has derived, and a new snapshot carries the number of
those before it.  An operation that answers with a new snapshot has raised the count by one
and stamped the snapshot with the old count (`Stamped`); one that fails has used no number
up (`Numbered`).  This holds in all states, whatever is in the store, because nothing but
`derive` looks at the count.

That nothing else does is a property of the other steps, `Leaves`.  It is of the same kind
as `Lasting`, closed under everything that actions are built of, and it is stated for any
part of a state, because sessions have parts that most commands leave alone as well.
-/
import SharedForest.Proofs.Twin
import SharedForest.Forest

set_option autoImplicit false

namespace SharedForest

/-! ## Parts of a state that an action leaves alone -/

/-- What `part` reads of a state is the same after the action, however it ends. -/
class Leaves {ε σ α β : Type} (part : σ → β) (m : EStateM ε σ α) : Prop where
  same : ∀ s, part (final (m s)) = part s

namespace Leaves

variable {ε σ α β δ : Type} {part : σ → δ} {m : EStateM ε σ α}

/-- The defining property, with the action found by instance. -/
theorem after (part : σ → δ) (m : EStateM ε σ α) [h : Leaves part m] (s : σ) :
    part (final (m s)) = part s := h.same s

/-- The part is the same in the state that a result comes with. -/
theorem of_ok (part : σ → δ) [Leaves part m] {s s' : σ} {a : α} (h : m s = .ok a s') :
    part s' = part s := by
  have hsame := after part m s
  rwa [h] at hsame

/-- And in the state that a failure leaves behind. -/
theorem of_error (part : σ → δ) [Leaves part m] {s s' : σ} {e : ε} (h : m s = .error e s') :
    part s' = part s := by
  have hsame := after part m s
  rwa [h] at hsame

instance pure (a : α) : Leaves part (Pure.pure a : EStateM ε σ α) := ⟨fun _ => rfl⟩

instance throw (e : ε) : Leaves part (MonadExcept.throw e : EStateM ε σ α) := ⟨fun _ => rfl⟩

instance get : Leaves part (MonadState.get : EStateM ε σ σ) := ⟨fun _ => rfl⟩

/-- An update that keeps the part. -/
theorem modify {f : σ → σ} (hf : ∀ s, part (f s) = part s) :
    Leaves part (MonadStateOf.modifyGet fun s => ((), f s) : EStateM ε σ Unit) := ⟨hf⟩

/-- One action after another leaves alone what both do. -/
theorem bind {f : α → EStateM ε σ β} (hm : Leaves part m) (hf : ∀ a, Leaves part (f a)) :
    Leaves part (m >>= f) := by
  constructor
  intro s
  have h := hm.same s
  show part (final (EStateM.bind m f s)) = part s
  rw [EStateM.bind]
  cases hr : m s with
  | ok a s' =>
    rw [hr] at h
    exact ((hf a).same s').trans h
  | error e s' =>
    rw [hr] at h
    exact h

instance bind_of_instances {f : α → EStateM ε σ β} [Leaves part m] [∀ a, Leaves part (f a)] :
    Leaves part (m >>= f) := .bind inferInstance inferInstance

instance map {f : α → β} [Leaves part m] : Leaves part (f <$> m) := by
  constructor
  intro s
  have h := after part m s
  show part (final (EStateM.map f m s)) = part s
  rw [EStateM.map]
  cases hr : m s <;> rw [hr] at h <;> exact h

instance discard [Leaves part m] : Leaves part (Functor.discard m) :=
  inferInstanceAs (Leaves part (Function.const α () <$> m))

instance ite {p : Prop} [Decidable p] {m' : EStateM ε σ α} [Leaves part m] [Leaves part m'] :
    Leaves part (if p then m else m') := by
  split <;> infer_instance

/-- What can be told from a part that is left alone is left alone. -/
theorem comp {ω : Type} (h : Leaves part m) (g : δ → ω) : Leaves (fun s => g (part s)) m :=
  ⟨fun s => congrArg g (h.same s)⟩

end Leaves

/-! ## Looking

Reading a store leaves all of it alone. -/

namespace StoreM

variable {ν α δ : Type} {part : Store ν → δ}

instance leaves_view (f : Store ν → Except Fault α) : Leaves part (view f) := by
  constructor
  intro s
  unfold view
  split <;> rfl

instance leaves_read (i : Nat) : Leaves part (StoreM.read i) := leaves_view _

end StoreM

/-- What is known of an action, together with what it leaves alone. -/
theorem Ends.leaving {ε σ α δ : Type} [Alarmed σ] (part : σ → δ) {m : EStateM ε σ α}
    [Leaves part m] {s : σ} {Q : α → σ → Prop} {E : ε → σ → Prop} (h : Ends (m s) Q E) :
    Ends (m s) (fun a s' => Q a s' ∧ part s' = part s) (fun e s' => E e s' ∧ part s' = part s) := by
  have hsame := Leaves.after part m s
  cases hr : m s with
  | ok a s' =>
    rw [hr] at h hsame
    exact fun hs => ⟨h hs, hsame⟩
  | error e s' =>
    rw [hr] at h hsame
    exact fun hs => ⟨h hs, hsame⟩

/-! ## The count of derived snapshots -/

/-- The answer is as `Q` says, and a failure leaves the count at `next`. -/
def Numbered {σ α : Type} (count : σ → Nat) (next : Nat) (Q : α → σ → Prop) :
    EStateM.Result Failure σ α → Prop
  | .ok a s => Q a s
  | .error _ s => count s = next

/-- A step that leaves the count alone may come first. -/
theorem Numbered.bind {σ α β : Type} {count : σ → Nat} {next : Nat} {Q : β → σ → Prop}
    {m : EStateM Failure σ α} {k : α → EStateM Failure σ β} {s : σ} [Leaves count m]
    (hs : count s = next) (hk : ∀ a s', count s' = next → Numbered count next Q (k a s')) :
    Numbered count next Q ((m >>= k) s) := by
  cases hr : m s with
  | ok a s' =>
    rw [bind_of_ok hr]
    exact hk a s' ((Leaves.of_ok count hr).trans hs)
  | error e s' =>
    rw [bind_of_error hr]
    exact (Leaves.of_error count hr).trans hs

namespace Forest

variable {γ K Q V T α δ : Type} {f : Forest K V T} {t u : Snapshot} {part : Forest K V T → δ}

/-- An action on the store changes nothing else in the forest. -/
theorem final_onStore (action : Augment K V T → NodeM K V T α) (f : Forest K V T) :
    final (onStore action f) = { f with store := final (action f.augment f.store) } := by
  unfold onStore
  cases action f.augment f.store <;> rfl

/-- The same where a state is carried along. -/
theorem final_onStoreCarrying (action : Augment K V T → CarryM γ (NodeStore K V T) α)
    (f : Forest K V T) (g : γ) :
    final (onStoreCarrying action (f, g))
      = ({ f with store := (final (action f.augment (f.store, g))).1 },
          (final (action f.augment (f.store, g))).2) := by
  unfold onStoreCarrying
  dsimp only
  cases action f.augment (f.store, g) <;> rfl

instance leaves_onStore {action : Augment K V T → NodeM K V T α} :
    Leaves Forest.derived (onStore action) := by
  constructor
  intro f
  rw [final_onStore]

/-- Looking at the store of a forest leaves all of the forest alone, not only the count. -/
instance leaves_onStore_of_looks {action : Augment K V T → NodeM K V T α}
    [∀ aug, Leaves (fun s => s) (action aug)] : Leaves part (onStore action) := by
  constructor
  intro f
  rw [final_onStore, Leaves.after (fun s => s) (action f.augment) f.store]

/-- A part of a forest in which neither references nor the registry show. -/
class Detached (part : Forest K V T → δ) : Prop where
  registry : ∀ (f : Forest K V T) registry, part { f with registry } = part f
  share : ∀ root, Leaves part (onStore fun _ => StoreM.share root)
  unshare : ∀ root, Leaves part (onStore fun _ => StoreM.unshare root)
  collect : Leaves part (onStore fun _ => StoreM.collect)

instance : Detached (Forest.derived (K := K) (V := V) (T := T)) :=
  ⟨fun _ _ => rfl, fun _ => leaves_onStore, fun _ => leaves_onStore, leaves_onStore⟩

instance leaves_copy [Detached part] (t : Snapshot) : Leaves part (copy t) :=
  .bind (Detached.share t.root) fun _ => .pure _

instance leaves_refuse (why : Refusal) :
    Leaves part (refuse (K := K) (V := V) (T := T) (α := α) why) := .throw _

instance leaves_requireOwn (t : Snapshot) : Leaves part (requireOwn t) := by
  unfold requireOwn
  infer_instance

instance leaves_keyAt (slot : Option Nat) : Leaves part (keyAt slot) := by
  cases slot with
  | none => exact .pure _
  | some i => exact .bind leaves_onStore_of_looks fun _ => .pure _

instance leaves_lastKey (t : Snapshot) : Leaves part (lastKey t) := by
  unfold lastKey
  infer_instance

instance leaves_firstKey (t : Snapshot) : Leaves part (firstKey t) := by
  unfold firstKey
  infer_instance

instance leaves_requireBefore [Ord K] (t : Snapshot) (k : K) :
    Leaves part (requireBefore t k) := by
  refine .bind (leaves_lastKey t) fun last => ?_
  cases last with
  | none => exact .pure _
  | some a => exact .ite

instance leaves_requireAfter [Ord K] (t : Snapshot) (k : K) :
    Leaves part (requireAfter t k) := by
  refine .bind (leaves_firstKey t) fun first => ?_
  cases first with
  | none => exact .pure _
  | some b => exact .ite

instance leaves_requireApart [Ord K] (left right : Snapshot) :
    Leaves part (requireApart left right) := by
  refine .bind (leaves_lastKey left) fun last => .bind (leaves_firstKey right) fun first => ?_
  cases last with
  | none => exact .pure _
  | some a =>
    cases first with
    | none => exact .pure _
    | some b => exact .ite

/-- The snapshot carries the number `next`, which is used up with it. -/
def Stamped (next : Nat) (t : Snapshot) (f : Forest K V T) : Prop :=
  t.version = .ofNat next ∧ f.derived = next + 1

/-- The only step that looks at the count stamps the snapshot with it. -/
theorem numbered_derive {next : Nat} (root : Option Nat) (hf : f.derived = next) :
    Numbered Forest.derived next (Stamped next) (derive root f) := by
  subst hf
  exact ⟨rfl, rfl⟩

/-! ## Operations -/

/-- The empty tree gets a version of its own. -/
theorem numbered_empty (f : Forest K V T) :
    Numbered Forest.derived f.derived (Stamped f.derived) (empty f) := numbered_derive none rfl

/-- A tree from a sorted list takes one number, and none if the list is not sorted. -/
theorem numbered_ofSorted [Ord K] (items : List (K × V)) (f : Forest K V T) :
    Numbered Forest.derived f.derived (Stamped f.derived) (ofSorted items f) := by
  rw [ofSorted]
  cases firstDisorder items 0 with
  | some p => exact rfl
  | none => exact .bind rfl fun root f₁ h₁ => numbered_derive root h₁

/-- An insertion takes one number whether the key was there or not. -/
theorem numbered_insert [Ord K] (t : Snapshot) (k : K) (v : V) (f : Forest K V T) :
    Numbered Forest.derived f.derived (Stamped f.derived) (insert t k v f) :=
  .bind rfl fun i _ h₁ => numbered_derive (some i) h₁

/-- A removal takes a number only if the key is there. -/
theorem numbered_tryRemove [Ord Q] [KeyView K Q] (t : Snapshot) (key : Q) (f : Forest K V T) :
    Numbered Forest.derived f.derived (fun res f' => Stamped f.derived res.1 f')
      (tryRemove t key f) := by
  refine .bind rfl fun found f₁ h₁ => ?_
  cases found with
  | none => exact h₁
  | some i =>
    refine .bind h₁ fun res f₂ h₂ => ?_
    obtain ⟨root, removed⟩ := res
    cases removed with
    | none => exact .bind h₂ fun _ f₃ h₃ => h₃
    | some v => exact numbered_derive root h₂

/-- A copy is the snapshot itself. -/
theorem eq_of_copy {f' : Forest K V T} (h : copy t f = .ok u f') : u = t := by
  rw [copy] at h
  cases hr : onStore (fun _ => StoreM.share t.root) f with
  | ok root f₁ =>
    rw [bind_of_ok hr] at h
    cases h
    rfl
  | error e f₁ =>
    rw [bind_of_error hr] at h
    cases h

/-- A copy is the same snapshot, and takes no number. -/
theorem numbered_copy (t : Snapshot) (f : Forest K V T) :
    Numbered Forest.derived f.derived (fun u f' => u = t ∧ f'.derived = f.derived) (copy t f) := by
  cases hr : copy t f with
  | ok u f' => exact ⟨eq_of_copy hr, Leaves.of_ok Forest.derived hr⟩
  | error e f' => exact Leaves.of_error Forest.derived hr

/-- A split takes two numbers, the first for the lower part. -/
theorem numbered_split [Ord Q] [KeyView K Q] (t : Snapshot) (key : Q) (f : Forest K V T) :
    Numbered Forest.derived f.derived
      (fun res f' => res.1.version = .ofNat f.derived ∧
        res.2.2.version = .ofNat (f.derived + 1) ∧ f'.derived = f.derived + 2)
      (split t key f) := by
  refine .bind rfl fun res f₁ h₁ => ?_
  obtain ⟨l, found, r⟩ := res
  rw [← h₁]
  exact ⟨rfl, rfl, rfl⟩

/-- Nothing that is checked before a join takes a number. -/
theorem numbered_join [Ord K] (t : Snapshot) (k : K) (v : V) (u : Snapshot) (f : Forest K V T) :
    Numbered Forest.derived f.derived (Stamped f.derived) (join t k v u f) := by
  rw [join]
  refine .bind rfl fun _ f₁ h₁ => .bind h₁ fun _ f₂ h₂ => .bind h₂ fun _ f₃ h₃ => ?_
  exact .bind h₃ fun root f₄ h₄ => numbered_derive root h₄

/-- Nor what is checked before a concatenation. -/
theorem numbered_concat [Ord K] (t u : Snapshot) (f : Forest K V T) :
    Numbered Forest.derived f.derived (Stamped f.derived) (concat t u f) := by
  rw [concat]
  refine .bind rfl fun _ f₁ h₁ => .bind h₁ fun _ f₂ h₂ => ?_
  exact .bind h₂ fun root f₃ h₃ => numbered_derive root h₃

/-- The same count, next to a state that is carried along. -/
def derivedBeside (fg : Forest K V T × γ) : Nat := fg.1.derived

instance leaves_lift {m : ForestM K V T α} [h : Leaves Forest.derived m] :
    Leaves (derivedBeside (γ := γ)) (CarryM.lift m) := by
  constructor
  rintro ⟨f, g⟩
  have hsame := h.same f
  cases hr : m f with
  | ok a f' =>
    rw [CarryM.lift_of_ok hr]
    rwa [hr] at hsame
  | error e f' =>
    rw [CarryM.lift_of_error hr]
    rwa [hr] at hsame

instance leaves_onStoreCarrying {action : Augment K V T → CarryM γ (NodeStore K V T) α} :
    Leaves (derivedBeside (γ := γ)) (onStoreCarrying action) := by
  constructor
  rintro ⟨f, g⟩
  rw [final_onStoreCarrying]
  rfl

/-- A union takes one number, however often the merge function is called. -/
theorem numbered_union [Ord K] (merge : K → V → V → γ → V × γ) (t u : Snapshot) (g : γ)
    (f : Forest K V T) :
    Numbered Forest.derived f.derived (fun res f' => Stamped f.derived res.1 f')
      (CarryM.runFrom g (union merge t u) f) := by
  have hunion : Numbered derivedBeside f.derived (fun w fg => Stamped f.derived w fg.1)
      (union merge t u (f, g)) := by
    rw [union]
    refine .bind rfl fun _ fg₁ h₁ => .bind h₁ fun root fg₂ h₂ => ?_
    exact numbered_derive (f := fg₂.1) root h₂
  unfold CarryM.runFrom
  cases hr : union merge t u (f, g) <;> rw [hr] at hunion <;> exact hunion

end Forest

end SharedForest

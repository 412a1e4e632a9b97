/-
Where nodes come from.

An operation puts nodes together and takes them apart again, and most of the nodes it makes are
gone when it is done.  So a law about all of them cannot be read off the stores it starts from and
leaves.  `Makes P m s` goes along with the run instead: each step of `m`, carried out from `s`, is
one that makes no node, or it is a call of `assemble`, and then `P` holds of the store at that
moment and of the two subtrees that are handed in.

There is one rule for each way in which actions are put together, `Makes.keeps` is what comes of a
run by them, and `Builds` is the same as `Makes` where no count has wrapped, to go with `Ends`: what
has to be known between two steps has been proved already, so nothing but the order of the steps is
gone through again.
-/
import SharedForest.Proofs.Derivation

set_option autoImplicit false

namespace SharedForest

open Alarmed

/-- States with a store in them. -/
class Stores (σ : Type) (ν : outParam Type) where
  store : σ → Store ν

open Stores

instance {ν : Type} : Stores (Store ν) ν := ⟨fun s => s⟩

instance {σ γ ν : Type} [Stores σ ν] : Stores (σ × γ) ν := ⟨fun s => store s.1⟩

instance {K V T : Type} : Stores (Forest K V T) (Node K V T) := ⟨Forest.store⟩

/-! ## Actions that only look -/

namespace Subtree

variable {γ K V T α δ : Type} {part : NodeStore K V T → δ}

instance leaves_height (t : Option Nat) : Leaves part (height t) := by
  cases t with
  | none => exact .pure _
  | some i => exact .bind (StoreM.leaves_read i) fun _ => .pure _

instance leaves_isRed (t : Option Nat) : Leaves part (isRed t) := by
  cases t with
  | none => exact .pure _
  | some i => exact .bind (StoreM.leaves_read i) fun _ => .pure _

instance leaves_peek (t : Option Nat) : Leaves part (peek t) := by
  cases t with
  | none => exact .pure _
  | some i => exact .bind (StoreM.leaves_read i) fun _ => .pure _

instance leaves_leftIsRed (i : Nat) : Leaves part (leftIsRed i) :=
  .bind (StoreM.leaves_read i) fun _ => leaves_isRed _

instance leaves_rightIsRed (i : Nat) : Leaves part (rightIsRed i) :=
  .bind (StoreM.leaves_read i) fun _ => leaves_isRed _

instance leaves_redPairRight (i : Nat) : Leaves part (redPairRight i) := by
  unfold redPairRight
  infer_instance

instance leaves_redPairLeft (i : Nat) : Leaves part (redPairLeft i) := by
  unfold redPairLeft
  infer_instance

instance leaves_depthBound : Leaves part depthBound := by
  unfold depthBound
  infer_instance

/-- Settling a value has to do with the state that is carried along alone. -/
instance leaves_settle {σ ν : Type} [Stores σ ν] (merge : K → V → V → γ → V × γ)
    (e : Exposed K V) (found : Option V) :
    Leaves (store : σ × γ → Store ν) (settle merge e found) := by
  cases found with
  | none => exact .pure _
  | some ours => exact ⟨fun _ => rfl⟩

end Subtree

/-! ## Where an action ends that is carried out on a part of a state -/

section

variable {γ K V T α σ : Type}

/-- What is done with a result in the end does not touch the state. -/
theorem final_map {ε β : Type} (g : α → β) (m : EStateM ε σ α) (s : σ) :
    final ((g <$> m) s) = final (m s) := by
  show final (EStateM.map g m s) = _
  rw [EStateM.map]
  cases m s <;> rfl

/-- The carried state is where it was. -/
theorem CarryM.final_lift (m : EStateM Failure σ α) (s : σ) (g : γ) :
    final (lift m (s, g)) = (final (m s), g) := by
  cases hr : m s with
  | ok a s' => rw [lift_of_ok hr, final_ok, final_ok]
  | error e s' => rw [lift_of_error hr, final_error, final_error]

/-- Without the carried state, where the run ended is where it ended. -/
theorem CarryM.final_runFrom (m : CarryM γ σ α) (s : σ) (g : γ) :
    final (runFrom g m s) = (final (m (s, g))).1 := by
  unfold runFrom
  cases m (s, g) <;> rfl

end

/-! ## Certificates -/

/-- Carried out from `s`, the action makes nodes only where `P` holds of the store and the two
subtrees that are put below the node. -/
inductive Makes {K V T : Type} (P : NodeStore K V T → Option Nat → Option Nat → Prop) :
    {σ α : Type} → [Stores σ (Node K V T)] → EStateM Failure σ α → σ → Prop where
  /-- Whatever leaves the store as it is makes no node. -/
  | leaves {σ α : Type} [Stores σ (Node K V T)] {m : EStateM Failure σ α} {s : σ}
      (h : Leaves store m) : Makes P m s
  | retain (i : Nat) (s : NodeStore K V T) : Makes P (StoreM.retain i) s
  | release (i : Nat) (s : NodeStore K V T) : Makes P (StoreM.release i) s
  | assemble (aug : Augment K V T) {l r : Option Nat} (k : K) (v : V) (c : Color)
      {s : NodeStore K V T} (h : P s l r) : Makes P (Subtree.assemble aug l k v c r) s
  | bind {σ α β : Type} [Stores σ (Node K V T)] {m : EStateM Failure σ α}
      {f : α → EStateM Failure σ β} {s : σ} (hm : Makes P m s)
      (hf : ∀ a s', m s = .ok a s' → Makes P (f a) s') : Makes P (m >>= f) s
  | catch {σ α : Type} [Stores σ (Node K V T)] {m : EStateM Failure σ α}
      {h : Failure → EStateM Failure σ α} {s : σ} (hm : Makes P m s)
      (hh : ∀ e s', m s = .error e s' → Makes P (h e) s') : Makes P (tryCatch m h) s
  | lift {γ σ α : Type} [Stores σ (Node K V T)] {m : EStateM Failure σ α} {s : σ} {g : γ}
      (hm : Makes P m s) : Makes P (CarryM.lift m) (s, g)
  | runFrom {γ σ α : Type} [Stores σ (Node K V T)] {m : CarryM γ σ α} {s : σ} {g : γ}
      (hm : Makes P m (s, g)) : Makes P (CarryM.runFrom g m) s
  | onStore {α : Type} {action : Augment K V T → NodeM K V T α} {f : Forest K V T}
      (hm : Makes P (action f.augment) f.store) : Makes P (Forest.onStore action) f
  | onStoreCarrying {γ α : Type} {action : Augment K V T → CarryM γ (NodeStore K V T) α}
      {f : Forest K V T} {g : γ} (hm : Makes P (action f.augment) (f.store, g)) :
      Makes P (Forest.onStoreCarrying action) (f, g)

/-- Holding references is a way to catch a failure. -/
theorem StoreM.guarding_eq {ν α : Type} (held : List Nat) (action : StoreM ν α) :
    guarding held action = tryCatch action (giveBack held) := by
  funext s
  show _ = EStateM.tryCatch action (giveBack held) s
  rw [guarding, EStateM.tryCatch]
  cases action s <;> rfl

/-- Guarding is catching a failure to give back what is held. -/
theorem CarryM.guarding_eq {γ ν α : Type} (held : List Nat) (action : CarryM γ (Store ν) α) :
    guarding held action = tryCatch action fun e => lift (StoreM.giveBack held e) := by
  funext s
  show _ = EStateM.tryCatch action _ s
  rw [guarding, EStateM.tryCatch]
  cases action s <;> rfl

/-- One reference is given back, and the failure on its way may be replaced by that. -/
theorem StoreM.giveBack_cons {ν α : Type} (i : Nat) (held : List Nat) (e : Failure) :
    giveBack (ν := ν) (α := α) (i :: held) e
      = tryCatch (release i >>= fun _ => pure e) pure >>= giveBack held := by
  funext s
  show _ = EStateM.bind (EStateM.tryCatch (EStateM.bind (release i) fun _ => pure e) pure) _ s
  simp only [giveBack, EStateM.bind, EStateM.tryCatch]
  cases release i s <;> rfl

namespace Makes

variable {γ K V T α β σ : Type} [Stores σ (Node K V T)]
  {P : NodeStore K V T → Option Nat → Option Nat → Prop} {held : List Nat}

/-- A result may be changed in the end. -/
theorem map {m : EStateM Failure σ α} {s : σ} (g : α → β) (hm : Makes P m s) :
    Makes P (g <$> m) s := by
  rw [map_eq_pure_bind]
  exact .bind hm fun _ _ _ => .leaves (.pure _)

variable {s : NodeStore K V T} {m : NodeM K V T α} {action : CarryM γ (NodeStore K V T) α} {g : γ}

theorem share (root : Option Nat) : Makes P (StoreM.share root) s := by
  cases root with
  | none => exact .leaves (.pure _)
  | some i => exact .bind (.retain i s) fun _ _ _ => .leaves (.pure _)

/-- Dropping a reference takes cells back and makes none. -/
theorem unshare (root : Option Nat) : Makes P (StoreM.unshare root) s := by
  cases root with
  | none => exact .leaves (.pure _)
  | some i => exact .release i s

/-- Nor does giving back what is held before a failure. -/
theorem giveBack (held : List Nat) (e : Failure) :
    Makes P (StoreM.giveBack (α := α) held e) s := by
  induction held generalizing e s with
  | nil => exact .leaves (.throw e)
  | cons i held ih =>
    rw [StoreM.giveBack_cons]
    refine .bind (.catch (.bind (.release i s) fun _ _ _ => .leaves (.pure e))
      fun _ _ _ => .leaves (.pure _)) fun e' s' _ => ?_
    exact ih e'

/-- So a guarded action makes what the action makes. -/
theorem guarding (hm : Makes P m s) : Makes P (StoreM.guarding held m) s := by
  rw [StoreM.guarding_eq]
  exact .catch hm fun e s' _ => giveBack held e

/-- The same where a state is carried along. -/
theorem guardingCarrying (hm : Makes P action (s, g)) :
    Makes P (CarryM.guarding held action) (s, g) := by
  rw [CarryM.guarding_eq]
  exact .catch hm fun e sg _ => .lift (giveBack held e)

/-- Taking a node apart makes none. -/
theorem expose (i : Nat) : Makes P (Subtree.expose i) s := by
  refine .bind (.guarding (.leaves (StoreM.leaves_read i))) fun cell s₁ _ => ?_
  refine .bind (.guarding (share _)) fun left s₂ _ => ?_
  refine .bind (.guarding (share _)) fun right s₃ _ => ?_
  exact .bind (.guarding (.release i s₃)) fun _ s₄ _ => .leaves (.pure _)

/-- What references and calls of `assemble` keep to is kept by the whole run. -/
theorem keeps {I : NodeStore K V T → Prop}
    (hretain : ∀ i s, I s → I (final (StoreM.retain i s)))
    (hrelease : ∀ i s, I s → I (final (StoreM.release i s)))
    (hassemble : ∀ aug l k v c r s, P s l r → I s → I (final (Subtree.assemble aug l k v c r s)))
    {m : EStateM Failure σ α} {s : σ} (h : Makes P m s) (hs : I (store s)) :
    I (store (final (m s))) := by
  induction h with
  | leaves h =>
    rw [h.same]
    exact hs
  | retain i s => exact hretain i s hs
  | release i s => exact hrelease i s hs
  | assemble aug k v c h => exact hassemble aug _ k v c _ _ h hs
  -- The second part only runs where the first has come to its end.
  | @bind σ α β _ m f s _ _ ihm ihf =>
    have hmid := ihm hs
    cases hr : m s with
    | ok a s' =>
      rw [hr] at hmid
      rw [bind_of_ok hr]
      exact ihf a s' hr hmid
    | error e s' =>
      rw [hr] at hmid
      rw [bind_of_error hr]
      exact hmid
  | @«catch» σ α _ m handle s _ _ ihm ihh =>
    have hmid := ihm hs
    show I (store (final (EStateM.tryCatch m handle s)))
    rw [EStateM.tryCatch]
    cases hr : m s with
    | ok a s' =>
      rw [hr] at hmid
      exact hmid
    | error e s' =>
      rw [hr] at hmid
      exact ihh e s' hr hmid
  | lift _ ih =>
    rw [CarryM.final_lift]
    exact ih hs
  | runFrom _ ih =>
    rw [CarryM.final_runFrom]
    exact ih hs
  | onStore _ ih =>
    rw [Forest.final_onStore]
    exact ih hs
  | onStoreCarrying _ ih =>
    rw [Forest.final_onStoreCarrying]
    exact ih hs

end Makes

/-! ## Certificates where no count has wrapped -/

/-- If no count has wrapped, the action makes nodes only as `P` says. -/
def Builds {K V T σ α : Type} [Alarmed σ] [Stores σ (Node K V T)]
    (P : NodeStore K V T → Option Nat → Option Nat → Prop) (m : EStateM Failure σ α) (s : σ) :
    Prop :=
  ¬ Rung (final (m s)) → Makes P m s

namespace Builds

variable {γ K V T α β σ : Type} [Alarmed σ] [Stores σ (Node K V T)]
  {P : NodeStore K V T → Option Nat → Option Nat → Prop} {held : List Nat}

section

variable {m : EStateM Failure σ α} {f : α → EStateM Failure σ β} {s s' : σ} {a : α}
  {Q : α → σ → Prop} {E : Failure → σ → Prop}

/-- What is known whether or not a count wraps is known if none does. -/
theorem of_makes (h : Makes P m s) : Builds P m s := fun _ => h

/-- An action that leaves the store alone makes nothing. -/
theorem leaves (h : Leaves store m) : Builds P m s := fun _ => .leaves h

/-- One action after another; what is known in between is known from elsewhere. -/
theorem bind_of_lasting (hm : Builds P m s) (hends : Ends (m s) Q E)
    (hf : ∀ a s', Q a s' → Builds P (f a) s') (hl : ∀ a, Lasting (f a)) :
    Builds P (m >>= f) s := by
  intro hquiet
  have hmid : ∀ a s', m s = .ok a s' → ¬ Rung s' ∧ ¬ Rung (final (f a s')) := by
    intro a s' hr
    rw [bind_of_ok hr] at hquiet
    exact ⟨fun hrung => hquiet ((hl a).rung s' hrung), hquiet⟩
  refine .bind (hm fun hrung => ?_) fun a s' hr => ?_
  · cases hr : m s with
    | ok a s' =>
      rw [hr] at hrung
      exact (hmid a s' hr).1 hrung
    | error e s' =>
      rw [hr] at hrung
      rw [bind_of_error hr] at hquiet
      exact hquiet hrung
  · obtain ⟨hs', hend⟩ := hmid a s' hr
    rw [hr] at hends
    exact hf a s' (hends hs') hend

/-- One action after another, where alarms last by instance. -/
theorem bind [∀ a, Lasting (f a)] (hm : Builds P m s) (hends : Ends (m s) Q E)
    (hf : ∀ a s', Q a s' → Builds P (f a) s') : Builds P (m >>= f) s :=
  bind_of_lasting hm hends hf inferInstance

/-- The rest makes nodes only as `P` says whatever has come before. -/
theorem finish (hm : Builds P m s) (hl : ∀ a, Lasting (f a))
    (hf : ∀ a s', Makes P (f a) s') : Builds P (m >>= f) s :=
  bind_of_lasting (Q := fun _ _ => True) (E := fun _ _ => True) hm
    (by cases m s <;> exact fun _ => trivial) (fun a s' _ => .of_makes (hf a s')) hl

/-- What is done on a failure makes nodes only as `P` says whatever has come before. -/
theorem «catch» {h : Failure → EStateM Failure σ α} (hm : Builds P m s) (hl : ∀ e, Lasting (h e))
    (hh : ∀ e s', Makes P (h e) s') : Builds P (tryCatch m h) s := by
  refine fun hquiet => .catch (hm fun hrung => hquiet ?_) fun e s' _ => hh e s'
  show Rung (final (EStateM.tryCatch m h s))
  rw [EStateM.tryCatch]
  cases hr : m s with
  | ok a s' =>
    rw [hr] at hrung
    exact hrung
  | error e s' =>
    rw [hr] at hrung
    exact (hl e).rung s' hrung

/-- A step that is known to succeed. -/
theorem step (hm : Makes P m s) (hr : m s = .ok a s') (hf : Builds P (f a) s') :
    Builds P (m >>= f) s := by
  intro hquiet
  rw [bind_of_ok hr] at hquiet
  refine .bind hm fun b s'' hr' => ?_
  rw [hr] at hr'
  cases hr'
  exact hf hquiet

/-- A result may be changed in the end. -/
theorem map (g : α → β) (hm : Builds P m s) : Builds P (g <$> m) s := by
  refine fun hquiet => .map g (hm fun hrung => hquiet ?_)
  rw [final_map]
  exact hrung

theorem lift {g : γ} (hm : Builds P m s) : Builds P (CarryM.lift m) (s, g) := by
  refine fun hquiet => .lift (hm fun hrung => hquiet ?_)
  rw [CarryM.final_lift]
  exact hrung

/-- The state that is carried along plays no part. -/
theorem runFrom {m : CarryM γ σ α} {g : γ} (hm : Builds P m (s, g)) :
    Builds P (CarryM.runFrom g m) s := by
  refine fun hquiet => .runFrom (hm fun hrung => hquiet ?_)
  rw [CarryM.final_runFrom]
  exact hrung

end

section

variable {s : NodeStore K V T} {m : NodeM K V T α} {f : α → NodeM K V T β} {a : α}
  {action : CarryM γ (NodeStore K V T) α} {g : γ}

theorem guarding (hm : Builds P m s) : Builds P (StoreM.guarding held m) s := by
  rw [StoreM.guarding_eq]
  exact .catch hm inferInstance fun e s' => .giveBack held e

theorem guardingCarrying (hm : Builds P action (s, g)) :
    Builds P (CarryM.guarding held action) (s, g) := by
  rw [CarryM.guarding_eq]
  exact .catch hm inferInstance fun e sg => .lift (.giveBack held e)

/-- Looking at the store while references are held. -/
theorem look (h : Leaves store m) (hr : m s = .ok a s) (hf : Builds P (f a) s) :
    Builds P (StoreM.guarding held m >>= f) s :=
  step (.guarding (.leaves h)) (Store.guarding_of_ok hr) hf

/-- Taking a node apart while references are held; the rest goes on with its children. -/
theorem exposing {f : Subtree.Exposed K V → NodeM K V T β} [∀ e, Lasting (f e)] {c : Config}
    {F : Multiset (Placed (Node K V T))} {l r : Placed (Node K V T)} {i : Nat} {d : Node K V T}
    (h : s.Sound c (F + {.node l (i, d) r}))
    (hf : ∀ s₁, s₁.Sound c (F + {l} + {r}) →
      Builds P (f ⟨l.root, d.key, d.value, d.color, r.root⟩) s₁) :
    Builds P (StoreM.guarding held (Subtree.expose i) >>= f) s := by
  refine .bind (.guarding (.of_makes (.expose i)))
    (Ends.guarding_never (E := Never) (Subtree.expose_spec h)) fun e s₁ h₁ => ?_
  obtain ⟨rfl, h₁⟩ := h₁
  exact hf s₁ h₁

end

section

variable {f : Forest K V T}

/-- A forest makes nodes in its store alone. -/
theorem onStore {action : Augment K V T → NodeM K V T α}
    (hm : Builds P (action f.augment) f.store) : Builds P (Forest.onStore action) f := by
  refine fun hquiet => .onStore (hm fun hrung => hquiet ?_)
  rw [Forest.final_onStore]
  exact hrung

theorem onStoreCarrying {action : Augment K V T → CarryM γ (NodeStore K V T) α} {g : γ}
    (hm : Builds P (action f.augment) (f.store, g)) :
    Builds P (Forest.onStoreCarrying action) (f, g) := by
  refine fun hquiet => .onStoreCarrying (hm fun hrung => hquiet ?_)
  rw [Forest.final_onStoreCarrying]
  exact hrung

end

end Builds

end SharedForest

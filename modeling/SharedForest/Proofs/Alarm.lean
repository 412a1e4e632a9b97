/-
An alarm that has rung goes on ringing.

A count that wraps spoils the books, and from then on nothing can be said about what an
action answers.  What can still be said, whatever the state, is that the alarm is not
silenced.  So a run that ends in silence was silent throughout, and that is how every
later statement says "no place is ever referred to 2^32 times at once".

`Lasting` is this property of an action.  It is closed under everything that actions
are built of, and the rules are instances, so for an action made of lasting ones it is
found without a word.  Where the rest of an action matches on what came before, the
cases are split first, and each branch is found.
-/
import SharedForest.Subtree.Union
import SharedForest.Subtree.Build

set_option autoImplicit false

namespace SharedForest

/-- States in which it is noted that a count of references has wrapped. -/
class Alarmed (σ : Type) where
  Rung : σ → Prop

open Alarmed

instance {ν : Type} : Alarmed (Store ν) := ⟨fun s => s.alarms.countHigh = true⟩

instance {σ γ : Type} [Alarmed σ] : Alarmed (σ × γ) := ⟨fun s => Rung s.1⟩

/-- The state in which an action ends, with a result or without. -/
def final {ε σ α : Type} : EStateM.Result ε σ α → σ
  | .ok _ s => s
  | .error _ s => s

@[simp] theorem final_ok {ε σ α : Type} (a : α) (s : σ) :
    final (.ok a s : EStateM.Result ε σ α) = s := rfl

@[simp] theorem final_error {ε σ α : Type} (e : ε) (s : σ) :
    final (.error e s : EStateM.Result ε σ α) = s := rfl

/-- The action leaves an alarm that has rung as it is. -/
class Lasting {ε σ α : Type} [Alarmed σ] (m : EStateM ε σ α) : Prop where
  rung : ∀ s, Rung s → Rung (final (m s))

namespace Lasting

variable {ε σ α β : Type} [Alarmed σ] {m : EStateM ε σ α}

instance pure (a : α) : Lasting (Pure.pure a : EStateM ε σ α) := ⟨fun _ h => h⟩

instance throw (e : ε) : Lasting (MonadExcept.throw e : EStateM ε σ α) := ⟨fun _ h => h⟩

instance get : Lasting (MonadState.get : EStateM ε σ σ) := ⟨fun _ h => h⟩

/-- An update that silences no alarm. -/
theorem modify {f : σ → σ} (hf : ∀ s, Rung s → Rung (f s)) :
    Lasting (MonadStateOf.modifyGet fun s => ((), f s) : EStateM ε σ Unit) := ⟨hf⟩

/-- One action after another, neither of which silences an alarm. -/
theorem bind {f : α → EStateM ε σ β} (hm : Lasting m) (hf : ∀ a, Lasting (f a)) :
    Lasting (m >>= f) := by
  constructor
  intro s hs
  have h := hm.rung s hs
  show Rung (final (EStateM.bind m f s))
  rw [EStateM.bind]
  cases hr : m s with
  | ok a s' =>
    rw [hr] at h
    exact (hf a).rung s' h
  | error e s' =>
    rw [hr] at h
    exact h

instance bind_of_instances {f : α → EStateM ε σ β} [Lasting m] [∀ a, Lasting (f a)] :
    Lasting (m >>= f) := .bind inferInstance inferInstance

instance map {f : α → β} [Lasting m] : Lasting (f <$> m) := by
  constructor
  intro s hs
  have h := Lasting.rung (m := m) s hs
  show Rung (final (EStateM.map f m s))
  rw [EStateM.map]
  cases hr : m s <;> rw [hr] at h <;> exact h

instance discard [Lasting m] : Lasting (Functor.discard m) :=
  inferInstanceAs (Lasting (Function.const α () <$> m))

instance ite {p : Prop} [Decidable p] {m' : EStateM ε σ α} [Lasting m] [Lasting m'] :
    Lasting (if p then m else m') := by
  split <;> infer_instance

end Lasting

/-! ## Actions on a store -/

namespace StoreM

variable {ν α : Type}

instance lasting_view (f : Store ν → Except Fault α) : Lasting (view f) := by
  constructor
  intro s hs
  unfold view
  split <;> exact hs

instance lasting_read (i : Nat) : Lasting (StoreM.read (ν := ν) i) := lasting_view _

instance lasting_refuse (why : Refusal) : Lasting (refuse (ν := ν) (α := α) why) := .throw _

instance lasting_retain (i : Nat) : Lasting (retain (ν := ν) i) := by
  constructor
  intro s hs
  have hs : s.alarms.countHigh = true := hs
  unfold retain
  split
  · exact hs
  -- Here the alarm is rung, and what has been rung before is kept by the disjunction.
  · show (s.alarms.countHigh || _) = true
    rw [hs, Bool.true_or]

instance lasting_decrement (i : Nat) : Lasting (decrement (ν := ν) i) := by
  constructor
  intro s hs
  unfold decrement
  split <;> exact hs

instance lasting_vacate (i : Nat) : Lasting (vacate (ν := ν) i) := by
  constructor
  intro s hs
  unfold vacate
  split <;> exact hs

instance lasting_dropLinks (links work : List Nat) : Lasting (dropLinks (ν := ν) links work) := by
  induction links generalizing work with
  | nil => exact .pure _
  | cons i links ih =>
    unfold dropLinks
    infer_instance

instance lasting_takeBack (i : Nat) (work : List Nat) : Lasting (takeBack (ν := ν) i work) := by
  unfold takeBack
  refine .bind (lasting_vacate i) fun held => ?_
  cases held with
  | none => exact .bind (.modify fun _ h => h) fun _ => .pure _
  | some c =>
    refine .bind (lasting_dropLinks _ _) fun work => ?_
    exact .bind (.modify fun _ h => h) fun _ => .pure _

/-- What every round of the cascade keeps to is kept by all of it. -/
theorem reclaim_keeps {I : Store ν → Prop} (hround : ∀ i work s, I s → I (final (takeBack i work s)))
    {work : List Nat} {s : Store ν} (hs : I s) : I (final (reclaim work s)) := by
  have hloop : ∀ n, I (final (reclaimFrom work n s)) := by
    -- The cascade takes the store apart itself, so no rule for binds applies.
    intro n
    induction work, n, s using reclaimFrom.induct with
    | case1 n s =>
      rw [reclaimFrom_nil]
      exact hs
    | case2 n s i work work' s' htake ih =>
      have hmid := hround i work s hs
      rw [htake] at hmid
      rw [reclaimFrom_of_ok htake]
      exact ih hmid
    | case3 n s i work e s' htake =>
      have hmid := hround i work s hs
      rw [htake] at hmid
      rw [reclaimFrom_of_error htake]
      exact hmid
  exact hloop 0

instance lasting_reclaim (work : List Nat) : Lasting (reclaim (ν := ν) work) :=
  ⟨fun _ hs => reclaim_keeps (fun i work => (lasting_takeBack i work).rung) hs⟩

instance lasting_collect : Lasting (collect (ν := ν)) := by
  refine .bind .get fun s => ?_
  exact .bind (.modify fun _ h => h) fun _ => lasting_reclaim _

instance lasting_release (i : Nat) : Lasting (release (ν := ν) i) := by
  refine .bind (lasting_decrement i) fun last => ?_
  cases last with
  | false => exact .pure _
  | true =>
    refine .bind .get fun s => ?_
    cases s.reclamation with
    | immediate => exact .discard
    | deferred batch =>
      refine .bind (.modify fun _ h => h) fun _ => .bind .get fun s => ?_
      exact .ite

instance lasting_forM_release (slots : List Nat) : Lasting (slots.forM (release (ν := ν))) := by
  induction slots with
  | nil => exact .pure _
  | cons i slots ih => exact .bind (lasting_release i) fun _ => ih

instance lasting_noteSize (n : Nat) : Lasting (noteSize (ν := ν) n) := .modify fun _ h => h

instance lasting_nextSlot? : Lasting (nextSlot? (ν := ν)) := by
  constructor
  intro s hs
  unfold nextSlot?
  split
  · exact hs
  · split <;> exact hs

instance lasting_allocate (c : Cell ν) : Lasting (allocate c) := by
  refine .bind lasting_nextSlot? fun slot => ?_
  cases slot with
  | some i => exact .bind (.modify fun _ h => h) fun _ => .pure _
  | none => exact .bind (lasting_forM_release _) fun _ => .bind .get fun _ => .throw _

instance lasting_giveBack (held : List Nat) (e : Failure) :
    Lasting (giveBack (ν := ν) (α := α) held e) := by
  induction held generalizing e with
  | nil => exact .throw e
  | cons i held ih =>
    constructor
    intro s hs
    have hrel := (lasting_release i).rung s hs
    unfold giveBack
    cases hr : release i s <;> rw [hr] at hrel <;> exact (ih _).rung _ hrel

instance lasting_guarding {held : List Nat} {action : StoreM ν α} [h : Lasting action] :
    Lasting (guarding held action) := by
  constructor
  intro s hs
  have ha := h.rung s hs
  unfold guarding
  cases hr : action s with
  | ok a s' =>
    rw [hr] at ha
    exact ha
  | error e s' =>
    rw [hr] at ha
    exact (lasting_giveBack held e).rung s' ha

instance lasting_share (root : Option Nat) : Lasting (share (ν := ν) root) := by
  cases root with
  | none => exact .pure _
  | some i => exact .bind (lasting_retain i) fun _ => .pure _

instance lasting_unshare (root : Option Nat) : Lasting (unshare (ν := ν) root) := by
  cases root with
  | none => exact .pure _
  | some i => exact lasting_release i

end StoreM

/-! ## Actions that carry a state along -/

namespace CarryM

variable {γ σ α ν : Type}

instance lasting_lift [Alarmed σ] {action : EStateM Failure σ α} [h : Lasting action] :
    Lasting (lift (γ := γ) action) := by
  constructor
  rintro ⟨s, g⟩ hs
  have ha := h.rung s hs
  show Rung (final (match action s with
    | .ok a s' => .ok a (s', g)
    | .error e s' => .error e (s', g)))
  cases hr : action s <;> rw [hr] at ha <;> exact ha

instance lasting_step [Alarmed σ] (f : γ → α × γ) : Lasting (step (σ := σ) f) :=
  ⟨fun _ hs => hs⟩

instance lasting_guarding {held : List Nat} {action : CarryM γ (Store ν) α}
    [h : Lasting action] : Lasting (guarding held action) := by
  constructor
  intro s hs
  have ha := h.rung s hs
  unfold guarding
  cases hr : action s with
  | ok a s' =>
    rw [hr] at ha
    exact ha
  | error e s' =>
    rw [hr] at ha
    exact lasting_lift.rung s' ha

instance lasting_runFrom [Alarmed σ] {g : γ} {action : CarryM γ σ α} [h : Lasting action] :
    Lasting (runFrom g action) := by
  constructor
  intro s hs
  have ha := h.rung (s, g) hs
  unfold runFrom
  cases hr : action (s, g) <;> rw [hr] at ha <;> exact ha

end CarryM

/-! ## Actions on subtrees -/

namespace Subtree

open StoreM

variable {γ K Q V T : Type} (aug : Augment K V T)

instance lasting_height (t : Option Nat) : Lasting (height (K := K) (V := V) (T := T) t) := by
  cases t with
  | none => exact .pure _
  | some i => exact .bind (lasting_read i) fun _ => .pure _

instance lasting_isRed (t : Option Nat) : Lasting (isRed (K := K) (V := V) (T := T) t) := by
  cases t with
  | none => exact .pure _
  | some i => exact .bind (lasting_read i) fun _ => .pure _

instance lasting_leftIsRed (i : Nat) : Lasting (leftIsRed (K := K) (V := V) (T := T) i) :=
  .bind (lasting_read i) fun _ => lasting_isRed _

instance lasting_rightIsRed (i : Nat) : Lasting (rightIsRed (K := K) (V := V) (T := T) i) :=
  .bind (lasting_read i) fun _ => lasting_isRed _

instance lasting_peek (t : Option Nat) : Lasting (peek (K := K) (V := V) (T := T) t) := by
  cases t with
  | none => exact .pure _
  | some i => exact .bind (lasting_read i) fun _ => .pure _

instance lasting_assemble (l : Option Nat) (k : K) (v : V) (c : Color) (r : Option Nat) :
    Lasting (assemble aug l k v c r) := by
  refine .bind lasting_guarding fun ⟨left, right⟩ => ?_
  exact .bind (lasting_noteSize _) fun _ => lasting_allocate _

instance lasting_expose (t : Nat) : Lasting (expose (K := K) (V := V) (T := T) t) := by
  unfold expose
  infer_instance

instance lasting_paint (t : Nat) (c : Color) : Lasting (paint aug t c) := by
  unfold paint
  infer_instance

instance lasting_blacken (t : Option Nat) : Lasting (blacken aug t) := by
  cases t with
  | none => exact .pure _
  | some i => exact .map

instance lasting_endless {α : Type} : Lasting (endless (K := K) (V := V) (T := T) (α := α)) :=
  .throw _

instance lasting_depthBound : Lasting (depthBound (K := K) (V := V) (T := T)) := by
  unfold depthBound
  infer_instance

instance lasting_redPairRight (i : Nat) :
    Lasting (redPairRight (K := K) (V := V) (T := T) i) := by
  unfold redPairRight
  infer_instance

instance lasting_redPairLeft (i : Nat) : Lasting (redPairLeft (K := K) (V := V) (T := T) i) := by
  unfold redPairLeft
  infer_instance

instance lasting_mendRight (e : Exposed K V) (r : Nat) : Lasting (mendRight aug e r) := by
  unfold mendRight
  infer_instance

instance lasting_mendLeft (e : Exposed K V) (l : Nat) : Lasting (mendLeft aug e l) := by
  unfold mendLeft
  infer_instance

instance lasting_joinRight (n : Nat) (tl : Option Nat) (k : K) (v : V) (tr : Option Nat) :
    Lasting (joinRight aug n tl k v tr) := by
  induction n generalizing tl tr with
  | zero => exact lasting_endless
  | succ n ih =>
    cases tl with
    | none => exact .bind lasting_guarding fun _ => lasting_assemble ..
    | some top =>
      unfold joinRight
      infer_instance

instance lasting_joinLeft (n : Nat) (tl : Option Nat) (k : K) (v : V) (tr : Option Nat) :
    Lasting (joinLeft aug n tl k v tr) := by
  induction n generalizing tl tr with
  | zero => exact lasting_endless
  | succ n ih =>
    cases tr with
    | none => exact .bind lasting_guarding fun _ => lasting_assemble ..
    | some top =>
      unfold joinLeft
      infer_instance

instance lasting_join (tl : Option Nat) (k : K) (v : V) (tr : Option Nat) :
    Lasting (join aug tl k v tr) := by
  refine .bind lasting_guarding fun ⟨hl, hr⟩ => ?_
  exact .ite

instance lasting_splitLastFor (n t : Nat) : Lasting (splitLastFor aug n t) := by
  induction n generalizing t with
  | zero => exact lasting_endless
  | succ n ih =>
    refine .bind (lasting_expose t) fun e => ?_
    cases e.right with
    | none => exact .pure _
    | some r =>
      refine .bind lasting_guarding fun ⟨r, k, v⟩ => ?_
      exact .bind (lasting_join ..) fun _ => .pure _

instance lasting_splitLast (t : Nat) : Lasting (splitLast aug t) :=
  .bind lasting_depthBound fun _ => lasting_splitLastFor ..

instance lasting_append (tl tr : Option Nat) : Lasting (append aug tl tr) := by
  cases tl with
  | none => exact .pure _
  | some i => exact .bind lasting_guarding fun ⟨l, k, v⟩ => .map

instance lasting_splitFor [Ord Q] [KeyView K Q] (key : Q) (n : Nat) (t : Option Nat) :
    Lasting (splitFor aug key n t) := by
  induction n generalizing t with
  | zero =>
    cases t with
    | none => exact .pure _
    | some i => exact lasting_endless
  | succ n ih =>
    cases t with
    | none => exact .pure _
    | some i =>
      refine .bind lasting_guarding fun cell => .bind (lasting_expose i) fun e => ?_
      cases sought key cell.data.key with
      | lt => exact .bind lasting_guarding fun p => .bind lasting_guarding fun _ => .pure _
      | gt => exact .bind lasting_guarding fun p => .bind lasting_guarding fun _ => .pure _
      | eq => exact .pure _

instance lasting_split [Ord Q] [KeyView K Q] (t : Option Nat) (key : Q) :
    Lasting (split aug t key) :=
  .bind lasting_depthBound fun _ => lasting_splitFor ..

instance lasting_insert [Ord K] (t : Option Nat) (k : K) (v : V) :
    Lasting (insert aug t k v) := by
  unfold insert
  infer_instance

instance lasting_remove [Ord Q] [KeyView K Q] (t : Option Nat) (key : Q) :
    Lasting (remove aug t key) := by
  unfold remove
  infer_instance

instance lasting_settle {σ : Type} [Alarmed σ] (merge : K → V → V → γ → V × γ)
    (e : Exposed K V) (found : Option V) : Lasting (settle (σ := σ) merge e found) := by
  cases found with
  | none => exact .pure _
  | some ours => exact CarryM.lasting_step _

instance lasting_unionFor [Ord K] (merge : K → V → V → γ → V × γ) (n : Nat)
    (t₁ t₂ : Option Nat) : Lasting (unionFor aug merge n t₁ t₂) := by
  induction n generalizing t₁ t₂ with
  | zero =>
    cases t₂ with
    | none => cases t₁ <;> exact .pure _
    | some j =>
      cases t₁ with
      | none => exact .pure _
      | some i => exact CarryM.lasting_lift
  | succ n ih =>
    cases t₂ with
    | none => cases t₁ <;> exact .pure _
    | some j =>
      cases t₁ with
      | none => exact .pure _
      | some i =>
        unfold unionFor
        infer_instance

instance lasting_union [Ord K] (merge : K → V → V → γ → V × γ) (t₁ t₂ : Option Nat) :
    Lasting (union aug merge t₁ t₂) := by
  unfold union
  infer_instance

instance lasting_buildLevel (red : Nat) (items : List (K × V)) (n depth : Nat) :
    Lasting (buildLevel aug red items n depth) := by
  induction n using Nat.strongRecOn generalizing items depth with
  | ind n ih =>
    unfold buildLevel
    by_cases hn : n = 0
    · rw [if_pos hn]
      exact .pure _
    · rw [if_neg hn]
      refine .bind (ih ((n - 1) / 2) (by omega) items (depth + 1)) fun ⟨l, items⟩ => ?_
      cases items with
      | nil => exact lasting_guarding
      | cons e rest =>
        have hr := ih (n - 1 - (n - 1) / 2) (by omega) rest (depth + 1)
        refine .bind lasting_guarding fun ⟨r, items⟩ => ?_
        exact .bind (lasting_assemble ..) fun _ => .pure _

instance lasting_build (items : List (K × V)) (n : Nat) : Lasting (build aug items n) :=
  .bind (lasting_buildLevel ..) fun ⟨_, _⟩ => .pure _

end Subtree

end SharedForest

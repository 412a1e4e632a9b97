/-
How an action ends.

`Ends` takes what an action answered and says what is known then: one thing where there
is a result, another where there is a failure, and nothing at all where a count has
wrapped on the way.  Since an alarm lasts, a step in the middle of an action may be
taken to have ended in silence when the whole has, and that is all there is to the one
rule that matters, `Ends.bind`.

Steps that only look are not treated this way.  They are known to succeed and to change
nothing, so they are rewritten away with `bind_of_ok`.
-/
import SharedForest.Proofs.Alarm

set_option autoImplicit false

namespace SharedForest

open Alarmed

section

variable {ε σ α β : Type}

/-- A step that is known to succeed. -/
theorem bind_of_ok {m : EStateM ε σ α} {f : α → EStateM ε σ β} {a : α} {s s' : σ}
    (h : m s = .ok a s') : (m >>= f) s = f a s' := by
  show EStateM.bind m f s = _
  rw [EStateM.bind, h]

/-- A step that is known to fail. -/
theorem bind_of_error {m : EStateM ε σ α} {f : α → EStateM ε σ β} {e : ε} {s s' : σ}
    (h : m s = .error e s') : (m >>= f) s = .error e s' := by
  show EStateM.bind m f s = _
  rw [EStateM.bind, h]

/-- A step that looks at the state. -/
theorem bind_get (f : σ → EStateM ε σ β) (s : σ) : (get >>= f) s = f s s := rfl

/-- A step that changes it. -/
theorem bind_modify (g : σ → σ) (f : PUnit → EStateM ε σ β) (s : σ) :
    (modify g >>= f) s = f ⟨⟩ (g s) := rfl

/-- If no count has wrapped, `Q` is known of a result and `E` of a failure. -/
def Ends [Alarmed σ] (r : EStateM.Result ε σ α) (Q : α → σ → Prop) (E : ε → σ → Prop) : Prop :=
  match r with
  | .ok a s => ¬ Rung s → Q a s
  | .error e s => ¬ Rung s → E e s

/-- What is known of a failure that does not happen. -/
def Never (_ : ε) (_ : σ) : Prop := False

namespace Ends

variable [Alarmed σ] {m : EStateM ε σ α} {f : α → EStateM ε σ β} {s s' : σ} {a : α} {e : ε}
  {r : EStateM.Result ε σ α} {Q Q' : α → σ → Prop} {R : β → σ → Prop} {E E' : ε → σ → Prop}

theorem ok (h : Q a s) : Ends (.ok a s) Q E := fun _ => h

theorem error (h : E e s) : Ends (.error e s : EStateM.Result ε σ α) Q E := fun _ => h

/-- An action that is known to succeed. -/
theorem of_ok (h : m s = .ok a s') (hQ : ¬ Rung s' → Q a s') : Ends (m s) Q E := by
  rw [h]
  exact hQ

/-- An action that is known to fail. -/
theorem of_error (h : m s = .error e s') (hE : E e s') : Ends (m s) Q E := by
  rw [h]
  exact error hE

theorem pure (h : Q a s) : Ends ((Pure.pure a : EStateM ε σ α) s) Q E := ok h

/-- Less is known, of results and of failures. -/
theorem mono (h : Ends r Q E) (hQ : ∀ a s, Q a s → Q' a s) (hE : ∀ e s, E e s → E' e s) :
    Ends r Q' E' := by
  cases r with
  | ok a s => exact fun hs => hQ a s (h hs)
  | error e s => exact fun hs => hE e s (h hs)

/-- An action that never fails may do so in any way. -/
theorem sure (h : Ends r Q Never) : Ends r Q E := h.mono (fun _ _ hq => hq) fun _ _ he => he.elim

/-- Less is known of results. -/
theorem weaken (h : Ends r Q E) (hQ : ∀ a s, Q a s → Q' a s) : Ends r Q' E :=
  h.mono hQ fun _ _ he => he

/-- Two things that are known of the same action. -/
theorem and (h : Ends r Q E) (h' : Ends r Q' E') :
    Ends r (fun a s => Q a s ∧ Q' a s) (fun e s => E e s ∧ E' e s) := by
  cases r with
  | ok a s => exact fun hs => ⟨h hs, h' hs⟩
  | error e s => exact fun hs => ⟨h hs, h' hs⟩

/-- One action after another. -/
theorem bind_of_lasting (hm : Ends (m s) Q E) (hf : ∀ a s', Q a s' → Ends (f a s') R E)
    (hl : ∀ a, Lasting (f a)) : Ends ((m >>= f) s) R E := by
  cases hr : m s with
  | ok a s' =>
    rw [hr] at hm
    rw [bind_of_ok hr]
    by_cases hs' : Rung s'
    · -- Whatever comes after, the alarm is still heard in the end.
      have hlast := (hl a).rung s' hs'
      cases hr' : f a s' <;> rw [hr'] at hlast <;> exact fun hs => absurd hlast hs
    · exact hf a s' (hm hs')
  | error e s' =>
    rw [hr] at hm
    rw [bind_of_error hr]
    exact hm

/-- One action after another, where alarms last by instance. -/
theorem bind [∀ a, Lasting (f a)] (hm : Ends (m s) Q E)
    (hf : ∀ a s', Q a s' → Ends (f a s') R E) : Ends ((m >>= f) s) R E :=
  bind_of_lasting hm hf inferInstance

/-- What is done with a result in the end. -/
theorem map {g : α → β} (hm : Ends (m s) (fun a s' => R (g a) s') E) : Ends ((g <$> m) s) R E := by
  show Ends (EStateM.map g m s) R E
  rw [EStateM.map]
  cases hr : m s <;> rw [hr] at hm <;> exact hm

/-- And what was known of it before. -/
theorem of_map {g : α → β} (h : Ends ((g <$> m) s) R E) :
    Ends (m s) (fun a s' => R (g a) s') E := by
  have hmap : (g <$> m) s = EStateM.map g m s := rfl
  rw [hmap, EStateM.map] at h
  cases hr : m s <;> rw [hr] at h <;> exact h

/-- Nothing is claimed of an action that ends with the alarm ringing. -/
theorem of_rung (h : Rung (final r)) : Ends r Q E := by
  cases r <;> exact fun hs => absurd h hs

end Ends

end

end SharedForest

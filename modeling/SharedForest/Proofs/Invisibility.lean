/-
The store does not show in results.

One operation is put to two forests whose histories, options and contents differ: if the
operands unfold to the same trees the answers do, and so do the refusals, as long as there
is place on both sides.

What holds of one operation holds of a run.  The shadow of a session is a function of the
commands, so the same commands give the same shadow under whatever options
(`shadow_execAllBy`).  And a command looks at the figures it names and at nothing else, so
the figures in a scope stay the same when commands that have nothing to do with the scope
are put in between or left out (`agree_foldl`).  Versions do change then, for they count all
that has been derived; this is why a registration, which goes by the version, is not taken
for a command within a scope.
-/
import SharedForest.Proofs.Following

set_option autoImplicit false

namespace SharedForest

open Alarmed

variable {γ K Q V T α : Type}

/-! ## Commands within a scope, and commands that do not touch it -/

namespace Command

variable (σ : Holder → Prop)

/-- What the command looks at is in the scope. -/
def Within : Command K V Q → Prop
  | .empty _ _ | .ofSorted _ _ _ | .ofEntries _ _ _ => True
  | .insert name _ _ _ | .remove name _ _ | .tryRemove name _ _ | .split name _ _ _ =>
    σ (.tree name)
  | .join left _ _ right _ => σ (.tree left) ∧ σ (.tree right)
  | .concat left right _ => σ (.tree left) ∧ σ (.tree right)
  | .union ours theirs _ _ => σ (.tree ours) ∧ σ (.tree theirs)
  | .copy name _ => σ (.tree name)
  | .drop _ => True
  | .intoWalk name _ => σ (.tree name)
  | .pull _ _ | .dropWalk _ => True
  | .register _ _ => False
  | .lookup n v _ => σ (.registered n v)
  | .unregister n v _ => σ (.registered n v)
  | .collect _ => True

/-- No place in the scope is filled or emptied by the command. -/
def Aside : Command K V Q → Prop
  | .empty _ dest | .ofSorted _ _ dest | .ofEntries _ _ dest => ¬ σ (.tree dest)
  | .insert _ _ _ dest | .remove _ _ dest | .tryRemove _ _ dest => ¬ σ (.tree dest)
  | .split _ _ below above => ¬ σ (.tree below) ∧ ¬ σ (.tree above)
  | .join _ _ _ _ dest | .concat _ _ dest | .union _ _ _ dest | .copy _ dest => ¬ σ (.tree dest)
  | .drop name => ¬ σ (.tree name)
  | .intoWalk name dest => ¬ σ (.tree name) ∧ ¬ σ (.walk dest)
  | .pull _ _ => True
  | .dropWalk name => ¬ σ (.walk name)
  | .register n _ => ∀ v, ¬ σ (.registered n v)
  | .lookup _ _ dest => ¬ σ (.tree dest)
  | .unregister n v dest => ¬ σ (.registered n v) ∧ ∀ name ∈ dest, ¬ σ (.tree name)
  | .collect _ => True

/-- Two runs have the same commands within a scope, in the same order, with commands that do not
touch it put in anywhere. -/
inductive Interleaved : List (Command K V Q) → List (Command K V Q) → Prop where
  | nil : Interleaved [] []
  | both {c : Command K V Q} {cs ds : List (Command K V Q)} (h : c.Within σ)
      (rest : Interleaved cs ds) : Interleaved (c :: cs) (c :: ds)
  | left {c : Command K V Q} {cs ds : List (Command K V Q)} (h : c.Aside σ)
      (rest : Interleaved cs ds) : Interleaved (c :: cs) ds
  | right {d : Command K V Q} {cs ds : List (Command K V Q)} (h : d.Aside σ)
      (rest : Interleaved cs ds) : Interleaved cs (d :: ds)

end Command

/-- Figures that are alike but for the version. -/
structure Figure.Resembles (g g' : Figure K V T) : Prop where
  forest : g.forest = g'.forest
  tree : g.tree = g'.tree

namespace Shadow

variable {σ : Holder → Prop} {h h' h₁ h₂ : Shadow K V T} {x : Holder} {name : String}
  {g g₁ g₂ : Option (Figure K V T)} {go go₁ go₂ : Figure K V T → Shadow K V T}

/-- The figures in the scope are alike but for versions. -/
structure Agree (σ : Holder → Prop) (h₁ h₂ : Shadow K V T) : Prop where
  size : h₁.size = h₂.size
  held : ∀ x, σ x → Option.Rel Figure.Resembles (h₁.held x) (h₂.held x)

/-- The figures in the scope are the same. -/
structure Keeps (σ : Holder → Prop) (h h' : Shadow K V T) : Prop where
  size : h'.size = h.size
  held : ∀ x, σ x → h'.held x = h.held x

/-! ## The same command on both sides -/

/-- To hold figures that resemble each other in the same place leaves shadows in agreement. -/
theorem agree_hold (h : Agree σ h₁ h₂) (hg : Option.Rel Figure.Resembles g₁ g₂) :
    Agree σ (h₁.hold x g₁) (h₂.hold x g₂) := by
  refine ⟨h.size, fun y hy => ?_⟩
  show Option.Rel _ (if y = x then g₁ else h₁.held y) (if y = x then g₂ else h₂.held y)
  split
  · exact hg
  · exact h.held y hy

/-- The same for several places, one after another. -/
theorem agree_holdAll {gs₁ gs₂ : List (Figure K V T)} (h : Agree σ h₁ h₂)
    (hgs : List.Forall₂ Figure.Resembles gs₁ gs₂) (dests : List String) :
    Agree σ (h₁.holdAll dests gs₁) (h₂.holdAll dests gs₂) := by
  induction hgs generalizing dests h₁ h₂ with
  | nil => cases dests <;> exact h
  | cons hg _ ih =>
    cases dests with
    | nil => exact h
    | cons dest dests => exact ih (agree_hold h (.some hg)) dests

/-- Both find a figure under a name in the scope, or neither does. -/
theorem agree_withTree (h : Agree σ h₁ h₂) (hname : σ (.tree name))
    (hgo : ∀ g₁ g₂ : Figure K V T, g₁.Resembles g₂ → Agree σ (go₁ g₁) (go₂ g₂)) :
    Agree σ (h₁.withTree name go₁) (h₂.withTree name go₂) := by
  have hheld := h.held _ hname
  rw [withTree, withTree]
  generalize h₁.held (.tree name) = o₁ at hheld
  generalize h₂.held (.tree name) = o₂ at hheld
  cases hheld with
  | none => exact h
  | some hg => exact hgo _ _ hg

section

variable [Ord K] [Ord Q] [KeyView K Q] (aug : Augment K V T) (sort : List (K × V) → List (K × V))

/-- Requests that resemble each other are answered alike, and the answers held alike. -/
theorem agree_make {home home' : Nat} {q₁ q₂ : Request K V Q γ (Figure K V T)}
    (h : Agree σ h₁ h₂) (hhome : home = home')
    (hq : q₁.Alike Figure.Resembles Figure.Resembles q₂) (dests : List String) :
    Agree σ (h₁.make aug sort home q₁ dests) (h₂.make aug sort home' q₂ dests) := by
  subst hhome
  have hplain : Request.Agree Figure.Resembles (h₁.derived home) (h₂.derived home)
      (q₁.plain aug sort home (h₁.derived home)) (q₂.plain aug sort home (h₂.derived home)) :=
    Request.plain_alike aug sort hq (fun _ _ hg => hg.tree)
      (fun _ _ hg => ⟨by rw [hg.forest], fun _ => hg.tree⟩) fun _ _ => ⟨rfl, rfl⟩
  rw [make, make, ← h.size]
  split
  · generalize q₁.plain aug sort home (h₁.derived home) = a₁ at hplain
    generalize q₂.plain aug sort home (h₂.derived home) = a₂ at hplain
    cases hplain with
    | error why => exact h
    | ok halike used =>
      refine agree_holdAll ?_ halike.trees dests
      exact ⟨rfl, h.held⟩
  · exact h

/-- A command within the scope leaves shadows in agreement. -/
theorem agree_step {c : Command K V Q} (h : Agree σ h₁ h₂) (hc : c.Within σ) :
    Agree σ (h₁.step aug sort c) (h₂.step aug sort c) := by
  cases c with
  | empty n dest => exact agree_make aug sort h rfl .empty _
  | ofSorted n items dest => exact agree_make aug sort h rfl (.ofSorted items) _
  | ofEntries n items dest => exact agree_make aug sort h rfl (.ofEntries items) _
  | insert name k v dest =>
    exact agree_withTree h hc fun _ _ hg => agree_make aug sort h hg.forest (.insert hg k v) _
  | remove name key dest =>
    exact agree_withTree h hc fun _ _ hg => agree_make aug sort h hg.forest (.remove hg key) _
  | tryRemove name key dest =>
    exact agree_withTree h hc fun _ _ hg => agree_make aug sort h hg.forest (.tryRemove hg key) _
  | split name key below above =>
    exact agree_withTree h hc fun _ _ hg => agree_make aug sort h hg.forest (.split hg key) _
  | join left k v right dest =>
    exact agree_withTree h hc.1 fun _ _ hl => agree_withTree h hc.2 fun _ _ hr =>
      agree_make aug sort h hl.forest (.join hl k v hr) _
  | concat left right dest =>
    exact agree_withTree h hc.1 fun _ _ hl => agree_withTree h hc.2 fun _ _ hr =>
      agree_make aug sort h hl.forest (.concat hl hr) _
  | union ours theirs merge dest =>
    exact agree_withTree h hc.1 fun _ _ ha => agree_withTree h hc.2 fun _ _ hb =>
      agree_make aug sort h ha.forest (.union ha hb _ _) _
  | copy name dest =>
    exact agree_withTree h hc fun _ _ hg => agree_make aug sort h hg.forest (.copy hg) _
  | drop name => exact agree_hold h .none
  | intoWalk name dest =>
    exact agree_withTree h hc fun _ _ hg => agree_hold (agree_hold h .none) (.some hg)
  | pull name pulls => exact h
  | dropWalk name => exact agree_hold h .none
  | register n name => exact hc.elim
  | lookup n v dest =>
    -- The two sides are alike only in what is held at the place, so nothing else is looked at.
    have hheld := h.held _ hc
    rw [step, step]
    generalize h₁.held (.registered n v) = o₁ at hheld
    generalize h₂.held (.registered n v) = o₂ at hheld
    cases hheld with
    | none => exact h
    | some hg => exact agree_hold h (.some hg)
  | unregister n v dest =>
    have hheld := h.held _ hc
    rw [step, step]
    generalize h₁.held (.registered n v) = o₁ at hheld
    generalize h₂.held (.registered n v) = o₂ at hheld
    cases hheld with
    | none => exact h
    | some hg =>
      cases dest with
      | none => exact agree_hold h .none
      | some dest => exact agree_hold (agree_hold h .none) (.some hg)
  | collect n => exact h

end

/-! ## A command that does not touch the scope -/

theorem Keeps.refl (h : Shadow K V T) : Keeps σ h h := ⟨rfl, fun _ _ => rfl⟩

/-- One step after another. -/
theorem Keeps.trans (hk : Keeps σ h h₁) (hk' : Keeps σ h₁ h₂) : Keeps σ h h₂ :=
  ⟨hk'.size.trans hk.size, fun x hx => (hk'.held x hx).trans (hk.held x hx)⟩

/-- A place outside the scope may be filled or emptied. -/
theorem keeps_hold (hx : ¬ σ x) : Keeps σ h (h.hold x g) := by
  refine ⟨rfl, fun y hy => if_neg ?_⟩
  rintro rfl
  exact hx hy

/-- Several of them, one after another. -/
theorem keeps_holdAll {dests : List String} (hdests : ∀ dest ∈ dests, ¬ σ (.tree dest))
    (gs : List (Figure K V T)) : Keeps σ h (h.holdAll dests gs) := by
  induction dests generalizing h gs with
  | nil => exact .refl h
  | cons dest dests ih =>
    cases gs with
    | nil => exact .refl h
    | cons g gs =>
      have hfirst : Keeps σ h (h.hold (.tree dest) (some g)) := keeps_hold (hdests dest (by simp))
      exact hfirst.trans (ih (fun d hd => hdests d (by simp [hd])) gs)

/-- Whatever figure is gone on with. -/
theorem keeps_withTree (hgo : ∀ g, Keeps σ h (go g)) : Keeps σ h (h.withTree name go) := by
  rw [withTree]
  cases h.held (.tree name) with
  | none => exact .refl h
  | some g => exact hgo g

section

variable [Ord K] [Ord Q] [KeyView K Q] (aug : Augment K V T) (sort : List (K × V) → List (K × V))

/-- To answer a request changes only the places that the answer is held in. -/
theorem keeps_make {home : Nat} {q : Request K V Q γ (Figure K V T)} {dests : List String}
    (hdests : ∀ dest ∈ dests, ¬ σ (.tree dest)) : Keeps σ h (h.make aug sort home q dests) := by
  rw [make]
  split
  · split
    · exact .refl h
    · rename_i r next _
      have hcount : Keeps σ h
          { h with derived := fun n => if n = home then next else h.derived n } :=
        ⟨rfl, fun _ _ => rfl⟩
      exact hcount.trans (keeps_holdAll hdests r.trees)
  · exact .refl h

/-- A command aside from the scope changes nothing in it. -/
theorem keeps_step {c : Command K V Q} (hc : c.Aside σ) : Keeps σ h (h.step aug sort c) := by
  have hone : ∀ {dest : String}, ¬ σ (.tree dest) → ∀ d ∈ [dest], ¬ σ (.tree d) := by
    rintro dest hdest d hd
    rwa [List.mem_singleton.1 hd]
  cases c with
  | empty n dest =>
    rw [step]
    exact keeps_make aug sort (hone hc)
  | ofSorted n items dest => exact keeps_make aug sort (hone hc)
  | ofEntries n items dest => exact keeps_make aug sort (hone hc)
  | insert name k v dest => exact keeps_withTree fun _ => keeps_make aug sort (hone hc)
  | remove name key dest => exact keeps_withTree fun _ => keeps_make aug sort (hone hc)
  | tryRemove name key dest => exact keeps_withTree fun _ => keeps_make aug sort (hone hc)
  | split name key below above =>
    refine keeps_withTree fun _ => keeps_make aug sort fun d hd => ?_
    rcases List.mem_pair.1 hd with rfl | rfl
    · exact hc.1
    · exact hc.2
  | join left k v right dest =>
    exact keeps_withTree fun _ => keeps_withTree fun _ => keeps_make aug sort (hone hc)
  | concat left right dest =>
    exact keeps_withTree fun _ => keeps_withTree fun _ => keeps_make aug sort (hone hc)
  | union ours theirs merge dest =>
    exact keeps_withTree fun _ => keeps_withTree fun _ => keeps_make aug sort (hone hc)
  | copy name dest => exact keeps_withTree fun _ => keeps_make aug sort (hone hc)
  | drop name => exact keeps_hold hc
  | intoWalk name dest =>
    exact keeps_withTree fun _ => (keeps_hold hc.1).trans (keeps_hold hc.2)
  | pull name pulls => exact .refl h
  | dropWalk name => exact keeps_hold hc
  | register n name =>
    refine keeps_withTree fun g => ?_
    split
    · exact keeps_hold (hc _)
    · exact .refl h
  | lookup n v dest =>
    rw [step]
    split
    · exact .refl h
    · exact keeps_hold hc
  | unregister n v dest =>
    rw [step]
    split
    · exact .refl h
    · cases dest with
      | none => exact keeps_hold hc.1
      | some dest => exact (keeps_hold hc.1).trans (keeps_hold (hc.2 dest rfl))
  | collect n => exact .refl h

/-! ## Runs of shadows -/

/-- Runs that are the same within a scope leave the same figures there. -/
theorem agree_foldl {cmds₁ cmds₂ : List (Command K V Q)} (h : Agree σ h₁ h₂)
    (hcmds : Command.Interleaved σ cmds₁ cmds₂) :
    Agree σ (cmds₁.foldl (step aug sort) h₁) (cmds₂.foldl (step aug sort) h₂) := by
  induction hcmds generalizing h₁ h₂ with
  | nil => exact h
  | both hc _ ih => exact ih (agree_step aug sort h hc)
  | left hc _ ih =>
    have hkeeps := keeps_step (h := h₁) aug sort hc
    refine ih ⟨hkeeps.size.trans h.size, fun x hx => ?_⟩
    rw [hkeeps.held x hx]
    exact h.held x hx
  | right hd _ ih =>
    have hkeeps := keeps_step (h := h₂) aug sort hd
    refine ih ⟨h.size.trans hkeeps.size.symm, fun x hx => ?_⟩
    rw [hkeeps.held x hx]
    exact h.held x hx

end

end Shadow

/-! ## Sessions -/

namespace Forest

/-- No count has wrapped, and there was place. -/
def Unhindered (r : EStateM.Result Failure (Forest K V T) α) : Prop :=
  (final r).store.alarms.countHigh = false ∧ exceeded r = false

instance (r : EStateM.Result Failure (Forest K V T) α) : Decidable (Unhindered r) :=
  inferInstanceAs (Decidable (_ ∧ _))

end Forest

namespace Session

variable {aug : Augment K V T} {cs cs₁ cs₂ : List Config} {s s₁ s₂ : Session K V T} {x : Holder}
  {t u : Snapshot}

/-- The command has failed because there was no place left. -/
def exceeded : EStateM.Result Trouble (Session K V T) α → Bool
  | .error e _ => e.exceeds
  | .ok _ _ => false

/-- Handles of the same forest that unfold to the same tree, each in its session. -/
def Same (s₁ s₂ : Session K V T) (t u : Snapshot) : Prop :=
  t.forest = u.forest ∧ ∃ p q : Placed (Node K V T), s₁.Shows t p ∧ s₂.Shows u q ∧ p.bare = q.bare

/-- The two figures say of two handles what there is to see. -/
theorem same_iff_resembles (h₁ : s₁.Tidy aug cs₁ (fun _ => True) 0)
    (h₂ : s₂.Tidy aug cs₂ (fun _ => True) 0) (ht : s₁.Has 0 t) (hu : s₂.Has 0 u) :
    Same s₁ s₂ t u ↔ (s₁.figure t).Resembles (s₂.figure u) := by
  constructor
  · rintro ⟨hforest, p, q, hp, hq, heq⟩
    rw [figure_of_shows h₁ hp, figure_of_shows h₂ hq]
    exact ⟨hforest, heq⟩
  · rintro ⟨hforest, htree⟩
    obtain ⟨p, hp, -⟩ := h₁.exists_shown ht
    obtain ⟨q, hq, -⟩ := h₂.exists_shown hu
    rw [figure_of_shows h₁ hp, figure_of_shows h₂ hq] at htree
    exact ⟨hforest, p, q, hp, hq, htree⟩

/-- What is at a place in two sessions, and what is there in their shadows. -/
theorem rel_iff_shadow {R : Snapshot → Snapshot → Prop}
    (R' : Figure K V T → Figure K V T → Prop)
    (h : ∀ t u, s₁.holding x = some t → s₂.holding x = some u →
      (R t u ↔ R' (s₁.figure t) (s₂.figure u))) :
    Option.Rel R (s₁.holding x) (s₂.holding x)
      ↔ Option.Rel R' (s₁.shadow.held x) (s₂.shadow.held x) := by
  have hheld₁ : s₁.shadow.held x = (s₁.holding x).map s₁.figure := rfl
  have hheld₂ : s₂.shadow.held x = (s₂.holding x).map s₂.figure := rfl
  rw [hheld₁, hheld₂]
  cases ht : s₁.holding x with
  | none =>
    cases hu : s₂.holding x with
    | none => exact iff_of_true .none .none
    | some u => exact iff_of_false nofun nofun
  | some t =>
    cases hu : s₂.holding x with
    | none => exact iff_of_false nofun nofun
    | some u =>
      rw [Option.map_some, Option.map_some, Option.rel_some_some, Option.rel_some_some]
      exact h t u ht hu

/-- New sessions with equally many forests cannot be told apart. -/
theorem shadow_new (aug : Augment K V T) (h : cs₁.length = cs₂.length) :
    (new aug cs₁).shadow = (new aug cs₂).shadow := by
  have hforest : ∀ (cs : List Config) (n : Nat),
      (new aug cs).forests[n]? = (cs[n]?).map (Forest.new n aug) := by
    intro cs n
    simp [new]
  have hshelf : ∀ (cs : List Config) (n : Nat), (new aug cs).shelf n = [] := by
    intro cs n
    rw [shelf, hforest]
    cases cs[n]? <;> rfl
  have hderived : ∀ cs : List Config, (new aug cs).derivedIn = fun _ => 0 := by
    intro cs
    funext n
    rw [derivedIn, hforest]
    cases cs[n]? <;> rfl
  have hheld : ∀ cs : List Config, (new aug cs).shadow.held = fun _ => none := by
    intro cs
    funext x
    refine congrArg (Option.map _) (?_ : (new aug cs).holding x = none)
    cases x with
    | tree name => rfl
    | walk name => rfl
    | registered n v => rw [holding, hshelf]; rfl
  refine Shadow.ext ?_ ((hheld cs₁).trans (hheld cs₂).symm)
    ((hderived cs₁).trans (hderived cs₂).symm)
  show (new aug cs₁).forests.size = (new aug cs₂).forests.size
  simpa [new] using h

section

variable [Ord K] [Ord Q] [KeyView K Q] {sort : List (K × V) → List (K × V)}

/-- No command of the run fails because there is no place left. -/
def roomy (sort : List (K × V) → List (K × V)) :
    List (Command K V Q) → Session K V T → Bool
  | [], _ => true
  | c :: cmds, s =>
    !exceeded (execBy sort (fun _ _ => .ok ()) c s) && roomy sort cmds (next sort c s)

/-- No count has wrapped in the run, and there was always place. -/
def Unhindered (sort : List (K × V) → List (K × V)) (cmds : List (Command K V Q))
    (s : Session K V T) : Prop :=
  (execAllBy sort cmds s).Quiet ∧ roomy sort cmds s = true

/-- After a command the shadow is one step on. -/
theorem shadow_next (h : s.Tidy aug cs (fun _ => True) 0) (c : Command K V Q)
    (hquiet : ¬ Rung (next sort c s))
    (hroom : exceeded (execBy sort (fun _ _ => .ok ()) c s) = false) :
    (next sort c s).shadow = s.shadow.step aug sort c := by
  have hstep : Follows sort aug s c := follows sort h c
  rw [Follows, Comes] at hstep
  rw [next] at hquiet ⊢
  cases hr : execBy sort (fun _ _ => .ok ()) c s with
  | ok a s' =>
    rw [hr] at hstep hquiet
    exact hstep hquiet
  | error e s' =>
    rw [hr] at hstep hquiet hroom
    -- Want of place is all that the shadow knows nothing of.
    rcases (hstep hquiet).1 with hshadow | ⟨hexceeds, -⟩
    · exact hshadow
    · exact absurd (hexceeds.symm.trans hroom) (by simp)

/-- The shadow of what a run reaches is what the commands make of the shadow. -/
theorem shadow_execAllBy (cmds : List (Command K V Q))
    (h : s.Tidy aug cs (fun _ => True) 0) (hfree : Unhindered sort cmds s) :
    (execAllBy sort cmds s).shadow = cmds.foldl (Shadow.step aug sort) s.shadow := by
  obtain ⟨hquiet, hroom⟩ := hfree
  induction cmds generalizing s with
  | nil => rfl
  | cons c cmds ih =>
    rw [execAllBy_cons] at hquiet ⊢
    rw [roomy, Bool.and_eq_true, Bool.not_eq_true'] at hroom
    -- An alarm never stops, so none had rung after the first command.
    have hnext : ¬ Rung (next sort c s) :=
      fun hrung => not_rung_of_quiet hquiet (rung_execAllBy cmds hrung)
    have hstep := after_next (closed_true aug) h c hnext
    rw [ih hstep.went.tidy hquiet hroom.2, shadow_next h c hnext hroom.1, List.foldl_cons]

/-- The same commands leave the same, whatever the options. -/
theorem same_run (hlen : cs₁.length = cs₂.length) (cmds : List (Command K V Q))
    (hfree₁ : Unhindered sort cmds (new aug cs₁)) (hfree₂ : Unhindered sort cmds (new aug cs₂))
    (x : Holder) :
    Option.Rel (fun t u => t.version = u.version ∧
        Same (execAllBy sort cmds (new aug cs₁)) (execAllBy sort cmds (new aug cs₂)) t u)
      ((execAllBy sort cmds (new aug cs₁)).holding x)
      ((execAllBy sort cmds (new aug cs₂)).holding x) := by
  have htidy₁ := tidy_execAllBy (closed_true aug) cmds (tidy_new aug cs₁)
    (not_rung_of_quiet hfree₁.1)
  have htidy₂ := tidy_execAllBy (closed_true aug) cmds (tidy_new aug cs₂)
    (not_rung_of_quiet hfree₂.1)
  have hshadow := shadow_execAllBy cmds (tidy_new aug cs₁) hfree₁
  rw [shadow_new aug hlen, ← shadow_execAllBy cmds (tidy_new aug cs₂) hfree₂] at hshadow
  refine (rel_iff_shadow (fun g g' => g.version = g'.version ∧ g.Resembles g') ?_).2 ?_
  · intro t u ht hu
    exact and_congr Iff.rfl
      (same_iff_resembles htidy₁ htidy₂ (has_of_holding htidy₁ ht) (has_of_holding htidy₂ hu))
  · rw [hshadow]
    cases (execAllBy sort cmds (new aug cs₂)).shadow.held x with
    | none => exact .none
    | some g => exact .some ⟨rfl, rfl, rfl⟩

/-- Runs that are the same within a scope leave the same there. -/
theorem same_scope {σ : Holder → Prop} (h₁ : s₁.Tidy aug cs₁ (fun _ => True) 0)
    (h₂ : s₂.Tidy aug cs₂ (fun _ => True) 0) (hlen : cs₁.length = cs₂.length)
    (hσ : ∀ x, σ x → Option.Rel (Same s₁ s₂) (s₁.holding x) (s₂.holding x))
    {cmds₁ cmds₂ : List (Command K V Q)} (hcmds : Command.Interleaved σ cmds₁ cmds₂)
    (hfree₁ : Unhindered sort cmds₁ s₁) (hfree₂ : Unhindered sort cmds₂ s₂) (hx : σ x) :
    Option.Rel (Same (execAllBy sort cmds₁ s₁) (execAllBy sort cmds₂ s₂))
      ((execAllBy sort cmds₁ s₁).holding x) ((execAllBy sort cmds₂ s₂).holding x) := by
  have htidy₁ := tidy_execAllBy (closed_true aug) cmds₁ h₁ (not_rung_of_quiet hfree₁.1)
  have htidy₂ := tidy_execAllBy (closed_true aug) cmds₂ h₂ (not_rung_of_quiet hfree₂.1)
  have hstart : Shadow.Agree σ s₁.shadow s₂.shadow := by
    refine ⟨h₁.size.trans (hlen.trans h₂.size.symm), fun y hy => ?_⟩
    refine (rel_iff_shadow Figure.Resembles ?_).1 (hσ y hy)
    intro t u ht hu
    exact same_iff_resembles h₁ h₂ (has_of_holding h₁ ht) (has_of_holding h₂ hu)
  have hend := Shadow.agree_foldl aug sort hstart hcmds
  rw [← shadow_execAllBy cmds₁ h₁ hfree₁, ← shadow_execAllBy cmds₂ h₂ hfree₂] at hend
  refine (rel_iff_shadow Figure.Resembles fun t u ht hu => ?_).2 (hend.held x hx)
  exact same_iff_resembles htidy₁ htidy₂ (has_of_holding htidy₁ ht) (has_of_holding htidy₂ hu)

/-- The store does not show in results: an operation on handles that unfold to the same trees gives
the same answer, and the same run, or the same run within a scope, leaves the same trees. -/
theorem arena_invisible (aug : Augment K V T) (sort : List (K × V) → List (K × V))
    (configs₁ configs₂ : List Config) :
    (∀ (s₁ s₂ : Session K V T) (n₁ n₂ : Nat) (f₁ f₂ : Forest K V T)
        (q₁ q₂ : Request K V Q γ Snapshot),
      s₁.Reached Q sort aug configs₁ → s₂.Reached Q sort aug configs₂ →
      s₁.forests[n₁]? = some f₁ → s₂.forests[n₂]? = some f₂ →
      q₁.Among s₁.handles n₁ → q₂.Among s₂.handles n₂ →
      q₁.Alike (f₁.Same f₂) (f₁.SameOrForeign f₂) q₂ →
      Forest.Unhindered (q₁.run sort f₁) → Forest.Unhindered (q₂.run sort f₂) →
      Forest.SameEnd (q₁.run sort f₁) (q₂.run sort f₂)) ∧
    (configs₁.length = configs₂.length → ∀ cmds : List (Command K V Q),
      Unhindered sort cmds (new aug configs₁) → Unhindered sort cmds (new aug configs₂) →
      ∀ x, Option.Rel (fun t u => t.version = u.version ∧
          Same (execAllBy sort cmds (new aug configs₁)) (execAllBy sort cmds (new aug configs₂)) t u)
        ((execAllBy sort cmds (new aug configs₁)).holding x)
        ((execAllBy sort cmds (new aug configs₂)).holding x)) ∧
    (configs₁.length = configs₂.length → ∀ (s₁ s₂ : Session K V T) (σ : Holder → Prop)
        (cmds₁ cmds₂ : List (Command K V Q)),
      s₁.Reached Q sort aug configs₁ → s₂.Reached Q sort aug configs₂ →
      (∀ x, σ x → Option.Rel (Same s₁ s₂) (s₁.holding x) (s₂.holding x)) →
      Command.Interleaved σ cmds₁ cmds₂ →
      Unhindered sort cmds₁ s₁ → Unhindered sort cmds₂ s₂ →
      ∀ x, σ x → Option.Rel (Same (execAllBy sort cmds₁ s₁) (execAllBy sort cmds₂ s₂))
        ((execAllBy sort cmds₁ s₁).holding x) ((execAllBy sort cmds₂ s₂).holding x)) := by
  refine ⟨?_, fun hlen cmds hfree₁ hfree₂ x => same_run hlen cmds hfree₁ hfree₂ x, ?_⟩
  · intro s₁ s₂ n₁ n₂ f₁ f₂ q₁ q₂ h₁ h₂ hf₁ hf₂ hq₁ hq₂ hq hfree₁ hfree₂
    have htidy₁ := h₁.tidy (closed_true aug)
    have htidy₂ := h₂.tidy (closed_true aug)
    obtain ⟨c₁, hc₁⟩ := htidy₁.exists_config hf₁
    obtain ⟨c₂, hc₂⟩ := htidy₂.exists_config hf₂
    obtain ⟨F₁, hsound₁, hF₁⟩ := htidy₁.exists_sound hf₁ hc₁
    obtain ⟨F₂, hsound₂, hF₂⟩ := htidy₂.exists_sound hf₂ hc₂
    obtain ⟨-, haug₁, -⟩ := htidy₁.tended n₁ f₁ c₁ hf₁ hc₁
    obtain ⟨-, haug₂, -⟩ := htidy₂.tended n₂ f₂ c₂ hf₂ hc₂
    -- Each run ends as the plain operation says of its trees, and those are the same.
    exact Forest.sameEnd_of_alike hF₁ hsound₁ hF₂ hsound₂ (haug₂.trans haug₁.symm)
      (htidy₁.posed hf₁ hq₁) (htidy₂.posed hf₂ hq₂) hq
      (by simpa [Rung] using hfree₁.1) (by simpa [Rung] using hfree₂.1) hfree₁.2 hfree₂.2
  · intro hlen s₁ s₂ σ cmds₁ cmds₂ h₁ h₂ hσ hcmds hfree₁ hfree₂ x hx
    exact same_scope (h₁.tidy (closed_true aug)) (h₂.tidy (closed_true aug)) hlen hσ hcmds hfree₁
      hfree₂ hx

end

deriving instance DecidableEq for Node

deriving instance DecidableEq for Cell

/-- A session that has done more than `shortRun` before it has come to the same tree. -/
def elsewhere : Session Nat Int64 Int64 :=
  execAllBy Forest.sortByKey
    [.ofSorted 0 [(7, 70), (8, 80)] "z", .empty 0 "a",
      (.insert "a" 2 20 "b" : Command Nat Int64), .drop "z"]
    (new .sum [{ maxNodes := 6 }])

/-- Some commands for trees under four names. -/
def errand : List (Command Nat Int64) :=
  [.empty 0 "a", .insert "a" 2 20 "b", .insert "b" 1 10 "c", .tryRemove "c" 2 "d"]

/-- The same commands, with others in between. -/
def detour : List (Command Nat Int64) :=
  [.ofSorted 0 [(7, 70)] "z", .empty 0 "a", .insert "a" 2 20 "b", .drop "z", .insert "b" 1 10 "c",
    .collect 0, .tryRemove "c" 2 "d"]

theorem interleaved_detour (σ : Holder → Prop)
    (hσ : ∀ x, σ x ↔ x ∈ [.tree "a", .tree "b", .tree "c", .tree "d"]) :
    Command.Interleaved σ errand detour := by
  have hmine : ∀ name, name ∈ ["a", "b", "c", "d"] → σ (.tree name) := by
    intro name hname
    rw [hσ]
    simpa using hname
  have hother : ¬ σ (.tree "z") := by
    rw [hσ]
    decide
  exact .right hother (.both trivial (.both (hmine "a" (by decide)) (.right hother
    (.both (hmine "b" (by decide)) (.right trivial (.both (hmine "c" (by decide)) .nil))))))

theorem arena_invisible_elsewhere :
    (∃ f₁ f₂, shortRun.forests[0]? = some f₁ ∧ elsewhere.forests[0]? = some f₂ ∧
      Forest.SameEnd
        ((.insert ⟨0, some 1, 1⟩ 3 30 : Request Nat Int64 Nat Unit Snapshot).run
          Forest.sortByKey f₁)
        ((.insert ⟨0, some 2, 2⟩ 3 30 : Request Nat Int64 Nat Unit Snapshot).run
          Forest.sortByKey f₂)) ∧
    (∀ x, Option.Rel (fun t u => t.version = u.version ∧
        Same (execAllBy Forest.sortByKey errand (new .sum [{ reclamation := .deferred 2 }]))
          (execAllBy Forest.sortByKey errand (new .sum [{ maxNodes := 6 }])) t u)
      ((execAllBy Forest.sortByKey errand (new .sum [{ reclamation := .deferred 2 }])).holding x)
      ((execAllBy Forest.sortByKey errand (new .sum [{ maxNodes := 6 }])).holding x)) ∧
    Option.Rel
      (Same (execAllBy Forest.sortByKey errand (new .sum [{ reclamation := .deferred 2 }]))
        (execAllBy Forest.sortByKey detour (new .sum [{ maxNodes := 6 }])))
      ((execAllBy Forest.sortByKey errand
        (new .sum [{ reclamation := .deferred 2 }])).holding (.tree "d"))
      ((execAllBy Forest.sortByKey detour (new .sum [{ maxNodes := 6 }])).holding (.tree "d")) := by
  obtain ⟨hone, hrun, hscope⟩ := arena_invisible (K := Nat) (V := Int64) (T := Int64) (Q := Nat)
    (γ := Unit) .sum Forest.sortByKey [{ reclamation := .deferred 2 }] [{ maxNodes := 6 }]
  refine ⟨?_, hrun rfl errand ?_ ?_, ?_⟩
  · obtain ⟨f₁, hf₁⟩ := Option.isSome_iff_exists.1
      (show (shortRun.forests[0]?).isSome by decide +kernel)
    obtain ⟨f₂, hf₂⟩ := Option.isSome_iff_exists.1
      (show (elsewhere.forests[0]?).isSome by decide +kernel)
    have hcell₁ : (shortRun.forests[0]?).bind (·.store.cell? 1)
        = some ⟨none, none, ⟨2, 20, .black, 1, 1, 20⟩⟩ := by decide +kernel
    have hcell₂ : (elsewhere.forests[0]?).bind (·.store.cell? 2)
        = some ⟨none, none, ⟨2, 20, .black, 1, 1, 20⟩⟩ := by decide +kernel
    have hfree₁ : (shortRun.forests[0]?).all fun f => Forest.Unhindered
        ((.insert ⟨0, some 1, 1⟩ 3 30 : Request Nat Int64 Nat Unit Snapshot).run
          Forest.sortByKey f) := by decide +kernel
    have hfree₂ : (elsewhere.forests[0]?).all fun f => Forest.Unhindered
        ((.insert ⟨0, some 2, 2⟩ 3 30 : Request Nat Int64 Nat Unit Snapshot).run
          Forest.sortByKey f) := by decide +kernel
    rw [hf₁] at hcell₁ hfree₁
    rw [hf₂] at hcell₂ hfree₂
    have hsame : f₁.Same f₂ ⟨0, some 1, 1⟩ ⟨0, some 2, 2⟩ :=
      ⟨.node .absent ⟨2, 20, .black, 1, 1, 20⟩ .absent,
        ⟨.node .absent (1, ⟨2, 20, .black, 1, 1, 20⟩) .absent, rfl, ⟨hcell₁, trivial, trivial⟩, rfl⟩,
        ⟨.node .absent (2, ⟨2, 20, .black, 1, 1, 20⟩) .absent, rfl, ⟨hcell₂, trivial, trivial⟩, rfl⟩⟩
    refine ⟨f₁, f₂, hf₁, hf₂, hone shortRun elsewhere 0 0 f₁ f₂ _ _ reached_shortRun
      ⟨by decide +kernel, _, rfl⟩ hf₁ hf₂ ⟨?_, nofun⟩ ⟨?_, nofun⟩ (.insert hsame 3 30)
      (by simpa using hfree₁) (by simpa using hfree₂)⟩
    · rintro _ ⟨⟩
      exact ⟨by decide +kernel, rfl⟩
    · rintro _ ⟨⟩
      exact ⟨by decide +kernel, rfl⟩
  · exact ⟨by decide +kernel, by decide +kernel⟩
  · exact ⟨by decide +kernel, by decide +kernel⟩
  · refine hscope rfl _ _ (· ∈ [.tree "a", .tree "b", .tree "c", .tree "d"]) errand detour
      ⟨by decide +kernel, [], rfl⟩ ⟨by decide +kernel, [], rfl⟩ ?_
      (interleaved_detour _ fun _ => Iff.rfl) ⟨by decide +kernel, by decide +kernel⟩
      ⟨by decide +kernel, by decide +kernel⟩ (.tree "d") (by decide)
    -- Nothing is held at first.
    intro x hx
    simp only [List.mem_cons, List.not_mem_nil, or_false] at hx
    rcases hx with rfl | rfl | rfl | rfl <;> exact .none

end Session

end SharedForest

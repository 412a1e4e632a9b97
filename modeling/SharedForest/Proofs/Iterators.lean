/-
Iterators in a session.

There are two kinds.  Some are used beside a session and hold nothing: they, and their
clones, are good as long as the handle they were made from is held somewhere, whatever else
is done to the forest (`watch`).  Others own their tree, which has no other handle then: a
session keeps them under a name, and they are good until they are dropped (`pulled`).

Both kinds only ever look at the tree, and the tree stays as it is, slot for slot, as long as
a handle on it is held.  So of each use it is known beforehand what it will yield, by lists
alone (`told`, `Pull.all`).
-/
import SharedForest.Proofs.BothEnds
import SharedForest.Proofs.Fold
import SharedForest.Proofs.Safety

set_option autoImplicit false

namespace SharedForest

open Tree Std Alarmed Traversal

variable {K Q V T : Type}

/-- The entries of a handle are those of its tree, if that is orderly. -/
theorem Forest.entries_spec [Ord K] [TransOrd K] {aug : Augment K V T} {f : Forest K V T}
    {c : Config} {F : Multiset (Placed (Node K V T))} {p : Placed (Node K V T)} {t : Snapshot}
    (hs : f.store.Sound c F) (hp : f.store.Unfolds p) (hord : Orderly aug p.bare)
    (hroot : p.root = t.root) : f.entries t = .ok p.bare.entries := by
  rw [Forest.entries, ← hroot]
  exact Subtree.entries_spec hs hp (hord.size_toNat hs hp)

/-- What is below a node of an orderly tree is gone through like a tree of its own. -/
theorem Cursor.below_spans [Ord K] [TransOrd K] {aug : Augment K V T} {s : NodeStore K V T}
    {c : Cursor} {cfg : Config} {F : Multiset (Placed (Node K V T))}
    {p q : Placed (Node K V T)} (hs : s.Sound cfg F)
    (hp : s.Unfolds p) (hord : Orderly aug p.bare) (hway : Way p c q) :
    ∃ w, c.below s = .ok w ∧ Spans p w q.bare.entries := by
  obtain ⟨⟨hq, hordq⟩, hsub⟩ := hway.inherits
    (P := fun q => (s.Unfolds q ∧ Orderly aug q.bare) ∧ q.slots ⊆ p.slots)
    (fun l d r h => by
      obtain ⟨hl, hr⟩ := kept_orderly_children l d r h.1
      exact ⟨⟨hl, fun i hi => h.2 (mem_slots_node.2 (.inl hi))⟩,
        ⟨hr, fun i hi => h.2 (mem_slots_node.2 (.inr (.inr hi)))⟩⟩)
    ⟨⟨hp, hord⟩, fun _ hi => hi⟩
  rw [Cursor.below, hway.current_eq]
  exact full_spans hs hp hq hsub (hordq.size_toNat hs hq)

/-! ## Beside a session -/

/-- What can happen while there are iterators beside a session; these have numbers. -/
inductive Beside (K V Q : Type) where
  | pull (i : Nat) (use : Pull)
  | clone (i : Nat)
  | command (cmd : Command K V Q)

namespace Beside

/-- The commands that are carried out in between. -/
def commands : List (Beside K V Q) → List (Command K V Q)
  | [] => []
  | .pull _ _ :: events => commands events
  | .clone _ :: events => commands events
  | .command cmd :: events => cmd :: commands events

/-- What the iterators are to yield that have the lists in `ess` before them. -/
def told : List (Beside K V Q) → List (List (K × V)) → List (Yield K V)
  | [], _ => []
  | .pull i use :: events, ess =>
    match ess[i]? with
    | none => told events ess
    | some es => (use.of es).1 :: told events (ess.set i (use.of es).2)
  | .clone i :: events, ess => told events (ess ++ ess[i]?.toList)
  | .command _ :: events, ess => told events ess

end Beside

namespace Command

/-- The command ends the walk under the name, or puts another one in its place. -/
def Replaces (name : String) : Command K V Q → Prop
  | .intoWalk _ dest => dest = name
  | .dropWalk source => source = name
  | _ => False

/-- The uses that the command makes of the walk under the name. -/
def usesOf (name : String) : Command K V Q → List Pull
  | .pull source uses => if source = name then uses else []
  | _ => []

end Command

namespace Session

section

variable [Ord K] [Ord Q] [KeyView K Q]

/-- What the iterators `ws` over the tree of `t` yield while commands are carried out in between;
nothing if a use fails. -/
def watch (sort : List (K × V) → List (K × V)) (t : Snapshot) :
    List (Beside K V Q) → Session K V T → List Traversal → Option (List (Yield K V))
  | [], _, _ => some []
  | .pull i use :: events, s, ws =>
    match ws[i]? with
    | none => watch sort t events s ws
    | some w => do
      let f ← s.forests[t.forest]?
      let (y, w) ← (w.pull f.store use).toOption
      let ys ← watch sort t events s (ws.set i w)
      return y :: ys
  | .clone i :: events, s, ws => watch sort t events s (ws ++ ws[i]?.toList)
  | .command cmd :: events, s, ws => watch sort t events (next sort cmd s) ws

/-- The iterator `w`, used beside the session in any way, with its clones and with commands in
between, goes through `es`, as long as the handle that is at `x` is not given up. -/
def Deals (Q : Type) [Ord Q] [KeyView K Q] (sort : List (K × V) → List (K × V))
    (s : Session K V T) (x : Holder) (t : Snapshot) (w : Traversal) (es : List (K × V)) : Prop :=
  ∀ events : List (Beside K V Q), (trace sort (Beside.commands events) s x).isSome →
    (execAllBy sort (Beside.commands events) s).Quiet →
    watch sort t events s [w] = some (Beside.told events [es])

end

/-- Lists that are related entry by entry are so at each index, as far as they go. -/
theorem forall₂_cases {α β : Type} {R : α → β → Prop} {l : List α} {l' : List β}
    (h : List.Forall₂ R l l') (i : Nat) :
    (l[i]? = none ∧ l'[i]? = none) ∨ ∃ a b, l[i]? = some a ∧ l'[i]? = some b ∧ R a b := by
  induction h generalizing i with
  | nil => exact .inl ⟨rfl, rfl⟩
  | cons hab _ ih =>
    cases i with
    | zero => exact .inr ⟨_, _, rfl, rfl, hab⟩
    | succ i => exact ih i

theorem forall₂_set {α β : Type} {R : α → β → Prop} {l : List α} {l' : List β} {a : α} {b : β}
    (h : List.Forall₂ R l l') (i : Nat) (hab : R a b) :
    List.Forall₂ R (l.set i a) (l'.set i b) := by
  induction h generalizing i with
  | nil => exact .nil
  | cons hcd h ih =>
    cases i with
    | zero => exact .cons hab h
    | succ i => exact .cons hcd (ih i)

variable {aug : Augment K V T} {cs : List Config} {s : Session K V T} {t : Snapshot}
  {p : Placed (Node K V T)} {ws : List Traversal} {ess : List (List (K × V))} {x : Holder}

section

variable [Ord K] [Ord Q] [KeyView K Q] {sort : List (K × V) → List (K × V)}

omit [Ord K] in
/-- The store of the forest of a handle that shows a tree. -/
theorem Shows.exists_sound (hp : s.Shows t p) (h : s.Tidy aug cs (fun _ => True) 0) :
    ∃ f c F, s.forests[t.forest]? = some f ∧ f.store.Sound c F ∧ f.store.Unfolds p := by
  obtain ⟨f, hf, -, hunf⟩ := hp
  obtain ⟨c, hc⟩ := h.exists_config hf
  obtain ⟨F, hsound, -⟩ := h.exists_sound hf hc
  exact ⟨f, c, F, hf, hsound, hunf⟩

/-- Iterators that are used beside a session yield what is to be expected of their lists. -/
theorem watch_eq_told (events : List (Beside K V Q)) (h : s.Tidy aug cs (fun _ => True) 0)
    (ht : s.holding x = some t) (hp : s.Shows t p)
    (hkept : (trace sort (Beside.commands events) s x).isSome)
    (hquiet : ¬ Rung (execAllBy sort (Beside.commands events) s))
    (hws : List.Forall₂ (Spans p) ws ess) :
    watch sort t events s ws = some (Beside.told events ess) := by
  induction events generalizing s ws ess x with
  | nil => rfl
  | cons event events ih =>
    cases event with
    | pull i use =>
      rw [watch, Beside.told]
      rcases forall₂_cases hws i with ⟨hw, hes⟩ | ⟨w, es, hw, hes, hspans⟩
      · rw [hw, hes]
        exact ih h ht hp hkept hquiet hws
      · obtain ⟨f, c, F, hf, hsound, hunf⟩ := hp.exists_sound h
        obtain ⟨w', hpull, hspans'⟩ := hspans.pull hsound hunf use
        have hrest := ih h ht hp hkept hquiet (forall₂_set hws i hspans')
        rw [hw, hes]
        simp only [hf, hpull, Except.toOption, Option.bind_eq_bind, Option.bind_some, hrest,
          Option.pure_def]
    | clone i =>
      refine ih h ht hp hkept hquiet (List.rel_append hws ?_)
      rcases forall₂_cases hws i with ⟨hw, hes⟩ | ⟨w, es, hw, hes, hspans⟩
      · rw [hw, hes]
        exact .nil
      · rw [hw, hes]
        exact .cons hspans .nil
    | command cmd =>
      rw [Beside.commands, trace] at hkept
      rw [Beside.commands, execAllBy_cons] at hquiet
      have hnext : ¬ Rung (next sort cmd s) := fun hrung => hquiet (rung_execAllBy _ hrung)
      have hstep := after_next (closed_true aug) h cmd hnext
      -- The command takes the handle from `x` to some other place, and its tree is the same there.
      cases hgo : goes sort s cmd x with
      | none =>
        rw [hgo] at hkept
        cases hkept
      | some x' =>
        rw [hgo] at hkept
        have ht' := hstep.tracks x x' t hgo ht
        exact ih hstep.went.tidy ht' (hstep.went.kept t p (has_of_holding h ht)
          (has_of_holding hstep.went.tidy ht') hp) hkept hquiet hws

/-! ## Kept by a session -/

/-- What a command yields that uses the walk under the name. -/
def yieldsOf (name : String) (cmd : Command K V Q)
    (res : EStateM.Result Trouble (Session K V T) (Outcome K V Unit)) : List (Yield K V) :=
  match cmd, res with
  | .pull source _, .ok (.yields ys) _ => if source = name then ys else []
  | _, _ => []

/-- What the walk under the name yields in the course of a run. -/
def pulled (sort : List (K × V) → List (K × V)) (name : String) :
    List (Command K V Q) → Session K V T → List (Yield K V)
  | [], _ => []
  | cmd :: cmds, s =>
    yieldsOf name cmd (execBy sort (fun _ _ => .ok ()) cmd s)
      ++ pulled sort name cmds (next sort cmd s)

variable {source name dest : String} {f : Forest K V T} {w : Traversal} {walk : Walk}
  {es : List (K × V)}

variable (sort) in
/-- A tree is made into a walk, and a walk that had the name is given up. -/
theorem intoWalk_spec (h : s.Tidy aug cs (fun _ => True) 0) (ht : s.trees.get? source = some t)
    (hf : s.forests[t.forest]? = some f) (hw : f.traverse t = .ok w) (dest : String) :
    ∃ s', execBy sort (fun _ _ => .ok ()) (.intoWalk source dest : Command K V Q) s
        = .ok (.count w.remaining) s' ∧ s'.walks = s.walks.put dest ⟨t, w⟩ := by
  have htree : tree source s = .ok t s := by
    rw [tree, bind_get, ht]
    rfl
  have hview : onView t.forest (·.traverse t) s = .ok w s := by
    rw [onView, hf]
    dsimp only
    rw [hw]
  have hwent := went_intoWalk h ht dest w
  rw [execBy, bind_of_ok htree, bind_of_ok hview, bind_get, bind_modify]
  cases hold : s.walks.get? dest with
  | none => exact ⟨_, rfl, rfl⟩
  | some old =>
    rw [hold, Option.map_some, Option.toList_some, Multiset.coe_singleton,
      ← zero_add ({old.tree} : Multiset Snapshot)] at hwent
    obtain ⟨s', hrun, -, -, hwalks, -⟩ := discard_spec hwent
    exact ⟨s', bind_of_ok hrun, hwalks⟩

variable (sort) in
/-- Using a walk changes nothing but its position. -/
theorem pull_spec (h : s.Tidy aug cs (fun _ => True) 0) (hw : s.walks.get? name = some walk)
    (hp : s.Shows walk.tree p) (hspans : Spans p walk.position es) (uses : List Pull) :
    ∃ w', execBy sort (fun _ _ => .ok ()) (.pull name uses : Command K V Q) s
        = .ok (.yields (Pull.all uses es).1)
          { s with walks := s.walks.put name { walk with position := w' } } ∧
      Spans p w' (Pull.all uses es).2 := by
  obtain ⟨f, c, F, hf, hsound, hunf⟩ := hp.exists_sound h
  obtain ⟨w', hpulls, hspans'⟩ := hspans.pulls hsound hunf uses
  have hwalk : Session.walk name s = .ok walk s := by
    rw [Session.walk, bind_get, hw]
    rfl
  have hview : onView walk.tree.forest (fun f => walk.position.pulls f.store uses) s
      = .ok ((Pull.all uses es).1, w') s := by
    rw [onView, hf]
    dsimp only
    rw [hpulls]
  refine ⟨w', ?_, hspans'⟩
  rw [execBy, bind_of_ok hwalk]
  exact bind_of_ok hview

/-- A command that does not use a walk and does not replace it leaves it as it is. -/
theorem walk_kept (h : s.Tidy aug cs (fun _ => True) 0) {cmd : Command K V Q}
    (hfree : ¬ cmd.Replaces name) (huse : ∀ uses, cmd ≠ .pull name uses) :
    (next sort cmd s).walks.get? name = s.walks.get? name := by
  cases cmd with
  | intoWalk source dest =>
    have hne : name ≠ dest := fun heq => hfree heq.symm
    -- Where there is such a tree a walk is stored, but under another name; where there is none
    -- nothing happens.
    rcases tree_cases source s with ⟨t, ht, -⟩ | ⟨-, herror⟩
    · have hhas := has_of_holding h (x := .tree source) ht
      obtain ⟨p, hp, -⟩ := h.exists_shown hhas
      obtain ⟨f, c, F, hf, hsound, hunf⟩ := hp.exists_sound h
      obtain ⟨w, hw, -⟩ := Traversal.full_ok hsound hunf
      obtain ⟨f', hf', hroot, -⟩ := hp
      rw [hroot] at hw
      obtain ⟨s', hrun, hwalks⟩ := intoWalk_spec (Q := Q) sort h ht hf hw dest
      rw [next, hrun]
      show s'.walks.get? name = _
      rw [hwalks, Names.get?_put_other _ _ hne]
    · rw [next, execBy, bind_of_error herror]
      rfl
  | pull source uses =>
    have hne : name ≠ source := by
      rintro rfl
      exact huse uses rfl
    rw [next, execBy]
    -- Only the place of the walk that is pulled changes.
    rcases walk_cases source s with ⟨w, -, hok⟩ | ⟨-, herror⟩
    · rw [bind_of_ok hok]
      rcases onView_cases w.tree.forest (fun f => w.position.pulls f.store uses) s with
        ⟨f, ⟨ys, position⟩, -, -, hview⟩ | ⟨e, hview⟩
      · rw [bind_of_ok hview]
        exact Names.get?_put_other _ _ hne
      · rw [bind_of_error hview]
        rfl
    · rw [bind_of_error herror]
      rfl
  | dropWalk source =>
    have hne : name ≠ source := fun heq => hfree heq.symm
    rw [next, execBy, bind_get]
    cases s.walks.get? source with
    | none => rfl
    | some w =>
      have hleaves : Leaves walks (do
          discard w.tree
          return .flag true : SessionM K V T (Outcome K V Unit)) := inferInstance
      exact (congrArg (Names.get? · name) (hleaves.same _)).trans (Names.get?_erase_other _ hne)
  | _ =>
    rw [next, (walks_execBy id).same]

/-- One command: the walk yields what its list says for the uses that are made of it, and goes on
with the rest. -/
theorem walk_next (h : s.Tidy aug cs (fun _ => True) 0) (hw : s.walks.get? name = some walk)
    (hp : s.Shows walk.tree p) (hspans : Spans p walk.position es) {cmd : Command K V Q}
    (hfree : ¬ cmd.Replaces name) :
    yieldsOf name cmd (execBy sort (fun _ _ => .ok ()) cmd s)
        = (Pull.all (cmd.usesOf name) es).1 ∧
      ∃ w', (next sort cmd s).walks.get? name = some ⟨walk.tree, w'⟩ ∧
        Spans p w' (Pull.all (cmd.usesOf name) es).2 := by
  by_cases huse : ∃ uses, cmd = .pull name uses
  · obtain ⟨uses, rfl⟩ := huse
    obtain ⟨w', hrun, hspans'⟩ := pull_spec (Q := Q) sort h hw hp hspans uses
    rw [next, hrun, Command.usesOf, if_pos rfl]
    exact ⟨if_pos rfl, w', Names.get?_put_self _ _ _, hspans'⟩
  -- A command that does not pull the walk makes no use of it, and leaves it as it is.
  · have hnone : cmd.usesOf name = [] := by
      cases cmd with
      | pull source uses => exact if_neg fun heq => huse ⟨uses, by rw [heq]⟩
      | _ => rfl
    rw [walk_kept h hfree fun uses heq => huse ⟨uses, heq⟩, hnone]
    refine ⟨?_, walk.position, hw, hspans⟩
    cases cmd with
    | pull source uses =>
      have hne : source ≠ name := fun heq => huse ⟨uses, by rw [heq]⟩
      cases execBy sort (fun _ _ => .ok ()) (.pull source uses : Command K V Q) s with
      | error e s' => rfl
      | ok out s' =>
        cases out with
        | yields ys => exact if_neg hne
        | _ => rfl
    | _ => rfl

/-- A walk that a session keeps yields what is to be expected of its list. -/
theorem pulled_eq (cmds : List (Command K V Q)) (h : s.Tidy aug cs (fun _ => True) 0)
    (hw : s.walks.get? name = some walk) (hp : s.Shows walk.tree p)
    (hspans : Spans p walk.position es) (hfree : ∀ cmd ∈ cmds, ¬ cmd.Replaces name)
    (hquiet : ¬ Rung (execAllBy sort cmds s)) :
    pulled sort name cmds s = (Pull.all (cmds.flatMap (Command.usesOf name)) es).1 := by
  induction cmds generalizing s walk es with
  | nil => rfl
  | cons cmd cmds ih =>
    rw [execAllBy_cons] at hquiet
    have hnext : ¬ Rung (next sort cmd s) := fun hrung => hquiet (rung_execAllBy _ hrung)
    have hwent := (after_next (closed_true aug) h cmd hnext).went
    obtain ⟨hyields, w', hw', hspans'⟩ := walk_next h hw hp hspans (hfree cmd (by simp))
    have hp' : (next sort cmd s).Shows walk.tree p := hwent.kept walk.tree p
      (has_of_holding h (x := .walk name) (congrArg (Option.map Walk.tree) hw))
      (has_of_holding hwent.tidy (x := .walk name) (congrArg (Option.map Walk.tree) hw')) hp
    rw [pulled, List.flatMap_cons, Pull.all_append, hyields,
      ih hwent.tidy hw' hp' hspans' (fun cmd hcmd => hfree cmd (List.mem_cons_of_mem _ hcmd)) hquiet]

/-- A tree that is made into a walk yields what is to be expected, whatever becomes of all other
handles. -/
theorem owned_spec (h : s.Tidy aug cs (fun _ => True) 0) (ht : s.trees.get? source = some t)
    (hf : s.forests[t.forest]? = some f) (hroot : p.root = t.root) (hunf : f.store.Unfolds p)
    (hw : f.traverse t = .ok w) (hspans : Spans p w es) (name : String) :
    ∃ s', execBy sort (fun _ _ => .ok ()) (.intoWalk source name : Command K V Q) s
        = .ok (.count es.length) s' ∧
      ∀ cmds : List (Command K V Q), (∀ cmd ∈ cmds, ¬ cmd.Replaces name) →
        (execAllBy sort cmds s').Quiet →
          pulled sort name cmds s' = (Pull.all (cmds.flatMap (Command.usesOf name)) es).1 := by
  obtain ⟨s', hrun, hwalks⟩ := intoWalk_spec (Q := Q) sort h ht hf hw name
  refine ⟨s', by rw [hrun, hspans.remaining hunf], fun cmds hfree hquiet => ?_⟩
  have hnext : next sort (.intoWalk source name : Command K V Q) s = s' := by
    rw [next, hrun]
    rfl
  have hend := not_rung_of_quiet hquiet
  have hrest : ¬ Rung (next sort (.intoWalk source name : Command K V Q) s) :=
    fun hrung => hend (rung_execAllBy cmds (hnext ▸ hrung))
  have hwent := (after_next (closed_true aug) h _ hrest).went
  rw [hnext] at hwent
  have hwalk : s'.walks.get? name = some ⟨t, w⟩ := by rw [hwalks, Names.get?_put_self]
  have hp' : s'.Shows t p := hwent.kept t p (has_of_holding h (x := .tree source) ht)
    (has_of_holding hwent.tidy (x := .walk name) (congrArg (Option.map Walk.tree) hwalk))
    ⟨f, hf, hroot, hunf⟩
  exact pulled_eq cmds hwent.tidy hwalk hp' hspans hfree hend

end

/-! ## The law -/

section

variable [Ord K] [TransOrd K] [Ord Q] [KeyView K Q] {sort : List (K × V) → List (K × V)}
  {f : Forest K V T} {w : Traversal} {es : List (K × V)}

omit [TransOrd K] in
theorem deals_of_spans (h : s.Tidy aug cs (fun _ => True) 0) (ht : s.holding x = some t)
    (hp : s.Shows t p) (hspans : Spans p w es) : Deals Q sort s x t w es :=
  fun events hkept hquiet =>
    watch_eq_told events h ht hp hkept (not_rung_of_quiet hquiet) (.cons hspans .nil)

omit [TransOrd K] [Ord Q] [KeyView K Q] in
/-- The tree of a handle, with all that is known of it. -/
theorem Tidy.exists_orderly (h : s.Tidy aug cs (Valid aug) 0) (ht : s.holding x = some t) :
    ∃ f c F p, s.forests[t.forest]? = some f ∧ p.root = t.root ∧ f.store.Sound c F ∧
      f.store.Unfolds p ∧ Orderly aug p.bare := by
  obtain ⟨f, hf, hmem⟩ := has_of_holding h ht
  obtain ⟨c, hc⟩ := h.exists_config hf
  obtain ⟨-, -, htended⟩ := h.tended t.forest f c hf hc
  obtain ⟨F, hF, hsound, hvalid⟩ := htended.backs
  obtain ⟨p, hp, hroot⟩ := Forest.exists_tree hF hmem
  exact ⟨f, c, F, p, hf, hroot.symm, hsound, hsound.unfolds hp,
    (hvalid p hp).balanced.cached, (hvalid p hp).increasing⟩

theorem Reached.exists_orderly (h : s.Reached Q sort aug cs) (ht : s.holding x = some t) :
    ∃ f c F p, s.forests[t.forest]? = some f ∧ p.root = t.root ∧ f.store.Sound c F ∧
      f.store.Unfolds p ∧ Orderly aug p.bare :=
  (h.tidy (closed_valid (Q := Q) aug)).exists_orderly ht

/-- In every session that a run reaches an iterator over a tree, or over the part of it below some
node, goes through the entries in order, from both ends, and tells how many are left: if it holds
nothing itself, as long as the handle is held that it was made from; if it owns the tree, as long as
it is there. -/
theorem double_ended_exact {configs : List Config} (h : s.Reached Q sort aug configs)
    (ht : s.holding x = some t) :
    ∃ f p, s.forests[t.forest]? = some f ∧ p.root = t.root ∧ f.store.Unfolds p ∧
      (∃ w, f.traverse t = .ok w ∧ Deals Q sort s x t w p.bare.entries) ∧
      (∀ c q, Way p c q → ∃ w, c.below f.store = .ok w ∧ Deals Q sort s x t w q.bare.entries) ∧
      (∀ source name, x = .tree source → ∃ s',
        execBy sort (fun _ _ => .ok ()) (.intoWalk source name : Command K V Q) s
          = .ok (.count p.bare.entries.length) s' ∧
        ∀ cmds : List (Command K V Q), (∀ cmd ∈ cmds, ¬ cmd.Replaces name) →
          (execAllBy sort cmds s').Quiet → pulled sort name cmds s'
            = (Pull.all (cmds.flatMap (Command.usesOf name)) p.bare.entries).1) ∧
      ∀ (es : List (K × V)) (sides : List Side),
        (Pull.all (sides.map Pull.takes) es).2.length = es.length - sides.length ∧
        ∀ m (hm : m < sides.length), (Pull.all (sides.map Pull.takes) es).1[m]?
          = some (.entry (if m < es.length then
              sides[m].pick es[(sides.take m).count .left]?
                es[es.length - 1 - (sides.take m).count .right]? else none)) := by
  obtain ⟨f, c, F, p, hf, hroot, hsound, hunf, hord⟩ := h.exists_orderly ht
  have hshows : s.Shows t p := ⟨f, hf, hroot, hunf⟩
  obtain ⟨w, hw, hspans⟩ := full_spans hsound hunf hunf (fun _ hi => hi)
    (hord.size_toNat hsound hunf)
  rw [hroot] at hw
  refine ⟨f, p, hf, hroot, hunf, ⟨w, hw, deals_of_spans h.tidy_true ht hshows hspans⟩, ?_, ?_,
    fun es sides => ⟨Pull.length_takes sides es, fun m => Pull.all_takes sides es⟩⟩
  · intro c q hway
    obtain ⟨w, hw, hspans⟩ := Cursor.below_spans hsound hunf hord hway
    exact ⟨w, hw, deals_of_spans h.tidy_true ht hshows hspans⟩
  · rintro source name rfl
    exact owned_spec h.tidy_true ht hf hroot hunf hw hspans name

end

/-- Two iterators take turns while the forest goes on. -/
def turns : List (Beside Nat Int64 Nat) :=
  [.pull 0 .next, .clone 0, .command (.insert "c" 3 30 "d"), .pull 1 .nextBack, .pull 0 .remaining,
    .pull 0 .next, .pull 0 .nextBack]

/-- A walk outlives all other handles. -/
def harvest : List (Command Nat Int64 Nat) :=
  [.drop "a", .pull "w" [.nextBack], .unregister 0 1 none, .collect 0, .pull "w" [.next, .next]]

theorem double_ended_exact_shortRun : ∃ f p, shortRun.forests[0]? = some f ∧ p.root = some 3 ∧
    f.store.Unfolds p ∧
    (∃ w, f.traverse ⟨0, some 3, 2⟩ = .ok w ∧
      watch Forest.sortByKey ⟨0, some 3, 2⟩ turns shortRun [w]
        = some (Beside.told turns [p.bare.entries])) ∧
    ∃ s', execBy Forest.sortByKey (fun _ _ => .ok ())
        (.intoWalk "c" "w" : Command Nat Int64 Nat) shortRun
        = .ok (.count p.bare.entries.length) s' ∧
      pulled Forest.sortByKey "w" harvest s'
        = (Pull.all [.nextBack, .next, .next] p.bare.entries).1 := by
  obtain ⟨f, p, hf, hroot, hunf, ⟨w, hw, hdeals⟩, -, howned, -⟩ := double_ended_exact
    (x := .tree "c") (t := ⟨0, some 3, 2⟩) reached_shortRun (by decide +kernel)
  obtain ⟨s', hrun, hpulled⟩ := howned "c" "w" rfl
  have hs' : s' = next Forest.sortByKey (.intoWalk "c" "w" : Command Nat Int64 Nat) shortRun := by
    rw [next, hrun]
    rfl
  refine ⟨f, p, hf, hroot, hunf, ⟨w, hw, hdeals turns (by decide +kernel) (by decide +kernel)⟩, s',
    hrun, hpulled harvest (by simp [harvest, Command.Replaces]) ?_⟩
  rw [hs']
  decide +kernel

end Session

end SharedForest

/-
What a union asks its merge function.

The merge function may carry a state, so it matters which calls are made and in which
order.  The calls can be read off the two trees: one for every key that both have, in the
order in which the second tree has them from its root, each node before those to its left
and those to its right (`sharedCalls`, `preorder`).  The answers to these calls, the
entries whose keys the second tree lacks and the entries whose keys the first one lacks
are what the union holds (`entries_union`).

A union that runs out of places has made the first few of the calls (`union_calls`): the
state of the merge function shows how far it has come.
-/
import SharedForest.Proofs.Simulation
import SharedForest.Proofs.Waning

set_option autoImplicit false

namespace SharedForest

open Tree Std Alarmed

variable {γ δ K Q V T : Type}

/-! ## Calls -/

/-- All payloads, each one before those to its left, and these before those to its right. -/
def Tree.preorder : Tree δ → List δ
  | absent => []
  | node l d r => d :: (l.preorder ++ r.preorder)

/-- Every payload stands in both orders. -/
theorem Tree.perm_preorder (t : Tree δ) : t.preorder.Perm t.toList := by
  induction t with
  | absent => exact .refl _
  | node l d r ihl ihr => exact ((ihl.append ihr).cons d).trans List.perm_middle.symm

/-- Make calls one after another.  The answers come with the keys they are for, and the state in
the end comes with the answers. -/
def mergeAll (merge : K → V → V → γ → V × γ) : List (K × V × V) → γ → List (K × V) × γ
  | [], g => ([], g)
  | (k, ours, theirs) :: calls, g =>
    let answer := merge k ours theirs g
    let rest := mergeAll merge calls answer.2
    ((k, answer.1) :: rest.1, rest.2)

/-- Calls may be made in two parts, the state being handed on. -/
theorem mergeAll_append (merge : K → V → V → γ → V × γ) (done rest : List (K × V × V)) (g : γ) :
    mergeAll merge (done ++ rest) g =
      ((mergeAll merge done g).1 ++ (mergeAll merge rest (mergeAll merge done g).2).1,
        (mergeAll merge rest (mergeAll merge done g).2).2) := by
  induction done generalizing g with
  | nil => rfl
  | cons call done ih =>
    rw [List.cons_append, mergeAll, ih]
    rfl

/-- What is recorded is what is called, the latest first. -/
theorem mergeAll_recordCalls (merge : K → V → V → V) (calls earlier : List (K × V × V)) :
    mergeAll (recordCalls merge) calls earlier =
      (calls.map fun call => (call.1, merge call.1 call.2.1 call.2.2), calls.reverse ++ earlier) := by
  induction calls generalizing earlier with
  | nil => rfl
  | cons call calls ih =>
    rw [mergeAll, recordCalls]
    dsimp only
    rw [ih, List.reverse_cons, List.append_assoc]
    rfl

section

variable [Ord K]

/-- A call for every entry of the second list whose key the first one has as well. -/
def sharedCalls (es us : List (K × V)) : List (K × V × V) :=
  us.filterMap fun e => (valueAt e.1 es).map fun ours => (e.1, ours, e.2)

/-- The entries whose keys the other list lacks. -/
def unmatched (es us : List (K × V)) : List (K × V) :=
  es.filter fun e => (valueAt e.1 us).isNone

@[simp] theorem sharedCalls_nil (us : List (K × V)) : sharedCalls [] us = [] := by
  simp [sharedCalls, valueAt]

/-- An entry of the second list is called for, or has no counterpart. -/
theorem sharedCalls_cons (es us : List (K × V)) (e : K × V) :
    sharedCalls es (e :: us) =
      ((valueAt e.1 es).map fun ours => (e.1, ours, e.2)).toList ++ sharedCalls es us := by
  rw [sharedCalls, List.filterMap_cons, sharedCalls]
  cases valueAt e.1 es <;> rfl

@[simp] theorem unmatched_nil (es : List (K × V)) : unmatched es [] = es := by
  simp [unmatched, valueAt]

theorem sharedCalls_append (es us ws : List (K × V)) :
    sharedCalls es (us ++ ws) = sharedCalls es us ++ sharedCalls es ws := List.filterMap_append

theorem unmatched_append (es us ws : List (K × V)) :
    unmatched (es ++ us) ws = unmatched es ws ++ unmatched us ws := List.filter_append _ _

variable [TransOrd K] {es us : List (K × V)} {k : K} {o : Ordering}

/-- Entries with a given key are all on the same side of `k` as that key is. -/
theorem valueAt_cut {key : K} (h : compare k key = o) (es : List (K × V)) :
    valueAt key (es.filter (sought k ·.1 == o)) = valueAt key es := by
  have hside : ∀ e : K × V, stored e.1 key = .eq → sought k e.1 = o := by
    intro e he
    have hsame : compare e.1 key = .eq := he
    exact (TransCmp.congr_right hsame).trans h
  rw [valueAt, valueAt, List.find?_filter]
  congr 2
  funext e
  by_cases he : stored e.1 key = .eq
  · simp [he, hside e he]
  · simp [he]

/-- Calls for keys on one side of `k` are made with what the first list has on that side. -/
theorem sharedCalls_cut (h : ∀ e ∈ us, compare k e.1 = o) (es : List (K × V)) :
    sharedCalls (es.filter (sought k ·.1 == o)) us = sharedCalls es us :=
  List.filterMap_congr fun e he => by rw [valueAt_cut (h e he)]

/-- Whether a key on one side of `k` is lacked can be told from that side. -/
theorem unmatched_cut (h : ∀ e ∈ es, compare k e.1 = o) (us : List (K × V)) :
    unmatched es (us.filter (sought k ·.1 == o)) = unmatched es us :=
  List.filter_congr fun e he => by rw [valueAt_cut (h e he)]

end

/-! ## Trees -/

namespace Tree

variable [Ord K] [TransOrd K] (aug : Augment K V T) {t t₁ t₂ l r : NodeTree K V T} {d : Node K V T}
  (merge : K → V → V → γ → V × γ)

/-- The calls that a union makes, in this order. -/
def calls (t₁ t₂ : NodeTree K V T) : List (K × V × V) :=
  sharedCalls t₁.entries (t₂.preorder.map Node.entry)

/-- The call for the key of a node, if a value was found at it. -/
def rootCall (found : Option V) (d : Node K V T) : List (K × V × V) :=
  (found.map fun ours => (d.key, ours, d.value)).toList

omit [Ord K] [TransOrd K] in
/-- What stands in the order of calls is an entry. -/
theorem mem_of_mem_preorder {e : K × V} (h : e ∈ t.preorder.map Node.entry) : e ∈ t.entries :=
  ((perm_preorder t).map Node.entry).mem_iff.1 h

/-- The root is asked for first, then the keys below it, then those above it. -/
theorem calls_node (h₁ : Increasing t.entries) (h₂ : Increasing (node l d r).entries) :
    calls t (node l d r) = rootCall ((split aug (sought d.key) t).found.map (·.2)) d ++
      (calls (split aug (sought d.key) t).below l ++ calls (split aug (sought d.key) t).above r) := by
  obtain ⟨-, -, hld, hdr⟩ := increasing_node.1 h₂
  obtain ⟨hbelow, hfound, habove⟩ := split_of_increasing aug (cut_sought d.key) h₁
  have hl : ∀ e ∈ l.preorder.map Node.entry, compare d.key e.1 = .gt :=
    fun e he => OrientedCmp.gt_of_lt (hld e (mem_of_mem_preorder he))
  have hr : ∀ e ∈ r.preorder.map Node.entry, compare d.key e.1 = .lt :=
    fun e he => hdr e (mem_of_mem_preorder he)
  rw [calls, calls, calls, hbelow, habove, sharedCalls_cut hl, sharedCalls_cut hr, hfound,
    find?_sought, ← sharedCalls_append, ← List.map_append]
  exact sharedCalls_cons t.entries ((l.preorder ++ r.preorder).map Node.entry) d.entry

omit [Ord K] [TransOrd K] in
/-- What settles the value at a root is the answer to the call for it. -/
theorem mergeAll_rootCall (found : Option (K × V)) (d : Node K V T) (g : γ) :
    mergeAll merge (rootCall (found.map (·.2)) d) g =
      ((found.map fun _ => (d.key, (settle merge found d g).1)).toList,
        (settle merge found d g).2) := by
  cases found <;> rfl

/-- What the root contributes: its own entry if its key is new, the answer otherwise. -/
theorem unmatched_root (h : Increasing t.entries) (g : γ) :
    unmatched [d.entry] t.entries ++
        (mergeAll merge (rootCall ((split aug (sought d.key) t).found.map (·.2)) d) g).1 =
      [(d.key, (settle merge (split aug (sought d.key) t).found d g).1)] := by
  have hvalue : valueAt d.key t.entries = (split aug (sought d.key) t).found.map (·.2) := by
    rw [(split_of_increasing aug (cut_sought d.key) h).2.1, find?_sought]
  have hroot : unmatched [d.entry] t.entries
      = if ((split aug (sought d.key) t).found.map (·.2)).isNone then [d.entry] else [] := by
    rw [← hvalue]
    simp [unmatched, List.filter_cons, Node.entry]
  rw [hroot, mergeAll_rootCall]
  cases (split aug (sought d.key) t).found <;> rfl

/-- The two sides of a root are what a split at its key makes of the tree. -/
theorem filter_node (h : Increasing (node l d r).entries) :
    (node l d r).entries.filter (sought d.key ·.1 == .gt) = l.entries ∧
      (node l d r).entries.filter (sought d.key ·.1 == .lt) = r.entries := by
  obtain ⟨-, -, hld, hdr⟩ := increasing_node.1 h
  have hl : ∀ e ∈ l.entries, compare d.key e.1 = .gt := fun e he => OrientedCmp.gt_of_lt (hld e he)
  have hd : sought d.key d.key = .eq := ReflOrd.compare_self (α := K)
  rw [entries_node]
  simp only [List.filter_append, List.filter_cons, Node.entry, hd]
  rw [filter_of_forall (sought d.key) hl, filter_of_forall (sought d.key) hl,
    filter_of_forall (sought d.key) hdr, filter_of_forall (sought d.key) hdr]
  exact ⟨List.append_nil _, rfl⟩

/-- Whether the tree lacks a key of the node can be told from the part on the same side. -/
theorem unmatched_node (h₁ : Increasing t.entries) (h₂ : Increasing (node l d r).entries) :
    unmatched (node l d r).entries t.entries =
      unmatched l.entries (split aug (sought d.key) t).below.entries ++
        (unmatched [d.entry] t.entries ++
          unmatched r.entries (split aug (sought d.key) t).above.entries) := by
  obtain ⟨-, -, hld, hdr⟩ := increasing_node.1 h₂
  obtain ⟨hbelow, -, habove⟩ := split_of_increasing aug (cut_sought d.key) h₁
  rw [hbelow, habove, unmatched_cut fun e he => OrientedCmp.gt_of_lt (hld e he), unmatched_cut hdr,
    entries_node, unmatched_append, List.append_cancel_left_eq]
  exact unmatched_append [d.entry] r.entries t.entries

/-- The other way round, and the key of the root itself is not lacked. -/
theorem unmatched_parts (h₁ : Increasing t.entries) (h₂ : Increasing (node l d r).entries) :
    unmatched t.entries (node l d r).entries =
      unmatched (split aug (sought d.key) t).below.entries l.entries ++
        unmatched (split aug (sought d.key) t).above.entries r.entries := by
  obtain ⟨hl, hr⟩ := filter_node h₂
  obtain ⟨hbelow, hfound, habove⟩ := split_of_increasing aug (cut_sought d.key) h₁
  have hside : ∀ o, ∀ e ∈ t.entries.filter (sought d.key ·.1 == o), compare d.key e.1 = o :=
    fun o e he => beq_iff_eq.1 (List.mem_filter.1 he).2
  have hroot : unmatched (split aug (sought d.key) t).found.toList (node l d r).entries = [] := by
    refine List.filter_eq_nil_iff.2 fun e he => ?_
    rw [hfound, Option.mem_toList] at he
    have hsame := List.find?_some he
    rw [beq_iff_eq] at hsame
    have hmem : d.entry ∈ (node l d r).entries := by simp
    have hsome : ((node l d r).entries.find? fun x => stored x.1 e.1 == .eq).isSome :=
      List.find?_isSome.2 ⟨d.entry, hmem, beq_iff_eq.2 hsame⟩
    rw [valueAt, Option.isNone_map, Bool.not_eq_true, Option.isNone_eq_false_iff]
    exact hsome
  rw [← hl, ← hr, unmatched_cut (by rw [hbelow]; exact hside .gt),
    unmatched_cut (by rw [habove]; exact hside .lt), ← entries_split aug (sought d.key),
    unmatched_append, unmatched_append, hroot, List.append_nil]

/-- A union holds what only one of the trees has and the answers to its calls. -/
theorem entries_union (h₁ : Increasing t₁.entries) (h₂ : Increasing t₂.entries) (g : γ) :
    (union aug merge t₁ t₂ g).1.entries.Perm (unmatched t₁.entries t₂.entries ++
        unmatched t₂.entries t₁.entries ++ (mergeAll merge (calls t₁ t₂) g).1) ∧
      (union aug merge t₁ t₂ g).2 = (mergeAll merge (calls t₁ t₂) g).2 := by
  induction t₂ generalizing t₁ g with
  | absent => simp [union, calls, preorder, sharedCalls, mergeAll, unmatched, valueAt]
  | node l d r ihl ihr =>
    cases t₁ with
    | absent => simp [union, calls, mergeAll, unmatched, valueAt]
    | node tl e tr =>
      obtain ⟨hincl, hincr, -⟩ := increasing_parts aug (sought d.key) h₁
      obtain ⟨hl, hr, -⟩ := increasing_node.1 h₂
      have hroot := unmatched_root aug merge (d := d) h₁ g
      rw [union, calls_node aug h₁ h₂, unmatched_node aug h₁ h₂, unmatched_parts aug h₁ h₂]
      dsimp only
      set p := split aug (sought d.key) (node tl e tr)
      obtain ⟨hbelow, hstate⟩ := ihl hincl hl (settle merge p.found d g).2
      obtain ⟨habove, hstate'⟩ := ihr hincr hr (union aug merge p.below l (settle merge p.found d g).2).2
      rw [entries_join, mergeAll_append, mergeAll_append, mergeAll_rootCall]
      rw [mergeAll_rootCall] at hroot
      rw [hstate] at habove hstate' ⊢
      refine ⟨?_, hstate'⟩
      -- Left, root and right, each with its own three parts.
      rw [← List.singleton_append, ← hroot]
      refine (hbelow.append (List.Perm.append_left _ habove)).trans ?_
      rw [← Multiset.coe_eq_coe]
      simp only [← Multiset.coe_add]
      abel

end Tree

/-! ## Failures -/

/-- The first few of the calls have been made. -/
def Begun (merge : K → V → V → γ → V × γ) (calls : List (K × V × V)) (g g' : γ) : Prop :=
  ∃ done, done <+: calls ∧ g' = (mergeAll merge done g).2

namespace Begun

variable {merge : K → V → V → γ → V × γ} {first calls more : List (K × V × V)} {g g' : γ}

theorem start : Begun merge calls g g := ⟨[], List.nil_prefix, rfl⟩

theorem finish : Begun merge calls g (mergeAll merge calls g).2 := ⟨calls, List.prefix_rfl, rfl⟩

/-- What has begun on fewer calls has begun on more. -/
theorem before (h : Begun merge calls g g') : Begun merge (calls ++ more) g g' := by
  obtain ⟨done, hdone, rfl⟩ := h
  exact ⟨done, hdone.trans (List.prefix_append _ _), rfl⟩

/-- Begun on the rest, once the first ones are made. -/
theorem after (h : Begun merge calls (mergeAll merge first g).2 g') :
    Begun merge (first ++ calls) g g' := by
  obtain ⟨done, hdone, rfl⟩ := h
  exact ⟨first ++ done, (List.prefix_append_right_inj first).2 hdone, by rw [mergeAll_append]⟩

end Begun

instance leaves_snd_lift {σ α : Type} {m : EStateM Failure σ α} :
    Leaves Prod.snd (CarryM.lift (γ := γ) m) := by
  constructor
  rintro ⟨s, g⟩
  cases hr : m s with
  | ok a s' => rw [CarryM.lift_of_ok hr]; rfl
  | error e s' => rw [CarryM.lift_of_error hr]; rfl

instance leaves_snd_guarding {ν α : Type} {held : List Nat} {action : CarryM γ (Store ν) α}
    [h : Leaves Prod.snd action] : Leaves Prod.snd (CarryM.guarding held action) := by
  constructor
  intro sg
  have hsame := h.same sg
  unfold CarryM.guarding
  cases hr : action sg with
  | ok a sg' =>
    rw [hr] at hsame
    exact hsame
  | error e sg' =>
    rw [hr] at hsame
    exact (Leaves.after Prod.snd (CarryM.lift (StoreM.giveBack (α := α) held e)) sg').trans hsame

namespace Ends

variable {σ α ν : Type} [Alarmed σ] {held : List Nat} {g : γ}

/-- What is given back on the way out does not touch what is carried along. -/
theorem guarding_beside {P : γ → Prop} {action : CarryM γ (Store ν) α} {sg : Store ν × γ}
    {R : α → Store ν × γ → Prop} (h : Ends (action sg) R fun _ sg' => P sg'.2) :
    Ends (CarryM.guarding held action sg) R fun _ sg' => P sg'.2 := by
  unfold CarryM.guarding
  cases hr : action sg with
  | ok a sg' =>
    rw [hr] at h
    exact h
  | error e sg' =>
    rw [hr] at h
    obtain ⟨s, g⟩ := sg'
    obtain ⟨e', s', hback⟩ := StoreM.giveBack_fails (α := α) held e s
    have hlast := (inferInstance :
      Lasting (CarryM.lift (γ := γ) (StoreM.giveBack (α := α) held e))).rung (s, g)
    dsimp only
    rw [CarryM.lift_of_error hback] at hlast ⊢
    exact fun hs => h fun hs' => hs (hlast hs')

/-- What is known of the result from one side and of the failure from another. -/
theorem failing {ε : Type} {r : EStateM.Result ε σ α} {Q Q' : α → σ → Prop} {E E' : ε → σ → Prop}
    (h : Ends r Q E) (h' : Ends r Q' E') : Ends r Q E' :=
  (h.and h').mono (fun _ _ hq => hq.1) fun _ _ he => he.2

/-- An action that leaves the state of the merge function alone fails before any call. -/
theorem starting {merge : K → V → V → γ → V × γ} {calls : List (K × V × V)}
    {action : CarryM γ σ α} [Leaves Prod.snd action] {s : σ} {Q : α → σ × γ → Prop}
    {E : Failure → σ × γ → Prop} (h : Ends (action (s, g)) Q E) :
    Ends (action (s, g)) Q fun _ sg => Begun merge calls g sg.2 := by
  refine (h.leaving Prod.snd).mono (fun _ _ hq => hq.1) fun _ sg he => ?_
  rw [he.2]
  exact .start

/-- Or after all of them, if the state is that in the end. -/
theorem finishing {merge : K → V → V → γ → V × γ} {calls : List (K × V × V)}
    {action : CarryM γ σ α} [Leaves Prod.snd action] {s : σ} {Q : α → σ × γ → Prop}
    {E : Failure → σ × γ → Prop} (h : Ends (action (s, (mergeAll merge calls g).2)) Q E) :
    Ends (action (s, (mergeAll merge calls g).2)) Q fun _ sg => Begun merge calls g sg.2 := by
  refine (h.leaving Prod.snd).mono (fun _ _ hq => hq.1) fun _ sg he => ?_
  rw [he.2]
  exact .finish

end Ends

namespace Subtree

variable [Ord K] [TransOrd K] (aug : Augment K V T) (merge : K → V → V → γ → V × γ)
  {s : NodeStore K V T} {c : Config} {F : Multiset (Placed (Node K V T))}
  {p q : Placed (Node K V T)}

/-- A union that fails has made the first few of its calls. -/
theorem unionFor_calls {n : Nat} {g : γ} (hn : q.depth ≤ n) (h : s.Sound c (F + {p} + {q}))
    (hp : Increasing p.bare.entries) (hq : Increasing q.bare.entries) :
    Ends (unionFor aug merge n p.root q.root (s, g))
      (Carrying (Store.Owned c F (p.bare.union aug merge q.bare g).1)
        (p.bare.union aug merge q.bare g).2)
      (fun _ sg => Begun merge (calls p.bare q.bare) g sg.2) := by
  induction n generalizing p q s F g with
  | zero =>
    cases q with
    | absent =>
      exact .failing (unionFor_spec aug merge hn h) (.pure (Q := fun _ _ => True) trivial)
    | node l d r => exact absurd hn (Nat.not_succ_le_zero _)
  | succ n ih =>
    -- The result is known already, so this is about failures.
    refine .failing (unionFor_spec aug merge hn h) (?_ : Ends _ (fun _ _ => True) _)
    cases q with
    | absent => exact .pure trivial
    | node l d r =>
      obtain ⟨j, d⟩ := d
      cases p with
      | absent => exact .pure trivial
      | node tl e tr =>
        obtain ⟨i, e⟩ := e
        have hdepth : l.depth ≤ n ∧ r.depth ≤ n := by
          simp only [Tree.depth] at hn
          omega
        rw [Tree.bare_node l r] at hq ⊢
        obtain ⟨hincl, hincr, -⟩ := increasing_parts aug (sought d.key) hp
        obtain ⟨hl, hr, -⟩ := increasing_node.1 hq
        rw [calls_node aug hp hq]
        simp only [Tree.root_node]
        rw [unionFor]
        refine .bind (.starting (.guarding_carrying_never (c := c) (F := F) (expose_spec h)))
          fun ex sg₁ h₁ => ?_
        obtain ⟨s₁, rfl, rfl, h₁⟩ := h₁
        have hsplit := split_spec aug d.key (p := .node tl (i, e) tr) (F := F + {l} + {r})
          (h₁.cast (by abel))
        rw [Tree.bare_node tl tr] at hsplit hincl hincr ⊢
        set parts := Tree.split aug (sought d.key) (.node tl.bare e tr.bare)
        refine .bind (.starting (.guarding_carrying_two l r (.lift hsplit))) fun res sg₂ h₂ => ?_
        obtain ⟨s₂, rfl, x, y, rfl, hx, hy, h₂⟩ := h₂
        rw [bind_of_ok (settle_eq merge _), ← hx, ← hy]
        rw [← hx] at hincl
        rw [← hy] at hincr
        -- The root has been asked for by now; each half goes on from the state that it finds.
        have hroot := congrArg Prod.snd (mergeAll_rootCall merge parts.found d g)
        dsimp only at hroot
        rw [← hroot]
        have hbelow : s₂.Sound c (F + {y} + {r} + {x} + {l}) := h₂.cast (by abel)
        refine .bind (.guarding_beside ((ih hdepth.1 hbelow hincl hl).mono (fun _ _ hq => hq)
          fun _ _ he => .after (.before he))) fun root sg₃ h₃ => ?_
        obtain ⟨s₃, rfl, below, rfl, -, h₃⟩ := h₃
        have habove : s₃.Sound c (F + {below} + {y} + {r}) := h₃.cast (by abel)
        rw [(entries_union aug merge hincl hl _).2]
        refine .bind (.guarding_beside ((ih hdepth.2 habove hincr hr).mono (fun _ _ hq => hq)
          fun _ _ he => .after (.after he))) fun root sg₄ h₄ => ?_
        obtain ⟨s₄, rfl, above, rfl, -, h₄⟩ := h₄
        rw [(entries_union aug merge hincr hr _).2]
        exact .map ((Ends.finishing (.lift (join_spec aug d.key _ h₄))).mono (fun _ _ _ => trivial)
          fun _ _ he => .after (.after he))

/-- The state in the end is that after all calls; and if places run out, that after the first few of
them. -/
theorem union_calls {g : γ} (h : s.Sound c (F + {p} + {q})) (hp : Increasing p.bare.entries)
    (hq : Increasing q.bare.entries) :
    Ends (union aug merge p.root q.root (s, g))
      (Carrying (Store.Owned c F (p.bare.union aug merge q.bare g).1)
        (mergeAll merge (calls p.bare q.bare) g).2)
      (fun _ sg => Begun merge (calls p.bare q.bare) g sg.2) := by
  rw [union, bind_of_ok (CarryM.lift_of_ok depthBound_eq), ← (entries_union aug merge hp hq g).2]
  exact unionFor_calls aug merge (Nat.le_of_lt (h.depth_lt h.unfolds_last)) h hp hq

end Subtree

namespace Forest

variable [Ord K] [TransOrd K] (merge : K → V → V → γ → V × γ) {c : Config}
  {F : Multiset (Placed (Node K V T))} {p q : Placed (Node K V T)} {f : Forest K V T}
  {t u : Snapshot}

omit [Ord K] [TransOrd K] in
/-- An action on the store of a forest leaves the state as the action leaves it. -/
theorem onStoreCarrying_beside {α : Type} {action : Augment K V T → CarryM γ (NodeStore K V T) α}
    {g : γ} {P : γ → Prop} {Q : α → NodeStore K V T × γ → Prop}
    (h : Ends (action f.augment (f.store, g)) Q fun _ sg => P sg.2) :
    Ends (onStoreCarrying action (f, g)) (fun _ _ => True) fun _ fg => P fg.2 := by
  unfold onStoreCarrying
  dsimp only
  cases hr : action f.augment (f.store, g) with
  | ok a sg => exact fun _ => trivial
  | error e sg =>
    rw [hr] at h
    exact h

/-- What a union makes of two trees in order. -/
theorem union_begun (g : γ) (h : f.store.Sound c F) (hp : p ∈ F) (ht : t.root = p.root)
    (hq : q ∈ F) (hu : u.root = q.root) (hown : u.forest = f.id)
    (hincp : Increasing p.bare.entries) (hincq : Increasing q.bare.entries) :
    Ends (union merge t u (f, g)) (fun _ _ => True)
      (fun _ fg => Begun merge (calls p.bare q.bare) g fg.2) := by
  have hstore : Ends ((do
      let t₁ ← CarryM.lift (StoreM.share p.root)
      let t₂ ← CarryM.lift (StoreM.share q.root)
      let united ← Subtree.union f.augment merge t₁ t₂
      CarryM.lift (Subtree.blacken f.augment united) : CarryM γ (NodeStore K V T) _) (f.store, g))
      (fun _ _ => True) fun _ sg => Begun merge (calls p.bare q.bare) g sg.2 := by
    refine .bind (.starting (.lift (c := c) (F := F) (share_held h hp))) fun root sg₁ h₁ => ?_
    obtain ⟨s₁, rfl, rfl, h₁⟩ := h₁
    refine .bind (.starting (.lift (c := c) (F := F) (share_held h₁ (p := q) (by simp [hq]))))
      fun root sg₂ h₂ => ?_
    obtain ⟨s₂, rfl, rfl, h₂⟩ := h₂
    refine .bind (Subtree.union_calls f.augment merge h₂ hincp hincq) fun root sg₃ h₃ => ?_
    obtain ⟨s₃, rfl, x, rfl, hx, h₃⟩ := h₃
    exact (Ends.finishing (.lift (Subtree.blacken_spec f.augment h₃))).weaken fun _ _ _ => trivial
  have hreq := requireOwn_eq u f
  rw [if_pos hown] at hreq
  rw [← ht, ← hu] at hstore
  rw [union, bind_of_ok (CarryM.lift_of_ok hreq)]
  refine .bind (onStoreCarrying_beside hstore) fun root fg₁ _ => ?_
  exact .of_ok (CarryM.lift_of_ok rfl) fun _ => trivial

/-- What a union of handles on the trees `l` and `r` makes of the merge function, and the other
way round. -/
structure MergesOnce [BEq T] (aug : Augment K V T) (c : Config) (f : Forest K V T)
    (t u : Snapshot) (l r : NodeTree K V T) : Prop where
  distinct : (calls l r).Pairwise fun a b => compare a.1 b.1 ≠ .eq
  shared : ∀ k ours theirs, (k, ours, theirs) ∈ calls l r ↔
    (k, theirs) ∈ r.entries ∧ valueAt k l.entries = some ours
  united : ∀ {γ : Type} (merge : K → V → V → γ → V × γ) (g : γ), Ends (union merge t u (f, g))
    (fun w fg => ∃ x : Placed (Node K V T), x.root = w.root ∧ fg.1.store.Unfolds x ∧
      Valid aug x.bare ∧ fg.1.validate w = .ok () ∧
      x.bare.entries.Perm (unmatched l.entries r.entries ++ unmatched r.entries l.entries ++
        (mergeAll merge (calls l r) g).1) ∧
      fg.2 = (mergeAll merge (calls l r) g).2)
    (fun e fg => Full c e ∧ Begun merge (calls l r) g fg.2)
  /-- With a merge function that keeps no state but the record of its calls. -/
  recorded : ∀ merge : K → V → V → V, Ends (union (recordCalls merge) t u (f, []))
    (fun w fg => (∃ x : Placed (Node K V T), x.root = w.root ∧ fg.1.store.Unfolds x ∧
        x.bare.entries.Perm (unmatched l.entries r.entries ++ unmatched r.entries l.entries ++
          (calls l r).map fun call => (call.1, merge call.1 call.2.1 call.2.2))) ∧
      fg.2.reverse = calls l r)
    (fun e fg => Full c e ∧ fg.2.reverse <+: calls l r)

omit [TransOrd K] in
/-- A key is called for, with both values, exactly if both trees have it. -/
theorem mem_calls {l r : NodeTree K V T} {k : K} {ours theirs : V} :
    (k, ours, theirs) ∈ calls l r ↔ (k, theirs) ∈ r.entries ∧ valueAt k l.entries = some ours := by
  rw [calls, sharedCalls, List.mem_filterMap]
  constructor
  · rintro ⟨e, he, hcall⟩
    obtain ⟨v, hv, heq⟩ := Option.map_eq_some_iff.1 hcall
    cases heq
    exact ⟨mem_of_mem_preorder he, hv⟩
  · rintro ⟨hmem, hv⟩
    refine ⟨_, ((perm_preorder r).map Node.entry).mem_iff.2 hmem, ?_⟩
    rw [hv]
    rfl

/-- No key is called for twice. -/
theorem pairwise_calls {l r : NodeTree K V T} (h : Increasing r.entries) :
    (calls l r).Pairwise fun a b => compare a.1 b.1 ≠ .eq := by
  have hkeys : (r.preorder.map Node.entry).Pairwise fun a b => compare a.1 b.1 ≠ .eq := by
    refine (((perm_preorder r).map Node.entry).pairwise_iff ?_).2 (h.imp fun hlt => by simp [hlt])
    exact fun hne heq => hne (OrientedCmp.eq_symm heq)
  refine List.Pairwise.filterMap _ (fun a b hne x hx y hy => ?_) hkeys
  obtain ⟨_, _, rfl⟩ := Option.map_eq_some_iff.1 hx
  obtain ⟨_, _, rfl⟩ := Option.map_eq_some_iff.1 hy
  exact hne

section

variable [BEq T] [ReflBEq T] (h : f.store.Sound c F) (hp : p ∈ F) (ht : t.root = p.root)
  (hq : q ∈ F) (hu : u.root = q.root) (hown : u.forest = f.id)
  (hvp : Valid f.augment p.bare) (hvq : Valid f.augment q.bare)
include h hp ht hq hu hown hvp hvq

/-- The same of handles: the new tree is valid, and holds the answers with what is unmatched on
either side. -/
theorem union_calls (g : γ) : Ends (union merge t u (f, g))
    (fun w fg => ∃ x : Placed (Node K V T), x.root = w.root ∧ fg.1.store.Unfolds x ∧
      Valid f.augment x.bare ∧ fg.1.validate w = .ok () ∧
      x.bare.entries.Perm (unmatched p.bare.entries q.bare.entries ++
        unmatched q.bare.entries p.bare.entries ++ (mergeAll merge (calls p.bare q.bare) g).1) ∧
      fg.2 = (mergeAll merge (calls p.bare q.bare) g).2)
    (fun e fg => Full c e ∧ Begun merge (calls p.bare q.bare) g fg.2) := by
  have hbegun := union_begun merge g h hp ht hq hu hown hvp.increasing hvq.increasing
  refine ((union_spec merge g h hp ht hq hu hown).and hbegun).mono ?_ ?_
  · rintro w fg ⟨⟨f', rfl, hgranted⟩, -⟩
    obtain ⟨-, x, hroot, hbare, hholds⟩ := hgranted
    obtain ⟨hperm, hstate⟩ := entries_union f.augment merge hvp.increasing hvq.increasing g
    have hvalid : Valid f.augment x.bare := by
      rw [hbare]
      exact (closed_valid (Q := K) f.augment).union merge _ _ g hvp ⟨_, _, _, p, h, h.unfolds hp, rfl⟩
        hvq ⟨_, _, _, q, h, h.unfolds hq, rfl⟩
    refine ⟨x, hroot, hholds.sound.unfolds_last, hvalid, ?_, ?_, hstate⟩
    · rw [validate, ← hroot, hholds.augment]
      exact Subtree.check_spec hholds.sound (by simp) hvalid
    · rw [hbare, entries_blacken]
      exact hperm
  · rintro e fg ⟨hrefused, hbegun⟩
    exact ⟨hrefused.1, hbegun⟩

/-- All that is said of the merge function, put together. -/
theorem mergesOnce : MergesOnce f.augment c f t u p.bare q.bare where
  distinct := pairwise_calls hvq.increasing
  shared _ _ _ := mem_calls
  united merge g := union_calls merge h hp ht hq hu hown hvp hvq g
  recorded merge := by
    refine (union_calls (recordCalls merge) h hp ht hq hu hown hvp hvq []).mono ?_ ?_
    · rintro w fg ⟨x, hroot, hunf, -, -, hperm, hstate⟩
      rw [mergeAll_recordCalls] at hperm hstate
      refine ⟨⟨x, hroot, hunf, hperm⟩, ?_⟩
      rw [hstate, List.append_nil, List.reverse_reverse]
    · rintro e fg ⟨hfull, done, hdone, hstate⟩
      rw [mergeAll_recordCalls, List.append_nil] at hstate
      rw [hstate, List.reverse_reverse]
      exact ⟨hfull, hdone⟩

end

end Forest

namespace Session

/-- A union asks its merge function once for every key that both trees have, with the value of the
first and that of the second, in the order in which the second has them from its root; it holds the
answers and whatever one of the trees has alone.  If it runs out of places it has asked for the
first few. -/
theorem union_merges_once [Ord K] [TransOrd K] [Ord Q] [KeyView K Q] [BEq T] [ReflBEq T]
    {aug : Augment K V T} {configs : List Config} {sort : List (K × V) → List (K × V)}
    {s : Session K V T} {t u : Snapshot} (h : s.Reached Q sort aug configs) (ht : t ∈ s.handles)
    (hu : u ∈ s.handles) (hsame : u.forest = t.forest) :
    ∃ f c p q, s.forests[t.forest]? = some f ∧ configs[t.forest]? = some c ∧ p.root = t.root ∧
      f.store.Unfolds p ∧ q.root = u.root ∧ f.store.Unfolds q ∧
      f.MergesOnce aug c t u p.bare q.bare := by
  have htidy := h.tidy (closed_valid (Q := Q) aug)
  obtain ⟨f, hf, hmem⟩ := has_of_mem_handles htidy ht
  obtain ⟨f', hf', hmem'⟩ := has_of_mem_handles htidy hu
  rw [hsame, hf] at hf'
  obtain rfl := Option.some.inj hf'
  obtain ⟨c, hc⟩ := htidy.exists_config hf
  obtain ⟨hid, rfl, htended⟩ := htidy.tended t.forest f c hf hc
  obtain ⟨F, hF, hsound, hvalid⟩ := htended.backs
  obtain ⟨p, hp, hroot⟩ := Forest.exists_tree hF hmem
  obtain ⟨q, hq, hroot'⟩ := Forest.exists_tree hF hmem'
  exact ⟨f, c, p, q, hf, hc, hroot.symm, hsound.unfolds hp, hroot'.symm, hsound.unfolds hq,
    Forest.mergesOnce hsound hp hroot hq hroot' (hsame.trans hid.symm) (hvalid p hp) (hvalid q hq)⟩

/-- A tree and an older version of it: one key is in both, and it is asked for. -/
theorem union_merges_once_shortRun : ∃ f c p q, shortRun.forests[0]? = some f ∧
    [{ reclamation := .deferred 2 }][0]? = some c ∧ p.root = some 3 ∧ f.store.Unfolds p ∧
      q.root = some 1 ∧ f.store.Unfolds q ∧
      f.MergesOnce .sum c ⟨0, some 3, 2⟩ ⟨0, some 1, 1⟩ p.bare q.bare ∧
      ∃ w f', Forest.union (recordCalls fun _ ours theirs => ours + theirs) ⟨0, some 3, 2⟩
        ⟨0, some 1, 1⟩ (f, []) = .ok w (f', [(2, 20, 20)]) := by
  obtain ⟨f, c, p, q, hf, hc, hp, hunf, hq, hunf', honce⟩ := union_merges_once
    (t := ⟨0, some 3, 2⟩) (u := ⟨0, some 1, 1⟩) reached_shortRun (by decide +kernel)
    (by decide +kernel) rfl
  have hruns : ∀ f ∈ shortRun.forests[0]?, (match Forest.union
        (recordCalls fun _ ours theirs => ours + theirs) ⟨0, some 3, 2⟩ ⟨0, some 1, 1⟩ (f, []) with
      | .ok _ fg => decide (fg.2 = [(2, 20, 20)])
      | .error _ _ => false) = true := by decide +kernel
  have hrun := hruns f hf
  refine ⟨f, c, p, q, hf, hc, hp, hunf, hq, hunf', honce, ?_⟩
  split at hrun
  · rename_i w fg hres
    rw [hres, ← of_decide_eq_true hrun]
    exact ⟨w, fg.1, rfl⟩
  · cases hrun

end Session

end SharedForest

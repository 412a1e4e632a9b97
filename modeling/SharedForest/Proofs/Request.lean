/-
Operations as data, and what they come to.

A `Request` is an operation on a forest together with its operands, and a `Reply` is what
it answers with.  Both are open in what stands for a tree: to carry a request out they hold
snapshots, and to say what comes of it they hold figures.  A figure is a snapshot with its
root replaced by the tree that is kept there, so it says nothing about slots any more.

`Request.plain` answers a request on figures.  It is a function of the operands and of the
number that the next derived snapshot will carry, and of nothing else: no store, no slot, no
count.  `run_spec` says that a forest answers as it does, unless there is no place left.
What a forest does on a failure is part of the same law: everything that was held is held
still, and nothing else is.
-/
import SharedForest.Proofs.Handles
import SharedForest.Proofs.Versions

set_option autoImplicit false

namespace SharedForest

open Store Alarmed

variable {γ K Q V T α β : Type}

/-! ## Figures -/

namespace Store

variable {ν : Type} {s : Store ν} {c : Config} {F : Multiset (Placed ν)} {p : Placed ν}

/-- The tree below a slot, down to the depth `n`. -/
def treeAtFor (s : Store ν) : Nat → Option Nat → Tree ν
  | _, none => .absent
  | 0, some _ => .absent
  | n + 1, some i =>
    match s.cell? i with
    | none => .absent
    | some cell => .node (treeAtFor s n cell.left) cell.data (treeAtFor s n cell.right)

/-- The tree below a slot. -/
def treeAt (s : Store ν) (root : Option Nat) : Tree ν := s.treeAtFor s.reach root

/-- Enough steps read a whole tree. -/
theorem treeAtFor_eq {n : Nat} (hp : s.Unfolds p) (hn : p.depth ≤ n) :
    s.treeAtFor n p.root = p.bare := by
  induction p generalizing n with
  | absent => cases n <;> rfl
  | node l d r ihl ihr =>
    obtain ⟨i, d⟩ := d
    obtain ⟨hcell, hl, hr⟩ := hp
    rw [Tree.depth] at hn
    cases n with
    | zero => omega
    | succ n =>
      rw [Tree.root_node, treeAtFor, hcell]
      dsimp only
      rw [ihl hl (by omega), ihr hr (by omega), Tree.bare_node]

/-- As many as there are places are enough. -/
theorem Sound.treeAt_eq (h : s.Sound c F) (hp : s.Unfolds p) {root : Option Nat}
    (hroot : p.root = root) : s.treeAt root = p.bare := by
  rw [← hroot]
  exact treeAtFor_eq hp (Nat.le_of_lt (h.depth_lt hp))

end Store

/-- A snapshot without its slots: the tree stands in the place of the root. -/
structure Figure (K V T : Type) where
  forest : Nat
  version : UInt64
  tree : NodeTree K V T

/-- The figure of a new snapshot. -/
def Figure.fresh (home next : Nat) (tree : NodeTree K V T) : Figure K V T :=
  ⟨home, .ofNat next, tree⟩

/-- What a snapshot shows. -/
def Forest.figure (f : Forest K V T) (t : Snapshot) : Figure K V T :=
  ⟨t.forest, t.version, f.store.treeAt t.root⟩

/-! ## Requests -/

/-- An operation that makes handles, with its operands. -/
inductive Request (K V Q γ τ : Type) where
  | empty
  | ofSorted (items : List (K × V))
  | ofEntries (items : List (K × V))
  | insert (tree : τ) (key : K) (value : V)
  | remove (tree : τ) (key : Q)
  | tryRemove (tree : τ) (key : Q)
  | split (tree : τ) (key : Q)
  | join (left : τ) (key : K) (value : V) (right : τ)
  | concat (left right : τ)
  /-- The merge function may carry a state along, which starts as `state`. -/
  | union (ours theirs : τ) (merge : K → V → V → γ → V × γ) (state : γ)
  | copy (tree : τ)

/-- The answer to a request. -/
inductive Reply (V γ τ : Type) where
  | tree (t : τ)
  | taken (t : τ) (value : V)
  | parts (below : τ) (found : Option V) (above : τ)
  | united (t : τ) (state : γ)

namespace Reply

variable {τ σ : Type}

/-- The same answer, with something else standing for its trees. -/
def map (g : τ → σ) : Reply V γ τ → Reply V γ σ
  | .tree t => .tree (g t)
  | .taken t v => .taken (g t) v
  | .parts below found above => .parts (g below) found (g above)
  | .united t state => .united (g t) state

/-- The trees of an answer, in order. -/
def trees : Reply V γ τ → List τ
  | .tree t => [t]
  | .taken t _ => [t]
  | .parts below _ above => [below, above]
  | .united t _ => [t]

end Reply

namespace Request

variable {τ σ : Type}

/-- The same request, with something else standing for its trees. -/
def map (g : τ → σ) : Request K V Q γ τ → Request K V Q γ σ
  | .empty => .empty
  | .ofSorted items => .ofSorted items
  | .ofEntries items => .ofEntries items
  | .insert t k v => .insert (g t) k v
  | .remove t key => .remove (g t) key
  | .tryRemove t key => .tryRemove (g t) key
  | .split t key => .split (g t) key
  | .join l k v r => .join (g l) k v (g r)
  | .concat l r => .concat (g l) (g r)
  | .union a b merge state => .union (g a) (g b) merge state
  | .copy t => .copy (g t)

/-- The tree that the operation is asked of; it must be of the forest that carries it out. -/
def host? : Request K V Q γ τ → Option τ
  | .empty | .ofSorted _ | .ofEntries _ => none
  | .insert t _ _ | .remove t _ | .tryRemove t _ | .split t _ | .copy t => some t
  | .join l _ _ _ => some l
  | .concat l _ => some l
  | .union a _ _ _ => some a

/-- The tree that is handed in besides; it may be of another forest, which is refused. -/
def guest? : Request K V Q γ τ → Option τ
  | .join _ _ _ r => some r
  | .concat _ r => some r
  | .union _ b _ _ => some b
  | _ => none

section

variable [Ord K] [Ord Q] [KeyView K Q]

/-- Carry a request out. -/
def run (sort : List (K × V) → List (K × V)) :
    Request K V Q γ Snapshot → ForestM K V T (Reply V γ Snapshot)
  | .empty => .tree <$> Forest.empty
  | .ofSorted items => .tree <$> Forest.ofSorted items
  | .ofEntries items => .tree <$> Forest.ofEntriesBy sort items
  | .insert t k v => .tree <$> Forest.insert t k v
  | .remove t key => .tree <$> Forest.remove t key
  | .tryRemove t key => (fun res => .taken res.1 res.2) <$> Forest.tryRemove t key
  | .split t key => (fun res => .parts res.1 res.2.1 res.2.2) <$> Forest.split t key
  | .join l k v r => .tree <$> Forest.join l k v r
  | .concat l r => .tree <$> Forest.concat l r
  | .union a b merge state =>
    (fun res => .united res.1 res.2) <$> CarryM.runFrom state (Forest.union merge a b)
  | .copy t => .tree <$> Forest.copy t

instance (tree : NodeTree K V T) (k : K) : Decidable (Forest.EndsBefore tree k) :=
  inferInstanceAs (Decidable (∀ e ∈ tree.entries.getLast?, compare e.1 k = .lt))

instance (tree : NodeTree K V T) (k : K) : Decidable (Forest.StartsAfter tree k) :=
  inferInstanceAs (Decidable (∀ e ∈ tree.entries.head?, compare e.1 k = .gt))

instance (l r : NodeTree K V T) : Decidable (Forest.Apart l r) :=
  inferInstanceAs (Decidable (∀ a ∈ l.entries.getLast?, ∀ b ∈ r.entries.head?,
    compare a.1 b.1 = .lt))

/-- The answer with one new tree. -/
def made (home next : Nat) (tree : NodeTree K V T) : Reply V γ (Figure K V T) × Nat :=
  (.tree (.fresh home next tree), next + 1)

/-- The answer with a tree built of entries that should increase. -/
def built (aug : Augment K V T) (home next : Nat) (items : List (K × V)) :
    Except Refusal (Reply V γ (Figure K V T) × Nat) :=
  match Forest.firstDisorder items 0 with
  | some p => .error (.invariantViolation (.notIncreasing p))
  | none => .ok (made home next (.build aug items items.length))

/-- The answer to a request in forest `home`, where `next` snapshots have been derived so far; and
how many have been then. -/
def plain (aug : Augment K V T) (sort : List (K × V) → List (K × V)) (home next : Nat) :
    Request K V Q γ (Figure K V T) → Except Refusal (Reply V γ (Figure K V T) × Nat)
  | .empty => .ok (made home next .absent)
  | .ofSorted items => built aug home next items
  | .ofEntries items => built aug home next (Forest.dropRepeats (sort items.reverse))
  | .insert t k v => .ok (made home next (t.tree.insert aug k v))
  | .remove t key =>
    match t.tree.remove aug (sought key) with
    | (rest, some _) => .ok (made home next rest)
    | (_, none) => .ok (.tree t, next)
  | .tryRemove t key =>
    match t.tree.remove aug (sought key) with
    | (rest, some v) => .ok (.taken (.fresh home next rest) v, next + 1)
    | (_, none) => .error .keyNotFound
  | .split t key =>
    let p := t.tree.split aug (sought key)
    .ok (.parts (.fresh home next (p.below.blacken aug)) (p.found.map (·.2))
      (.fresh home (next + 1) (p.above.blacken aug)), next + 2)
  | .join l k v r =>
    if r.forest ≠ home then .error .foreignTree
    else if ¬ Forest.EndsBefore l.tree k then .error (.invariantViolation .leftReachesKey)
    else if ¬ Forest.StartsAfter r.tree k then .error (.invariantViolation .rightReachesKey)
    else .ok (made home next ((l.tree.join aug k v r.tree).blacken aug))
  | .concat l r =>
    if r.forest ≠ home then .error .foreignTree
    else if ¬ Forest.Apart l.tree r.tree then .error (.invariantViolation .overlap)
    else .ok (made home next ((l.tree.append aug r.tree).blacken aug))
  | .union a b merge state =>
    if b.forest ≠ home then .error .foreignTree
    else
      let united := a.tree.union aug merge b.tree state
      .ok (.united (.fresh home next (united.1.blacken aug)) united.2, next + 1)
  | .copy t => .ok (.tree t, next)

end

/-! ## What a forest makes of a request -/

/-- The operands are held, but for one that is of another forest. -/
structure Posed (q : Request K V Q γ Snapshot) (f : Forest K V T) (H : Multiset Snapshot) :
    Prop where
  host : ∀ t ∈ q.host?, t.forest = f.id ∧ t ∈ H
  guest : ∀ t ∈ q.guest?, t.forest = f.id → t ∈ H

/-- The operands are among `handles`, and the request is put to the forest `n`. -/
structure Among (q : Request K V Q γ Snapshot) (handles : List Snapshot) (n : Nat) : Prop where
  host : ∀ t ∈ q.host?, t ∈ handles ∧ t.forest = n
  guest : ∀ t ∈ q.guest?, t ∈ handles

end Request

/-- What is known of an action, together with what is known of its count. -/
theorem Ends.numbered {σ : Type} [Alarmed σ] {r : EStateM.Result Failure σ α}
    {R : α → σ → Prop} {E : Failure → σ → Prop} {count : σ → Nat} {next : Nat}
    {N : α → σ → Prop} (h : Ends r R E) (hn : Numbered count next N r) :
    Ends r (fun a s => R a s ∧ N a s) (fun e s => E e s ∧ count s = next) := by
  cases r with
  | ok a s => exact fun hs => ⟨h hs, hn⟩
  | error e s => exact fun hs => ⟨h hs, hn⟩

namespace Forest

open Request

variable {c : Config} {F : Multiset (Placed (Node K V T))} {H : Multiset Snapshot}
  {f f' : Forest K V T} {t u : Snapshot} {tree : NodeTree K V T} {p : Placed (Node K V T)}

/-- The figure of a snapshot shows the tree that is kept at its root. -/
theorem figure_eq (h : f.store.Sound c F) (hp : f.store.Unfolds p) (hroot : p.root = t.root) :
    f.figure t = ⟨t.forest, t.version, p.bare⟩ := by
  rw [figure, h.treeAt_eq hp hroot]

/-- The figure of a snapshot that has just been derived. -/
theorem figure_of_granted {next : Nat} (h : Granted f c F tree t f')
    (hversion : t.version = .ofNat next) : f'.figure t = .fresh f.id next tree := by
  obtain ⟨hown, p, hroot, rfl, hholds⟩ := h
  rw [figure_eq hholds.sound hholds.sound.unfolds_last hroot, Figure.fresh, hown, hversion]

section

variable [Ord K] [Ord Q] [KeyView K Q] {sort : List (K × V) → List (K × V)}

/-- The forest answers `r`, as the plain answer to the request says, and has gone on. -/
def Answers (sort : List (K × V) → List (K × V)) (f : Forest K V T) (c : Config)
    (H : Multiset Snapshot) (q : Request K V Q γ Snapshot) (r : Reply V γ Snapshot)
    (f' : Forest K V T) : Prop :=
  (q.map f.figure).plain f.augment sort f.id f.derived = .ok (r.map f'.figure, f'.derived) ∧
    Advance f c (fun _ => True) H (r.trees : Multiset Snapshot) f'

/-- The forest refuses, because there is no place or because the plain answer is a refusal, and
everything is as before. -/
def Declines (sort : List (K × V) → List (K × V)) (f : Forest K V T) (c : Config)
    (F : Multiset (Placed (Node K V T))) (q : Request K V Q γ Snapshot) (e : Failure)
    (f' : Forest K V T) : Prop :=
  (Full c e ∨ ∃ why, e = .refused why ∧
    (q.map f.figure).plain f.augment sort f.id f.derived = .error why) ∧
    f.Holds c F f' ∧ f'.derived = f.derived

/-- How the forest fares with a request. -/
def Fares (sort : List (K × V) → List (K × V)) (f : Forest K V T) (c : Config)
    (F : Multiset (Placed (Node K V T))) (H : Multiset Snapshot)
    (q : Request K V Q γ Snapshot) : Prop :=
  Ends (q.run sort f) (Answers sort f c H q) (Declines sort f c F q)

variable (hF : F.map Tree.root = H.map Snapshot.root) (h : f.store.Sound c F)
include hF h

omit [Ord K] in
/-- The tree of an operand. -/
theorem exists_operand (ht : t ∈ H) :
    ∃ p ∈ F, t.root = p.root ∧ (f.figure t).tree = p.bare := by
  obtain ⟨p, hp, hroot⟩ := exists_tree hF ht
  exact ⟨p, hp, hroot, by rw [figure_eq h (h.unfolds hp) hroot.symm]⟩

/-- A granted tree under the next number is the plain answer. -/
theorem answers_made {q : Request K V Q γ Snapshot}
    (hplain : (q.map f.figure).plain f.augment sort f.id f.derived
      = .ok (made f.id f.derived tree))
    (hgranted : Granted f c F tree u f') (hstamp : Stamped f.derived u f') :
    Answers sort f c H q (.tree u) f' := by
  obtain ⟨hversion, hderived⟩ := hstamp
  refine ⟨?_, advance_of_granted hF h (fun _ _ => trivial) hgranted trivial⟩
  rw [hplain, made, Reply.map, figure_of_granted hgranted hversion, hderived]

/-- The empty tree is answered under the next number. -/
theorem fares_empty : Fares sort f c F H (.empty : Request K V Q γ Snapshot) := by
  refine .map (((empty_spec h).numbered (numbered_empty f)).mono ?_ ?_)
  · rintro u f' ⟨hgranted, hstamp⟩
    exact answers_made hF h rfl hgranted hstamp
  · rintro e f' ⟨⟨hfull, hholds⟩, hderived⟩
    exact ⟨.inl hfull, hholds, hderived⟩

/-- Entries that should increase; they may be what another request comes down to. -/
theorem fares_built {q : Request K V Q γ Snapshot} {items : List (K × V)}
    (hplain : (q.map f.figure).plain f.augment sort f.id f.derived
      = built f.augment f.id f.derived items) :
    Ends ((Reply.tree <$> ofSorted items) f) (Answers sort f c H q) (Declines sort f c F q) := by
  refine .map (((ofSorted_spec items h).numbered (numbered_ofSorted items f)).mono ?_ ?_)
  · rintro u f' ⟨⟨hnone, hgranted⟩, hstamp⟩
    refine answers_made hF h ?_ hgranted hstamp
    rw [hplain, built, hnone]
  · rintro e f' ⟨⟨hfull | ⟨n, hsome, rfl⟩, hholds⟩, hderived⟩
    · exact ⟨.inl hfull, hholds, hderived⟩
    · refine ⟨.inr ⟨_, rfl, ?_⟩, hholds, hderived⟩
      rw [hplain, built, hsome]

/-- An insertion fares as the twin says, or finds no place. -/
theorem fares_insert (ht : t ∈ H) (k : K) (v : V) :
    Fares sort f c F H (.insert t k v : Request K V Q γ Snapshot) := by
  obtain ⟨p, hp, hroot, htree⟩ := exists_operand hF h ht
  refine .map (((insert_spec k v h hp hroot).numbered (numbered_insert t k v f)).mono ?_ ?_)
  · rintro u f' ⟨hgranted, hstamp⟩
    refine answers_made hF h ?_ hgranted hstamp
    rw [Request.map, plain, htree]
  · rintro e f' ⟨⟨hfull, hholds⟩, hderived⟩
    exact ⟨.inl hfull, hholds, hderived⟩

/-- Whether the key is missing is seen in the tree. -/
theorem fares_tryRemove (ht : t ∈ H) (key : Q) :
    Fares sort f c F H (.tryRemove t key : Request K V Q γ Snapshot) := by
  obtain ⟨p, hp, hroot, htree⟩ := exists_operand hF h ht
  refine .map (((tryRemove_spec key h hp hroot).numbered (numbered_tryRemove t key f)).mono ?_ ?_)
  · rintro ⟨u, v⟩ f' ⟨⟨hfound, hgranted⟩, hversion, hderived⟩
    refine ⟨?_, advance_of_granted hF h (fun _ _ => trivial) hgranted trivial⟩
    rw [Request.map, plain, htree, ← Prod.mk.eta (p := p.bare.remove f.augment (sought key)),
      hfound, Reply.map, figure_of_granted hgranted hversion, hderived]
  · rintro e f' ⟨⟨hfull | ⟨hnone, rfl⟩, hholds⟩, hderived⟩
    · exact ⟨.inl hfull, hholds, hderived⟩
    · refine ⟨.inr ⟨_, rfl, ?_⟩, hholds, hderived⟩
      rw [Request.map, plain, htree, ← Prod.mk.eta (p := p.bare.remove f.augment (sought key)),
        hnone]

omit [Ord K] hF in
/-- One more reference to a tree that is held does not change what it looks like. -/
theorem figure_of_shared (hp : p ∈ F) (ht : t.root = p.root) (hholds : f.Holds c (F + {p}) f') :
    f'.figure t = f.figure t := by
  rw [figure_eq hholds.sound hholds.sound.unfolds_last ht.symm,
    figure_eq h (h.unfolds hp) ht.symm]

/-- An answer that is one of the operands. -/
theorem answers_kept {q : Request K V Q γ Snapshot} (hp : p ∈ F) (ht : t.root = p.root)
    (hown : t.forest = f.id)
    (hplain : (q.map f.figure).plain f.augment sort f.id f.derived
      = .ok (.tree (f.figure t), f.derived))
    (hholds : f.Holds c (F + {p}) f') (hderived : f'.derived = f.derived) :
    Answers sort f c H q (.tree t) f' := by
  refine ⟨?_, advance_of_granted hF h (fun _ _ => trivial) ⟨hown, p, ht.symm, rfl, hholds⟩ trivial⟩
  rw [hplain, Reply.map, figure_of_shared h hp ht hholds, hderived]

/-- A copy has the number and the tree of what is copied. -/
theorem fares_copy (ht : t ∈ H) (hown : t.forest = f.id) :
    Fares sort f c F H (.copy t : Request K V Q γ Snapshot) := by
  obtain ⟨p, hp, hroot, -⟩ := exists_operand hF h ht
  refine .map (((copy_spec h hp hroot).numbered (numbered_copy t f)).mono ?_ ?_)
  · rintro u f' ⟨⟨rfl, hholds⟩, -, hderived⟩
    exact answers_kept hF h hp hroot hown rfl hholds hderived
  · rintro e f' ⟨⟨hfull, hholds⟩, hderived⟩
    exact ⟨.inl hfull, hholds, hderived⟩

/-- Both ways in which a removal can go are seen in the tree. -/
theorem fares_remove (ht : t ∈ H) (hown : t.forest = f.id) (key : Q) :
    Fares sort f c F H (.remove t key : Request K V Q γ Snapshot) := by
  obtain ⟨p, hp, hroot, htree⟩ := exists_operand hF h ht
  have htry := (tryRemove_spec key h hp hroot).numbered (numbered_tryRemove t key f)
  have hplain : (Request.map f.figure (.remove t key : Request K V Q γ Snapshot)).plain f.augment
      sort f.id f.derived = .ok (if (p.bare.remove f.augment (sought key)).2.isSome
        then made f.id f.derived (p.bare.remove f.augment (sought key)).1
        else (.tree (f.figure t), f.derived)) := by
    rw [Request.map, plain, htree]
    cases p.bare.remove f.augment (sought key) with
    | mk rest found => cases found <;> rfl
  refine .map ?_
  rw [remove]
  cases hr : tryRemove t key f with
  | ok res f₁ =>
    rw [hr] at htry
    intro hs
    obtain ⟨⟨hfound, hgranted⟩, hstamp⟩ := htry hs
    rw [hfound] at hplain
    exact answers_made hF h hplain hgranted hstamp
  | error e f₁ =>
    rw [hr] at htry
    by_cases hs : Rung f₁
    · have hlast := (lasting_copy t).rung f₁ hs
      split <;> rename_i heq <;> cases heq
      · exact .of_rung hlast
      · exact .of_rung hs
    -- Of the two ways to fail only the want of place is one for `remove`.
    obtain ⟨⟨hfull | ⟨hnone, rfl⟩, hholds⟩, hderived⟩ := htry hs
    · obtain rfl := hfull
      exact .error ⟨.inl rfl, hholds, hderived⟩
    · -- Nothing was found, so the answer is a copy, made in the forest that the search has left.
      rw [hnone] at hplain
      have hcopy := (copy_spec hholds.sound hp hroot).numbered (numbered_copy t f₁)
      refine hcopy.mono ?_ ?_
      · rintro u f' ⟨⟨rfl, hid, haug, hreg, hsound⟩, -, hderived'⟩
        exact answers_kept hF h hp hroot hown hplain
          ⟨hid.trans hholds.id, haug.trans hholds.augment, hreg.trans hholds.registry, hsound⟩
          (hderived'.trans hderived)
      · rintro e f' ⟨⟨hfull, hid, haug, hreg, hsound⟩, hderived'⟩
        exact ⟨.inl hfull, ⟨hid.trans hholds.id, haug.trans hholds.augment,
          hreg.trans hholds.registry, hsound⟩, hderived'.trans hderived⟩

/-- The two parts take two numbers, in this order. -/
theorem fares_split (ht : t ∈ H) (key : Q) :
    Fares sort f c F H (.split t key : Request K V Q γ Snapshot) := by
  obtain ⟨p, hp, hroot, htree⟩ := exists_operand hF h ht
  refine .map (((split_spec key h hp hroot).numbered (numbered_split t key f)).mono ?_ ?_)
  · rintro ⟨u, found, w⟩ f' ⟨⟨hfound, hgranted⟩, hversion, hversion', hderived⟩
    have hadv := advance_of_two (P := fun _ => True) hF h (fun _ _ => trivial) hgranted trivial
      trivial
    obtain ⟨hid, hid', x, y, hx, hx', hy, hy', hholds⟩ := hgranted
    refine ⟨?_, hadv⟩
    have hfigure : f'.figure u = .fresh f.id f.derived
        ((p.bare.split f.augment (sought key)).below.blacken f.augment) := by
      rw [figure_eq hholds.sound (hholds.sound.unfolds (by simp)) hx, hx', Figure.fresh, hid,
        hversion]
    have hfigure' : f'.figure w = .fresh f.id (f.derived + 1)
        ((p.bare.split f.augment (sought key)).above.blacken f.augment) := by
      rw [figure_eq hholds.sound hholds.sound.unfolds_last hy, hy', Figure.fresh, hid', hversion']
    dsimp only at hfound
    rw [Request.map, plain, htree, Reply.map, hfigure, hfigure', hderived, hfound]
  · rintro e f' ⟨⟨hfull, hholds⟩, hderived⟩
    exact ⟨.inl hfull, hholds, hderived⟩

omit hF in
/-- The first of the two reasons not to join is looked at first. -/
theorem join_reaches (hp : p ∈ F) (ht : t.root = p.root) {k : K} (v : V) (hown : u.forest = f.id)
    (hno : ¬ EndsBefore p.bare k) :
    join t k v u f = .error (.refused (.invariantViolation .leftReachesKey)) f := by
  have hreq := requireOwn_eq u f
  rw [if_pos hown] at hreq
  rw [join, bind_of_ok hreq]
  refine bind_of_error ?_
  rw [requireBefore, bind_of_ok (lastKey_eq h hp ht)]
  cases hlast : p.bare.entries.getLast? with
  | none => exact absurd (fun e he => by simp [hlast] at he) hno
  | some e =>
    have hlt : ¬ compare e.1 k = .lt := by
      intro hlt
      refine hno fun e' he' => ?_
      obtain rfl : e = e' := by simpa [hlast] using he'
      exact hlt
    dsimp only [Option.map_some]
    rw [if_pos hlt]
    rfl

/-- Trees of two forests are refused, and so is a key that does not stand between the trees. -/
theorem fares_join (ht : t ∈ H) (hu : u.forest = f.id → u ∈ H) (k : K) (v : V) :
    Fares sort f c F H (.join t k v u : Request K V Q γ Snapshot) := by
  refine .map ?_
  by_cases hown : u.forest = f.id
  · obtain ⟨p, hp, hroot, htree⟩ := exists_operand hF h ht
    obtain ⟨q, hq, hroot', htree'⟩ := exists_operand hF h (hu hown)
    have hplain : (Request.map f.figure (.join t k v u : Request K V Q γ Snapshot)).plain
        f.augment sort f.id f.derived
        = if ¬ EndsBefore p.bare k then .error (.invariantViolation .leftReachesKey)
          else if ¬ StartsAfter q.bare k then .error (.invariantViolation .rightReachesKey)
          else .ok (made f.id f.derived ((p.bare.join f.augment k v q.bare).blacken f.augment)) := by
      rw [Request.map, plain, htree, htree']
      exact if_neg (not_not.2 hown)
    -- `join_spec` does not say which of two reasons is given, so the first is settled apart.
    by_cases hbefore : EndsBefore p.bare k
    · rw [if_neg (not_not.2 hbefore)] at hplain
      refine ((join_spec k v h hp hroot hq hroot' hown).numbered
        (numbered_join t k v u f)).mono ?_ ?_
      · rintro w f' ⟨⟨-, hafter, hgranted⟩, hstamp⟩
        rw [if_neg (not_not.2 hafter)] at hplain
        exact answers_made hF h hplain hgranted hstamp
      · rintro e f' ⟨⟨hfull | ⟨hno, -⟩ | ⟨hno, rfl⟩, hholds⟩, hderived⟩
        · exact ⟨.inl hfull, hholds, hderived⟩
        · exact absurd hbefore hno
        · rw [if_pos hno] at hplain
          exact ⟨.inr ⟨_, rfl, hplain⟩, hholds, hderived⟩
    · rw [if_pos hbefore] at hplain
      exact .of_error (join_reaches h hp hroot v hown hbefore) ⟨.inr ⟨_, rfl, hplain⟩, .refl h, rfl⟩
  · refine .of_error (join_foreign k v hown) ⟨.inr ⟨_, rfl, ?_⟩, .refl h, rfl⟩
    exact if_pos hown

/-- The same with the trees checked against each other. -/
theorem fares_concat (ht : t ∈ H) (hu : u.forest = f.id → u ∈ H) :
    Fares sort f c F H (.concat t u : Request K V Q γ Snapshot) := by
  refine .map ?_
  by_cases hown : u.forest = f.id
  · obtain ⟨p, hp, hroot, htree⟩ := exists_operand hF h ht
    obtain ⟨q, hq, hroot', htree'⟩ := exists_operand hF h (hu hown)
    have hplain : (Request.map f.figure (.concat t u : Request K V Q γ Snapshot)).plain
        f.augment sort f.id f.derived
        = if ¬ Apart p.bare q.bare then .error (.invariantViolation .overlap)
          else .ok (made f.id f.derived ((p.bare.append f.augment q.bare).blacken f.augment)) := by
      rw [Request.map, plain, htree, htree']
      exact if_neg (not_not.2 hown)
    refine ((concat_spec h hp hroot hq hroot' hown).numbered (numbered_concat t u f)).mono ?_ ?_
    · rintro w f' ⟨⟨hapart, hgranted⟩, hstamp⟩
      rw [if_neg (not_not.2 hapart)] at hplain
      exact answers_made hF h hplain hgranted hstamp
    · rintro e f' ⟨⟨hfull | ⟨hno, rfl⟩, hholds⟩, hderived⟩
      · exact ⟨.inl hfull, hholds, hderived⟩
      · rw [if_pos hno] at hplain
        exact ⟨.inr ⟨_, rfl, hplain⟩, hholds, hderived⟩
  · refine .of_error (concat_foreign hown) ⟨.inr ⟨_, rfl, ?_⟩, .refl h, rfl⟩
    exact if_pos hown

/-- The state that is carried along is part of the answer. -/
theorem fares_union (ht : t ∈ H) (hu : u.forest = f.id → u ∈ H)
    (merge : K → V → V → γ → V × γ) (state : γ) :
    Fares sort f c F H (.union t u merge state : Request K V Q γ Snapshot) := by
  have hnum := numbered_union merge t u state f
  refine .map ?_
  unfold CarryM.runFrom at hnum ⊢
  by_cases hown : u.forest = f.id
  · obtain ⟨p, hp, hroot, htree⟩ := exists_operand hF h ht
    obtain ⟨q, hq, hroot', htree'⟩ := exists_operand hF h (hu hown)
    have hplain : (Request.map f.figure (.union t u merge state : Request K V Q γ Snapshot)).plain
        f.augment sort f.id f.derived
        = .ok (.united (.fresh f.id f.derived
            ((p.bare.union f.augment merge q.bare state).1.blacken f.augment))
          (p.bare.union f.augment merge q.bare state).2, f.derived + 1) := by
      rw [Request.map, plain, htree, htree']
      exact if_neg (not_not.2 hown)
    have hunion := union_spec merge state h hp hroot hq hroot' hown
    cases hr : union merge t u (f, state) with
    | ok w fg =>
      rw [hr] at hunion hnum
      intro hs
      obtain ⟨f', rfl, hgranted⟩ := hunion hs
      obtain ⟨hversion, hderived⟩ := hnum
      refine ⟨?_, advance_of_granted hF h (fun _ _ => trivial) hgranted trivial⟩
      rw [hplain, Reply.map, figure_of_granted hgranted hversion, hderived]
    | error e fg =>
      rw [hr] at hunion hnum
      exact fun hs => ⟨.inl (hunion hs).1, (hunion hs).2, hnum⟩
  · rw [union_foreign merge state hown]
    refine .error ⟨.inr ⟨_, rfl, ?_⟩, .refl h, rfl⟩
    exact if_pos hown

/-- A forest answers every request as the plain answer says, unless there is no place left. -/
theorem fares (q : Request K V Q γ Snapshot) (hq : q.Posed f H) : Fares sort f c F H q := by
  obtain ⟨hhost, hguest⟩ := hq
  cases q with
  | empty => exact fares_empty hF h
  | ofSorted items => exact fares_built hF h rfl
  | ofEntries items => exact fares_built hF h rfl
  | insert t k v => exact fares_insert hF h (hhost t rfl).2 k v
  | remove t key => exact fares_remove hF h (hhost t rfl).2 (hhost t rfl).1 key
  | tryRemove t key => exact fares_tryRemove hF h (hhost t rfl).2 key
  | split t key => exact fares_split hF h (hhost t rfl).2 key
  | join l k v r => exact fares_join hF h (hhost l rfl).2 (hguest r rfl) k v
  | concat l r => exact fares_concat hF h (hhost l rfl).2 (hguest r rfl)
  | union a b merge state => exact fares_union hF h (hhost a rfl).2 (hguest b rfl) merge state
  | copy t => exact fares_copy hF h (hhost t rfl).2 (hhost t rfl).1

end

end Forest

end SharedForest

/-
No fault can be reached.

A fault is a broken promise about the contents of a store: a place is read that holds nothing,
or counted on though it was never created.  Nothing catches one: a fault inside an operation
replaces whatever failure is under way, and is what the operation ends with.  So it is enough to
look at what commands, readings, traversals and cursors end with, and none of them ever ends
with a fault (`never_faults`).

Faults are not all that could go wrong.  A count that drops below zero sets off an alarm which is
never lowered, and so does the number of cells; segments are never taken away, so those that are
there at the end tell of every place that was ever asked for; and a subtraction of words or ranks
is harmless where nothing would change if it were done in any other way below zero.

A walk that a session keeps, and a traversal or a cursor that is used beside it, have a place in a
tree but no share in it.  They are safe because the handle is: as long as it is held its tree is
kept slot for slot, and a place among its slots stays one.
-/
import SharedForest.Proofs.Following
import SharedForest.Proofs.Paths
import SharedForest.Proofs.Unordered

set_option autoImplicit false

namespace SharedForest

open Tree Alarmed

variable {K Q V T α ω : Type}

/-! ## Subtractions -/

namespace Subtree

/-- A search by rank that subtracts with `sub`. -/
def selectWith (sub : Nat → Nat → Nat) (s : NodeStore K V T) (root : Option Nat) (rank : Nat) :
    Except Fault (Option Nat) := do
  let (_, found) ← s.walkFor (fun i c (rank, _) => do
    let before ← size s c.left
    match compare rank before with
    | .lt => pure ((rank, none), c.left)
    | .eq => pure ((rank, some i), none)
    | .gt => pure ((sub rank (before + 1), none), c.right)) (s.reach * (rank + 1)) (rank, none) root
  return found

/-- What a subtraction gives that goes below zero makes no difference to a search by rank, since
none does. -/
theorem selectWith_eq {sub : Nat → Nat → Nat} (hsub : ∀ a b, b ≤ a → sub a b = a - b)
    (s : NodeStore K V T) (root : Option Nat) (rank : Nat) :
    selectWith sub s root rank = select s root rank := by
  have hvisit : ∀ rank before : Nat, compare rank before = .gt →
      sub rank (before + 1) = rank - (before + 1) := fun rank before hgt =>
    hsub rank (before + 1) (Nat.compare_eq_gt.1 hgt)
  rw [selectWith, select]
  congr 2
  funext i c x
  refine bind_congr fun before => ?_
  cases hord : compare x.1 before with
  | lt => rfl
  | eq => rfl
  | gt => exact congrArg (fun n => pure ((n, none), c.right)) (hvisit x.1 before hord)

end Subtree

/-- The height that a node tells counts the node. -/
theorem Tree.Poised.weight_le {aug : Augment K V T} {t : NodeTree K V T} (h : Poised aug t) :
    t.Everywhere fun _ d _ => d.color.weight ≤ d.height := by
  refine h.height_eq.imp fun l d r hheight => UInt32.le_iff_toNat_le.2 ?_
  obtain ⟨n, hn⟩ := List.exists_mem_of_ne_nil _ (blackCounts_ne_nil l)
  have hmem : n + d.color.weight.toNat ∈ (node l d r).blackCounts :=
    List.mem_map.2 ⟨n, List.mem_append_left _ hn, rfl⟩
  rw [hheight _ hmem]
  exact Nat.le_add_left _ _

/-! ## Readings -/

namespace Forest

variable {f : Forest K V T} {c : Config} {F : Multiset (Placed (Node K V T))}
  {p : Placed (Node K V T)} {t : Snapshot}

/-- Whatever is asked about the tree of the handle is answered. -/
structure Legible (Q : Type) [Ord Q] [KeyView K Q] (f : Forest K V T) (t : Snapshot) : Prop where
  size : ∃ n, f.size t = .ok n
  blackHeight : ∃ n, f.blackHeight t = .ok n
  aggregate : ∃ a, f.aggregate t = .ok a
  get? (key : Q) : ∃ v, f.get? t key = .ok v
  containsKey (key : Q) : ∃ b, f.containsKey t key = .ok b
  rank (key : Q) : ∃ n, f.rank t key = .ok n
  atRank (n : Nat) : ∃ e, f.atRank t n = .ok e
  first : ∃ e, f.first t = .ok e
  last : ∃ e, f.last t = .ok e
  searchBy (order : K → V → Ordering) : ∃ e, f.searchBy t order = .ok e
  entries : ∃ es, f.entries t = .ok es
  traverse : ∃ w, f.traverse t = .ok w
  traverseRange (start stop : Bound Q) : ∃ w, f.traverseRange t start stop = .ok w
  start (origin : TourStart Q) : ∃ c, Cursor.start f.store t.root origin = .ok c

/-- What is cached at the root of a held tree can be read. -/
theorem ofRoot_ok (hp : f.store.Unfolds p) (ht : t.root = p.root) (absent : α)
    (of : Node K V T → α) : ∃ a, f.ofRoot t absent of = .ok a := by
  rw [ofRoot, ht]
  cases p with
  | absent => exact ⟨absent, rfl⟩
  | node l d r => exact ⟨_, bind_of_eq_ok (Store.read_of_unfolds hp)⟩

/-- So can every node of it. -/
theorem read_ok {i : Nat} (hp : f.store.Unfolds p) (hi : i ∈ p.slots) :
    ∃ cell, f.store.read i = .ok cell := by
  obtain ⟨q, hroot, hq, -⟩ := Store.exists_unfolds_of_mem hp hi
  obtain ⟨l, d, r, rfl⟩ := eq_node_of_root hroot
  exact ⟨_, Store.read_of_unfolds hq⟩

/-- A slot of the tree has an entry. -/
theorem entryAt_ok {slot : Option Nat} (hp : f.store.Unfolds p) (hslot : slot.toList ⊆ p.slots) :
    ∃ e, f.entryAt slot = .ok e := by
  cases slot with
  | none => exact ⟨none, rfl⟩
  | some i =>
    obtain ⟨cell, hread⟩ := read_ok hp (hslot (List.mem_singleton_self i))
    exact ⟨_, bind_of_eq_ok hread⟩

/-- The rank is followed down one way, so there are steps enough. -/
theorem select_ok (hs : f.store.Sound c F) (hp : f.store.Unfolds p) (rank : Nat) :
    ∃ slot, Subtree.select f.store p.root rank = .ok slot ∧ slot.toList ⊆ p.slots := by
  have hsteps : p.depth ≤ f.store.reach * (rank + 1) :=
    Nat.le_trans (Nat.le_of_lt (hs.depth_lt hp)) (Nat.le_mul_of_pos_right _ (Nat.succ_pos rank))
  rw [Subtree.select]
  refine exists_ok_bind (Store.walkFor_within _ (fun x => x.2.toList) ?_ (rank, none)
    (List.nil_subset _) hp hsteps) fun x hx => ⟨x.2, rfl, hx⟩
  rintro l i d r ⟨rank, found⟩ hq
  dsimp only
  rw [bind_of_eq_ok (Subtree.size_spec hq.2.1)]
  cases compare rank l.bare.size.toNat with
  | lt => exact ⟨l, _, .inl rfl, rfl, List.nil_subset _⟩
  | eq => exact ⟨.absent, _, .inr (.inr rfl), rfl, by simp⟩
  | gt => exact ⟨r, _, .inr (.inl rfl), rfl, List.nil_subset _⟩

/-- A search with any comparison ends at a node that was read. -/
theorem searchBy_ok (hs : f.store.Sound c F) (hp : f.store.Unfolds p) (ht : t.root = p.root)
    (order : K → V → Ordering) : ∃ e, f.searchBy t order = .ok e := by
  rw [searchBy, ht, Subtree.searchBy]
  refine (exists_ok_bind (R := fun _ => True) (Store.walkFor_within _
    (fun res : SearchResult Nat => res.entry?.toList) ?_ .empty (List.nil_subset _) hp
    (Nat.le_of_lt (hs.depth_lt hp))) fun res hslots => ?_).imp fun _ h => h.1
  · intro l i d r acc _
    dsimp only
    cases order d.key d.value with
    | gt => exact ⟨l, _, .inl rfl, rfl, by simp [SearchResult.entry?]⟩
    | eq => exact ⟨.absent, _, .inr (.inr rfl), rfl, by simp [SearchResult.entry?]⟩
    | lt => exact ⟨r, _, .inr (.inl rfl), rfl, by simp [SearchResult.entry?]⟩
  have hread : ∀ i, res.entry? = some i → ∃ cell, f.store.read i = .ok cell := fun i hi =>
    read_ok hp (hslots (by simp [hi]))
  cases res with
  | empty => exact ⟨_, rfl, trivial⟩
  | leftOf i =>
    obtain ⟨cell, hcell⟩ := hread i rfl
    exact ⟨_, bind_of_eq_ok hcell, trivial⟩
  | here i =>
    obtain ⟨cell, hcell⟩ := hread i rfl
    exact ⟨_, bind_of_eq_ok hcell, trivial⟩
  | rightOf i =>
    obtain ⟨cell, hcell⟩ := hread i rfl
    exact ⟨_, bind_of_eq_ok hcell, trivial⟩

/-- A tree that is kept can be read, in any order of its keys. -/
theorem legible [Ord Q] [KeyView K Q] (hs : f.store.Sound c F) (hp : f.store.Unfolds p)
    (ht : t.root = p.root) : f.Legible Q t := by
  -- Whatever node of the tree an operation ends up at, its entry can be read.
  have hslot : ∀ {x : Option (Nat × Node K V T)}, (∀ y, x = some y → y ∈ p.toList) →
      ∃ e, f.entryAt (x.map (·.1)) = .ok e := by
    intro x hx
    refine entryAt_ok hp fun i hi => ?_
    obtain ⟨y, hy, rfl⟩ := Option.map_eq_some_iff.1 (Option.mem_toList.1 hi)
    exact List.mem_map.2 ⟨y, hx y hy, rfl⟩
  obtain ⟨full, hfull, hfits⟩ := Traversal.full_ok hs hp
  constructor
  case size => exact ofRoot_ok hp ht _ _
  case blackHeight => exact ofRoot_ok hp ht _ _
  case aggregate => exact ofRoot_ok hp ht _ _
  case get? =>
    intro key
    obtain ⟨e, he⟩ := hslot fun y (hy : p.seek (sought key) = some y) => (mem_of_seek hy).1
    rw [get?, ht, bind_of_eq_ok (Subtree.find_spec key hs hp), bind_of_eq_ok he]
    exact ⟨_, rfl⟩
  case containsKey =>
    intro key
    rw [containsKey, ht, bind_of_eq_ok (Subtree.find_spec key hs hp)]
    exact ⟨_, rfl⟩
  case rank =>
    intro key
    rw [rank, ht]
    exact Subtree.countWhile_ok hs hp _
  case atRank =>
    intro n
    obtain ⟨slot, hslot, hsub⟩ := select_ok hs hp n
    rw [atRank, ht, bind_of_eq_ok hslot]
    exact entryAt_ok hp hsub
  case first =>
    rw [first, ht, bind_of_eq_ok (Subtree.first_spec hs hp)]
    exact hslot fun y hy => List.mem_of_mem_head? hy
  case last =>
    rw [last, ht, bind_of_eq_ok (Subtree.last_spec hs hp)]
    exact hslot fun y hy => List.mem_of_mem_getLast? hy
  case searchBy => exact searchBy_ok hs hp ht
  case entries =>
    obtain ⟨es, hes, -⟩ := Traversal.drain_ok hs hp hfits
    rw [entries, ht, Subtree.entries, bind_of_eq_ok hfull, bind_of_eq_ok hes]
    exact ⟨_, rfl⟩
  case traverse => exact ⟨full, by rw [traverse, ht, hfull]⟩
  case traverseRange =>
    intro start stop
    obtain ⟨w, hw, -⟩ := Traversal.range_ok hs hp start stop
    exact ⟨w, by rw [traverseRange, ht, hw]⟩
  case start =>
    intro origin
    obtain ⟨c, hc, -⟩ := Cursor.start_spec hs hp origin
    exact ⟨c, by rw [ht, hc]⟩

end Forest

/-- What holds of every traversal of a tree, of a range of it or of what is below a cursor: it holds
at the start, and goes on to hold however the traversal is used. -/
structure Traversal.Invariant (Q : Type) [Ord Q] [KeyView K Q]
    (I : Placed (Node K V T) → Traversal → Prop) : Prop where
  full {s : NodeStore K V T} {c : Config} {F : Multiset (Placed (Node K V T))}
    {p : Placed (Node K V T)} (hs : s.Sound c F) (hp : s.Unfolds p) :
    ∃ w, Traversal.full s p.root = .ok w ∧ I p w
  range {s : NodeStore K V T} {c : Config} {F : Multiset (Placed (Node K V T))}
    {p : Placed (Node K V T)} (hs : s.Sound c F) (hp : s.Unfolds p) (start stop : Bound Q) :
    ∃ w, Traversal.range s p.root start stop = .ok w ∧ I p w
  below {s : NodeStore K V T} {cfg : Config} {F : Multiset (Placed (Node K V T))}
    {p : Placed (Node K V T)} {c : Cursor} (hs : s.Sound cfg F) (hp : s.Unfolds p)
    (h : p.Admits c) : ∃ w, c.below s = .ok w ∧ I p w
  steady {s : NodeStore K V T} {c : Config} {F : Multiset (Placed (Node K V T))}
    {p : Placed (Node K V T)} (hs : s.Sound c F) (hp : s.Unfolds p) : Steady s p (I p)

/-- The stacks of a traversal hold slots of its tree. -/
theorem Traversal.fits_invariant [Ord Q] [KeyView K Q] :
    Invariant Q fun (p : Placed (Node K V T)) w => w.Fits p where
  full := full_ok
  range := range_ok
  below := Cursor.below_ok
  steady := steady_fits

/-- The command is about walks. -/
def Command.OnWalks : Command K V Q → Prop
  | .intoWalk _ _ => True
  | .pull _ _ => True
  | .dropWalk _ => True
  | _ => False

namespace Session

variable {aug : Augment K V T} {cs : List Config} {s s' : Session K V T} {t : Snapshot} {n : Nat}
  {f : Forest K V T} {name : String} {w w₀ : Walk} {p : Placed (Node K V T)}

/-! ## Walks of a session -/

instance walks_onForest {m : ForestM K V T α} : Leaves walks (onForest n m) := by
  constructor
  intro s
  rw [onForest]
  cases s.forests[n]? with
  | none => rfl
  | some f =>
    dsimp only
    cases m f <;> rfl

instance walks_discard (t : Snapshot) :
    Leaves walks (discard (K := K) (V := V) (T := T) t) := walks_onForest

instance walks_keep (name : String) (t : Snapshot) :
    Leaves walks (keep (K := K) (V := V) (T := T) name t) := by
  refine .bind .get fun s => .bind (.modify fun _ => rfl) fun _ => ?_
  cases s.trees.get? name with
  | none => exact .pure _
  | some old => exact walks_discard old

instance walks_store (note : Forest K V T → Snapshot → Except Fault ω) (dest : String)
    (t : Snapshot) : Leaves walks (store note dest t) := by
  unfold store
  infer_instance

/-- The walk begins at a tree that is kept under a name. -/
def Begins (s : Session K V T) (w : Walk) : Prop :=
  (∃ name, s.trees.get? name = some w.tree) ∧
    ∃ f, s.forests[w.tree.forest]? = some f ∧ f.traverse w.tree = .ok w.position

/-- The walk goes on through the same tree. -/
def GoesOn (s : Session K V T) (w w' : Walk) : Prop :=
  w'.tree = w.tree ∧ ∃ f uses ys, s.forests[w.tree.forest]? = some f ∧
    w.position.pulls f.store uses = .ok (ys, w'.position)

section

variable [Ord K] [Ord Q] [KeyView K Q] {sort : List (K × V) → List (K × V)}

/-- Commands that are not about walks leave them alone. -/
theorem walks_execBy {c : Command K V Q} (hc : ¬ c.OnWalks) :
    Leaves walks (execBy (T := T) sort (fun _ _ => .ok ()) c) := by
  cases c with
  | intoWalk source dest => exact absurd trivial hc
  | pull source uses => exact absurd trivial hc
  | dropWalk source => exact absurd trivial hc
  | split source key below above =>
    refine .bind (leaves_tree source) fun t => .bind walks_onForest fun parts => ?_
    obtain ⟨l, found, r⟩ := parts
    exact .bind (walks_store ..) fun _ => .bind (walks_store ..) fun _ => .pure _
  | tryRemove source key dest =>
    refine .bind (leaves_tree source) fun t => .bind walks_onForest fun removed => ?_
    obtain ⟨t', value⟩ := removed
    exact .bind (walks_store ..) fun _ => .pure _
  | union ours theirs merge dest =>
    refine .bind (leaves_tree ours) fun t => .bind (leaves_tree theirs) fun u =>
      .bind walks_onForest fun merged => ?_
    obtain ⟨w, calls⟩ := merged
    exact .bind (walks_store ..) fun _ => .pure _
  | drop source =>
    refine .bind .get fun s => ?_
    cases s.trees.get? source with
    | none => exact .pure _
    | some t =>
      exact .bind (.modify fun _ => rfl) fun _ => .bind (walks_discard t) fun _ => .pure _
  | lookup n v dest =>
    refine .bind walks_onForest fun u => ?_
    cases u with
    | none => exact .pure _
    | some t => exact .bind (walks_store ..) fun _ => .pure _
  | unregister n v dest =>
    refine .bind walks_onForest fun u => ?_
    cases u with
    | none => exact .pure _
    | some t =>
      cases dest with
      | none => exact .bind (walks_discard t) fun _ => .pure _
      | some dest => exact .bind (walks_store ..) fun _ => .pure _
  | _ =>
    unfold execBy
    infer_instance

omit [Ord K] [Ord Q] [KeyView K Q] in
/-- What is under a name after one thing was put is that thing, or was there before. -/
theorem get?_put_cases {l : Names Walk} {dest : String} (h : (l.put dest w₀).get? name = some w) :
    w = w₀ ∨ l.get? name = some w := by
  by_cases hname : name = dest
  · rw [hname, Names.get?_put_self] at h
    exact .inl (Option.some.inj h).symm
  · rw [Names.get?_put_other _ _ hname] at h
    exact .inr h

omit [Ord K] [Ord Q] [KeyView K Q] in
theorem get?_of_erase {l : Names Walk} {dest : String} (h : (l.erase dest).get? name = some w) :
    l.get? name = some w := by
  by_cases hname : name = dest
  · rw [hname, Names.get?_erase_self] at h
    cases h
  · rwa [Names.get?_erase_other _ hname] at h

/-- A new walk begins at a tree that is held. -/
theorem walks_intoWalk (source dest : String)
    (hw : (next sort (.intoWalk source dest : Command K V Q) s).walks.get? name = some w) :
    s.walks.get? name = some w ∨ Begins s w := by
  rw [next, execBy] at hw
  rcases tree_cases source s with ⟨t, ht, hok⟩ | ⟨-, herror⟩
  · rw [bind_of_ok hok] at hw
    rcases onView_cases t.forest (fun f => f.traverse t) s with
      ⟨f, position, hf, hlook, hview⟩ | ⟨e, hview⟩
    · rw [bind_of_ok hview, bind_get, bind_modify] at hw
      -- The walk is put under its name before the one that was there is given up.
      have hput : (s.walks.put dest ⟨t, position⟩).get? name = some w := by
        cases hold : s.walks.get? dest with
        | none =>
          rw [hold] at hw
          exact hw
        | some old =>
          rw [hold] at hw
          have hleaves : Leaves walks (do
              discard old.tree
              return .count position.remaining : SessionM K V T (Outcome K V Unit)) :=
            inferInstance
          exact (congrArg (Names.get? · name) (hleaves.same _)).symm.trans hw
      rcases get?_put_cases hput with rfl | hw
      · exact .inr ⟨⟨source, ht⟩, f, hf, hlook⟩
      · exact .inl hw
    · rw [bind_of_error hview] at hw
      exact .inl hw
  · rw [bind_of_error herror] at hw
    exact .inl hw

/-- A walk that is used goes on from where it was. -/
theorem walks_pull (source : String) (uses : List Pull)
    (hw : (next sort (.pull source uses : Command K V Q) s).walks.get? name = some w) :
    s.walks.get? name = some w ∨ ∃ name w₀, s.walks.get? name = some w₀ ∧ GoesOn s w₀ w := by
  rw [next, execBy] at hw
  rcases walk_cases source s with ⟨w₀, hw₀, hok⟩ | ⟨-, herror⟩
  · rw [bind_of_ok hok] at hw
    rcases onView_cases w₀.tree.forest (fun f => w₀.position.pulls f.store uses) s with
      ⟨f, ⟨ys, position⟩, hf, hlook, hview⟩ | ⟨e, hview⟩
    · rw [bind_of_ok hview] at hw
      rcases get?_put_cases (l := s.walks) hw with rfl | hw
      · exact .inr ⟨source, w₀, hw₀, rfl, f, uses, ys, hf, hlook⟩
      · exact .inl hw
    · rw [bind_of_error hview] at hw
      exact .inl hw
  · rw [bind_of_error herror] at hw
    exact .inl hw

/-- The other walks stay. -/
theorem walks_dropWalk (source : String)
    (hw : (next sort (.dropWalk source : Command K V Q) s).walks.get? name = some w) :
    s.walks.get? name = some w := by
  rw [next, execBy, bind_get] at hw
  cases hold : s.walks.get? source with
  | none =>
    rw [hold] at hw
    exact hw
  | some old =>
    rw [hold] at hw
    have hleaves : Leaves walks (do
        discard old.tree
        return .flag true : SessionM K V T (Outcome K V Unit)) := inferInstance
    exact get?_of_erase ((congrArg (Names.get? · name) (hleaves.same _)).symm.trans hw)

/-- A walk that is there after a command was there before, or was begun, or has gone on. -/
theorem walks_next (c : Command K V Q) (hw : (next sort c s).walks.get? name = some w) :
    s.walks.get? name = some w ∨ Begins s w ∨
      ∃ name w₀, s.walks.get? name = some w₀ ∧ GoesOn s w₀ w := by
  cases c with
  | intoWalk source dest => exact (walks_intoWalk source dest hw).imp_right .inl
  | pull source uses => exact (walks_pull source uses hw).imp_right .inr
  | dropWalk source => exact .inl (walks_dropWalk source hw)
  | _ =>
    rw [next, (walks_execBy id).same] at hw
    exact .inl hw

/-! ## Places in a tree -/

/-- The tree that the handle shows is as `P` says. -/
def At (s : Session K V T) (t : Snapshot) (P : Placed (Node K V T) → Prop) : Prop :=
  ∃ p, s.Shows t p ∧ P p

variable {P : Placed (Node K V T) → Prop}

omit [Ord K] [Ord Q] [KeyView K Q] in
/-- What is known of the forest of a handle. -/
theorem At.view (h : s.Tidy aug cs (fun _ => True) 0) (hat : s.At t P) :
    ∃ f c F p, s.forests[t.forest]? = some f ∧ f.store.Sound c F ∧ f.store.Unfolds p ∧
      t.root = p.root ∧ P p := by
  obtain ⟨p, ⟨f, hf, hroot, hunf⟩, hP⟩ := hat
  obtain ⟨c, hc⟩ := h.exists_config hf
  obtain ⟨F, hsound, -⟩ := h.exists_sound hf hc
  exact ⟨f, c, F, p, hf, hsound, hunf, hroot.symm, hP⟩

omit [Ord K] [Ord Q] [KeyView K Q] in
/-- A handle shows one tree only. -/
theorem At.holds (hat : s.At t P) (hf : s.forests[t.forest]? = some f) (hroot : t.root = p.root)
    (hp : f.store.Unfolds p) : P p := by
  obtain ⟨p', ⟨f', hf', hroot', hunf'⟩, hP⟩ := hat
  obtain rfl := Option.some.inj (hf.symm.trans hf')
  rwa [Store.unfolds_unique hp hunf' (hroot.symm.trans hroot'.symm)]

/-- A command leaves the tree of a handle as it is, if the handle is held before and after. -/
theorem At.next (h : s.Tidy aug cs (fun _ => True) 0) (c : Command K V Q)
    (hquiet : ¬ Rung (next sort c s)) (ht : s.Has 0 t) (ht' : (Session.next sort c s).Has 0 t)
    (hat : s.At t P) : (Session.next sort c s).At t P := by
  obtain ⟨p, hp, hP⟩ := hat
  exact ⟨p, (after_next (closed_true aug) h c hquiet).went.kept t p ht ht' hp, hP⟩

omit [Ord K] [Ord Q] [KeyView K Q] in
theorem at_true (h : s.Tidy aug cs (fun _ => True) 0) (ht : s.Has 0 t) :
    s.At t fun _ => True := by
  obtain ⟨p, hp, -⟩ := h.exists_shown ht
  exact ⟨p, hp, trivial⟩

/-- What is known as `I` of a tree and a traversal of it holds of every walk and its tree. -/
def WalksBy (I : Placed (Node K V T) → Traversal → Prop) (s : Session K V T) : Prop :=
  ∀ name w, s.walks.get? name = some w → s.At w.tree (I · w.position)

/-- Every walk has its place among the slots of its tree. -/
def Fitting (s : Session K V T) : Prop :=
  ∀ name w, s.walks.get? name = some w → s.At w.tree w.position.Fits

variable {I : Placed (Node K V T) → Traversal → Prop}

/-- What every use of a traversal keeps holds of all walks after a command. -/
theorem walksBy_next (hI : Traversal.Invariant Q I) (h : s.Tidy aug cs (fun _ => True) 0)
    (c : Command K V Q) (hquiet : ¬ Rung (next sort c s)) (hall : s.WalksBy I) :
    (Session.next sort c s).WalksBy I := by
  have hafter := (after_next (closed_true aug) h c hquiet).went.tidy
  intro name w hw
  have hhas' : (Session.next sort c s).Has 0 w.tree :=
    has_of_holding hafter (x := .walk name) (congrArg (Option.map Walk.tree) hw)
  -- Wherever the walk comes from, its tree was held and its place was as `I` says.
  suffices hbefore : s.Has 0 w.tree ∧ s.At w.tree (I · w.position) from
    hbefore.2.next h c hquiet hbefore.1 hhas'
  rcases walks_next c hw with hw | ⟨⟨source, ht⟩, f, hf, hlook⟩ |
    ⟨source, w₀, hw₀, htree, f, uses, ys, hf, hlook⟩
  · exact ⟨has_of_holding h (x := .walk name) (congrArg (Option.map Walk.tree) hw), hall name w hw⟩
  · have hhas := has_of_holding h (x := .tree source) ht
    obtain ⟨f', c', F, p, hf', hsound, hunf, hroot, -⟩ := (at_true h hhas).view h
    obtain rfl := Option.some.inj (hf.symm.trans hf')
    obtain ⟨position, hfull, hholds⟩ := hI.full hsound hunf
    rw [Forest.traverse, hroot, hfull] at hlook
    obtain rfl := Except.ok.inj hlook
    exact ⟨hhas, p, ⟨f, hf, hroot.symm, hunf⟩, hholds⟩
  · have hhas := has_of_holding h (x := .walk source) (congrArg (Option.map Walk.tree) hw₀)
    obtain ⟨f', c', F, p, hf', hsound, hunf, hroot, hholds⟩ := (hall source w₀ hw₀).view h
    obtain rfl := Option.some.inj (hf.symm.trans hf')
    obtain ⟨x, hpulls, hholds'⟩ := (hI.steady hsound hunf).pulls hunf uses hholds
    obtain rfl := Except.ok.inj (hpulls.symm.trans hlook)
    rw [htree]
    exact ⟨hhas, p, ⟨f, hf, hroot.symm, hunf⟩, hholds'⟩

/-- By induction along the commands. -/
theorem walksBy_execAllBy (hI : Traversal.Invariant Q I) (cmds : List (Command K V Q))
    (h : s.Tidy aug cs (fun _ => True) 0) (hquiet : ¬ Rung (execAllBy sort cmds s))
    (hall : s.WalksBy I) : (execAllBy sort cmds s).WalksBy I := by
  induction cmds generalizing s with
  | nil => exact hall
  | cons c cmds ih =>
    rw [execAllBy_cons] at hquiet ⊢
    have hnext : ¬ Rung (next sort c s) := fun hrung => hquiet (rung_execAllBy cmds hrung)
    exact ih (after_next (closed_true aug) h c hnext).went.tidy hquiet
      (walksBy_next hI h c hnext hall)

/-- There are no walks at first, so it holds of all walks ever. -/
theorem Reached.walksBy (hI : Traversal.Invariant Q I) (h : s.Reached Q sort aug cs) :
    s.WalksBy I := by
  obtain ⟨hquiet, cmds, rfl⟩ := h
  refine walksBy_execAllBy hI cmds (tidy_new aug cs) (not_rung_of_quiet hquiet) ?_
  rintro name w ⟨⟩

/-- In particular, no walk leaves the tree of its handle. -/
theorem Reached.fitting (h : s.Reached Q sort aug cs) : s.Fitting :=
  h.walksBy (Traversal.fits_invariant (Q := Q))

/-! ## Commands -/

/-- A command that is refused is refused for a reason. -/
theorem no_fault (h : s.Tidy aug cs (fun _ => True) 0) (hfit : s.Fitting) (c : Command K V Q)
    (hquiet : ¬ Rung (next sort c s)) {e : Trouble}
    (he : execBy sort (fun _ _ => .ok ()) c s = .error e s') : ¬ e.IsFault := by
  by_cases hpull : c.Pulls
  · -- What a walk yields is read through a view, which has no more to say than the traversal.
    cases c with
    | pull source uses =>
      rw [execBy] at he
      rcases walk_cases source s with ⟨w, hw, hok⟩ | ⟨-, herror⟩
      · obtain ⟨f, c', F, p, hf, hsound, hunf, -, hfits⟩ := (hfit source w hw).view h
        obtain ⟨x, hpulls, -⟩ := Traversal.pulls_ok hsound hunf uses hfits
        have hview : onView w.tree.forest (fun f => w.position.pulls f.store uses) s
            = .ok x s := by
          rw [onView, hf]
          dsimp only
          rw [hpulls]
        rw [bind_of_ok hok, bind_of_ok hview] at he
        cases he
      · rw [bind_of_error herror] at he
        cases he
        exact id
    | _ => exact hpull.elim
  · have hfollows : Follows sort aug s c := follows sort h c
    rw [next, he] at hquiet
    rw [Follows, Comes, he] at hfollows
    exact fun hfault => hpull ((hfollows hquiet).2 hfault)

/-! ## Cursors and traversals that are used beside a session -/

/-- A cursor in the tree of a handle.  It can be started wherever the handle is held, and moved;
and commands may come in between, as long as the handle is held. -/
inductive Pointing (Q : Type) [Ord Q] [KeyView K Q] (sort : List (K × V) → List (K × V))
    (aug : Augment K V T) (cs : List Config) : Session K V T → Snapshot → Cursor → Prop where
  | start {s : Session K V T} {t : Snapshot} {f : Forest K V T} {origin : TourStart Q} {c : Cursor}
      (hs : s.Reached Q sort aug cs) (ht : t ∈ s.handles) (hf : s.forests[t.forest]? = some f)
      (h : Cursor.start f.store t.root origin = .ok c) : Pointing Q sort aug cs s t c
  | move {s : Session K V T} {t : Snapshot} {f : Forest K V T} {version : Nat} {m : Move Q}
      {sight : Sight K V T} {c c' : Cursor} (before : Pointing Q sort aug cs s t c)
      (hf : s.forests[t.forest]? = some f)
      (h : c.move f.store t.root version m = .ok (sight, c')) : Pointing Q sort aug cs s t c'
  | later {s : Session K V T} {t : Snapshot} {c : Cursor} {cmd : Command K V Q}
      (before : Pointing Q sort aug cs s t c) (hs : (next sort cmd s).Reached Q sort aug cs)
      (ht : t ∈ (next sort cmd s).handles) : Pointing Q sort aug cs (next sort cmd s) t c

/-- A traversal of the tree of a handle, of a range of it, or of what is below a cursor.  It can be
started wherever the handle is held, and used; and commands may come in between, as long as the
handle is held. -/
inductive Iterating (Q : Type) [Ord Q] [KeyView K Q] (sort : List (K × V) → List (K × V))
    (aug : Augment K V T) (cs : List Config) : Session K V T → Snapshot → Traversal → Prop where
  | full {s : Session K V T} {t : Snapshot} {f : Forest K V T} {w : Traversal}
      (hs : s.Reached Q sort aug cs) (ht : t ∈ s.handles) (hf : s.forests[t.forest]? = some f)
      (h : f.traverse t = .ok w) : Iterating Q sort aug cs s t w
  | range {s : Session K V T} {t : Snapshot} {f : Forest K V T} {start stop : Bound Q}
      {w : Traversal} (hs : s.Reached Q sort aug cs) (ht : t ∈ s.handles)
      (hf : s.forests[t.forest]? = some f) (h : f.traverseRange t start stop = .ok w) :
      Iterating Q sort aug cs s t w
  | under {s : Session K V T} {t : Snapshot} {f : Forest K V T} {c : Cursor} {w : Traversal}
      (there : Pointing Q sort aug cs s t c) (hf : s.forests[t.forest]? = some f)
      (h : c.below f.store = .ok w) : Iterating Q sort aug cs s t w
  | pull {s : Session K V T} {t : Snapshot} {f : Forest K V T} {w w' : Traversal} {use : Pull}
      {y : Yield K V} (before : Iterating Q sort aug cs s t w)
      (hf : s.forests[t.forest]? = some f) (h : w.pull f.store use = .ok (y, w')) :
      Iterating Q sort aug cs s t w'
  | later {s : Session K V T} {t : Snapshot} {w : Traversal} {cmd : Command K V Q}
      (before : Iterating Q sort aug cs s t w) (hs : (next sort cmd s).Reached Q sort aug cs)
      (ht : t ∈ (next sort cmd s).handles) : Iterating Q sort aug cs (next sort cmd s) t w

/-- The handle is held in a session of a run, and its tree is as `P` says. -/
structure Stands (Q : Type) [Ord Q] [KeyView K Q] (sort : List (K × V) → List (K × V))
    (aug : Augment K V T) (cs : List Config) (s : Session K V T) (t : Snapshot)
    (P : Placed (Node K V T) → Prop) : Prop where
  reached : s.Reached Q sort aug cs
  held : t ∈ s.handles
  place : s.At t P

theorem Reached.tidy_true (h : s.Reached Q sort aug cs) : s.Tidy aug cs (fun _ => True) 0 :=
  h.tidy (closed_true aug)

/-- A place stays a place through other commands, as long as the handle is held. -/
theorem Stands.later {cmd : Command K V Q} (h : Stands Q sort aug cs s t P)
    (hs : (Session.next sort cmd s).Reached Q sort aug cs)
    (ht : t ∈ (Session.next sort cmd s).handles) :
    Stands Q sort aug cs (Session.next sort cmd s) t P :=
  ⟨hs, ht, h.place.next h.reached.tidy_true cmd (not_rung_of_quiet hs.1)
    (has_of_mem_handles h.reached.tidy_true h.held) (has_of_mem_handles hs.tidy_true ht)⟩

/-- Every handle that is held has its tree in one of the forests. -/
theorem Reached.stands (hs : s.Reached Q sort aug cs) (ht : t ∈ s.handles) :
    Stands Q sort aug cs s t fun _ => True :=
  ⟨hs, ht, at_true hs.tidy_true (has_of_mem_handles hs.tidy_true ht)⟩

/-- What every operation keeps is known of the tree of a handle. -/
theorem Reached.stands_as {R : NodeTree K V T → Prop} (hR : Closed Q aug R)
    (hs : s.Reached Q sort aug cs) (ht : t ∈ s.handles) :
    Stands Q sort aug cs s t fun p => R p.bare :=
  ⟨hs, ht, (hs.tidy hR).exists_shown (has_of_mem_handles (hs.tidy hR) ht)⟩

/-- What can be done with any tree that is kept can be done with that of the handle. -/
theorem Stands.does {R : Placed (Node K V T) → α → Prop} {m : Forest K V T → Except Fault α}
    (h : Stands Q sort aug cs s t P)
    (hm : ∀ {f c F p}, f.store.Sound c F → f.store.Unfolds p → t.root = p.root → P p →
      ∃ a, m f = .ok a ∧ R p a) :
    ∃ f a, s.forests[t.forest]? = some f ∧ m f = .ok a ∧
      Stands Q sort aug cs s t fun p => R p a := by
  obtain ⟨f, c, F, p, hf, hsound, hunf, hroot, hP⟩ := h.place.view h.reached.tidy_true
  obtain ⟨a, ha, hR⟩ := hm hsound hunf hroot hP
  exact ⟨f, a, hf, ha, h.reached, h.held, p, ⟨f, hf, hroot.symm, hunf⟩, hR⟩

/-- What has been done with the tree of the handle. -/
theorem Stands.done {R : Placed (Node K V T) → α → Prop} {m : Forest K V T → Except Fault α}
    {a : α} (h : Stands Q sort aug cs s t P) (hf : s.forests[t.forest]? = some f)
    (ha : m f = .ok a)
    (hm : ∀ {f c F p}, f.store.Sound c F → f.store.Unfolds p → t.root = p.root → P p →
      ∃ a, m f = .ok a ∧ R p a) : Stands Q sort aug cs s t fun p => R p a := by
  obtain ⟨f', a', hf', ha', hstands⟩ := h.does hm
  obtain rfl := Option.some.inj (hf.symm.trans hf')
  obtain rfl := Except.ok.inj (ha.symm.trans ha')
  exact hstands

/-- A cursor can be moved in any way and stays a cursor in the tree. -/
theorem Stands.moves {c : Cursor} (h : Stands Q sort aug cs s t (·.Admits c)) (version : Nat)
    (m : Move Q) : ∃ f x, s.forests[t.forest]? = some f ∧
      c.move f.store t.root version m = .ok x ∧ Stands Q sort aug cs s t (·.Admits x.2) :=
  h.does fun hsound hunf hroot hadmits => by
    rw [hroot]
    exact Cursor.move_spec hsound hunf hadmits version m

/-- A traversal can be used in any way and stays within the tree. -/
theorem Stands.pulls {w : Traversal} (h : Stands Q sort aug cs s t w.Fits) (use : Pull) :
    ∃ f x, s.forests[t.forest]? = some f ∧ w.pull f.store use = .ok x ∧
      Stands Q sort aug cs s t x.2.Fits :=
  h.does fun hsound hunf _ hfits => Traversal.pull_ok hsound hunf hfits use

/-- A cursor is at the ghost of the tree or on a way in it. -/
theorem Pointing.stands {c : Cursor} (h : Pointing Q sort aug cs s t c) :
    Stands Q sort aug cs s t (·.Admits c) := by
  induction h with
  | @start s t f origin c hs ht hf h =>
    refine (hs.stands ht).done (R := fun p c => p.Admits c)
      (m := fun f => Cursor.start f.store t.root origin) hf h fun hsound hunf hroot _ => ?_
    rw [hroot]
    exact Cursor.start_spec hsound hunf origin
  | @move s t f version m sight c c' before hf h ih =>
    refine ih.done (R := fun p x => p.Admits x.2)
      (m := fun f => c.move f.store t.root version m) hf h fun hsound hunf hroot hadmits => ?_
    rw [hroot]
    exact Cursor.move_spec hsound hunf hadmits version m
  | later before hs ht ih => exact ih.later hs ht

/-- What holds of all traversals of a tree holds of this one. -/
theorem Iterating.keeps {w : Traversal} (hI : Traversal.Invariant Q I)
    (h : Iterating Q sort aug cs s t w) : Stands Q sort aug cs s t (I · w) := by
  induction h with
  | @full s t f w hs ht hf h =>
    refine (hs.stands ht).done (R := fun p w => I p w) (m := fun f => f.traverse t) hf h
      fun hsound hunf hroot _ => ?_
    rw [Forest.traverse, hroot]
    exact hI.full hsound hunf
  | @range s t f start stop w hs ht hf h =>
    refine (hs.stands ht).done (R := fun p w => I p w)
      (m := fun f => f.traverseRange t start stop) hf h fun hsound hunf hroot _ => ?_
    rw [Forest.traverseRange, hroot]
    exact hI.range hsound hunf start stop
  | @under s t f c w there hf h =>
    exact there.stands.done (R := fun p w => I p w) (m := fun f => c.below f.store) hf h
      fun hsound hunf _ hadmits => hI.below hsound hunf hadmits
  | @pull s t f w w' use y before hf h ih =>
    exact ih.done (R := fun p x => I p x.2) (m := fun f => w.pull f.store use) hf h
      fun hsound hunf _ hholds => (hI.steady hsound hunf).pull hunf hholds use
  | later before hs ht ih => exact ih.later hs ht

/-- A traversal has slots of the tree on its stacks. -/
theorem Iterating.stands {w : Traversal} (h : Iterating Q sort aug cs s t w) :
    Stands Q sort aug cs s t w.Fits :=
  h.keeps Traversal.fits_invariant

/-! ## The law -/

/-- Nothing can be done in the session that breaks a promise about the contents of a store, and
nothing that was done to reach it has. -/
structure Safe (Q : Type) [Ord Q] [KeyView K Q] (sort : List (K × V) → List (K × V))
    (aug : Augment K V T) (cs : List Config) (s : Session K V T) : Prop where
  /-- A command never ends with a fault. -/
  command (c : Command K V Q) (e : Trouble) (s' : Session K V T)
    (hquiet : ¬ Rung (next sort c s))
    (he : execBy sort (fun _ _ => .ok ()) c s = .error e s') : ¬ e.IsFault
  /-- No reference was ever dropped on a count of zero, and no cell too many taken back. -/
  never_low (f : Forest K V T) (hf : f ∈ s.forests) :
    f.store.alarms.countLow = false ∧ f.store.alarms.liveLow = false
  /-- Every slot that was ever handed out has a place, and no segment was ever created beyond
  those there can be. -/
  room (f : Forest K V T) (hf : f ∈ s.forests) :
    (∀ i < f.store.fresh, (f.store.table.get? i).isSome) ∧
      ∀ i, (f.store.table.get? i).isSome → (Address.locate i).segment < Store.maxSegments
  /-- Whatever is asked about a handle is answered, without a subtraction below zero. -/
  reading (t : Snapshot) (ht : t ∈ s.handles) :
    ∃ f, s.forests[t.forest]? = some f ∧ f.Legible Q t ∧
      (∀ i cell, t.root = some i → f.store.read i = .ok cell →
        cell.data.color.weight ≤ cell.data.height) ∧
      ∀ sub : Nat → Nat → Nat, (∀ a b, b ≤ a → sub a b = a - b) →
        ∀ rank, Subtree.selectWith sub f.store t.root rank = Subtree.select f.store t.root rank
  /-- Wherever a cursor is, it can make every move. -/
  cursor (t : Snapshot) (c : Cursor) (hc : Pointing Q sort aug cs s t c) :
    ∃ f, s.forests[t.forest]? = some f ∧ (∃ w, c.below f.store = .ok w) ∧
      ∀ (version : Nat) (m : Move Q), ∃ x, c.move f.store t.root version m = .ok x
  /-- Wherever a traversal is, it can be used in every way. -/
  traversal (t : Snapshot) (w : Traversal) (hw : Iterating Q sort aug cs s t w) :
    ∃ f, s.forests[t.forest]? = some f ∧ ∀ use, ∃ x, w.pull f.store use = .ok x

/-- The books of every forest in a reached session are right. -/
theorem Reached.exists_sound (h : s.Reached Q sort aug cs) (hf : f ∈ s.forests) :
    ∃ c F, f.store.Sound c F := by
  obtain ⟨n, hn⟩ := Array.mem_iff_getElem?.1 hf
  obtain ⟨c, hc⟩ := h.tidy_true.exists_config hn
  obtain ⟨F, hsound, -⟩ := h.tidy_true.exists_sound hn hc
  exact ⟨c, F, hsound⟩

/-- The root of a handle counts in the height it tells. -/
theorem Reached.weight_le (h : s.Reached Q sort aug cs) (ht : t ∈ s.handles)
    (hf : s.forests[t.forest]? = some f) {i : Nat} {cell : Cell (Node K V T)}
    (hroot : t.root = some i) (hread : f.store.read i = .ok cell) :
    cell.data.color.weight ≤ cell.data.height := by
  have htidy := h.tidy (closed_balanced (Q := Q) aug)
  obtain ⟨f', hf', hmem⟩ := has_of_mem_handles htidy ht
  obtain rfl := Option.some.inj (hf.symm.trans hf')
  obtain ⟨c, hc⟩ := htidy.exists_config hf
  obtain ⟨-, -, htended⟩ := htidy.tended t.forest f c hf hc
  obtain ⟨F, hF, hsound, hbalanced⟩ := htended.backs
  obtain ⟨p, hp, hproot⟩ := Forest.exists_tree hF hmem
  obtain ⟨l, d, r, rfl⟩ := eq_node_of_root (hproot.symm.trans hroot)
  have hpoised := (hbalanced _ hp).poised (Forest.kept_of_mem hsound hp).depth_lt
  obtain rfl := Except.ok.inj ((Store.read_of_unfolds (hsound.unfolds hp)).symm.trans hread)
  exact hpoised.weight_le.1

/-- In every session that a run reaches no fault can be reached, whatever the configuration,
however keys compare, and whatever `sort` does. -/
theorem never_faults (h : s.Reached Q sort aug cs) : Safe Q sort aug cs s := by
  constructor
  case command => exact fun c e s' hquiet he => no_fault h.tidy_true h.fitting c hquiet he
  case never_low =>
    intro f hf
    obtain ⟨c, F, hsound⟩ := h.exists_sound hf
    exact ⟨hsound.counted.never_low, hsound.stocked.never_low⟩
  case room =>
    intro f hf
    obtain ⟨c, F, hsound⟩ := h.exists_sound hf
    exact ⟨hsound.stocked.created, hsound.stocked.addressable⟩
  case reading =>
    intro t ht
    obtain ⟨f, c, F, p, hf, hsound, hunf, hroot, -⟩ := (h.stands ht).place.view h.tidy_true
    exact ⟨f, hf, Forest.legible hsound hunf hroot, fun i cell => h.weight_le ht hf,
      fun sub hsub rank => Subtree.selectWith_eq hsub f.store t.root rank⟩
  case cursor =>
    intro t c hc
    obtain ⟨f, c', F, p, hf, hsound, hunf, hroot, hadmits⟩ := hc.stands.place.view h.tidy_true
    refine ⟨f, hf, ?_, fun version m => ?_⟩
    · obtain ⟨w, hw, -⟩ := Cursor.below_ok hsound hunf hadmits
      exact ⟨w, hw⟩
    · obtain ⟨x, hx, -⟩ := Cursor.move_spec hsound hunf hadmits version m
      exact ⟨x, by rw [hroot, hx]⟩
  case traversal =>
    intro t w hw
    obtain ⟨f, c, F, p, hf, hsound, hunf, -, hfits⟩ := hw.stands.place.view h.tidy_true
    refine ⟨f, hf, fun use => ?_⟩
    obtain ⟨x, hx, -⟩ := Traversal.pull_ok hsound hunf hfits use
    exact ⟨x, hx⟩

/-- A walk goes on after every name of its tree is gone. -/
def stroll : Session Nat Int64 Int64 :=
  execAllBy Forest.sortByKey
    [.empty 0 "a", .insert "a" 2 20 "a", .insert "a" 1 10 "b", .copy "b" "c", .intoWalk "c" "w",
      .pull "w" [.next], .drop "b", .pull "w" [.nextBack, .fork]]
    (new .sum [{ reclamation := .deferred 2 }])

theorem never_faults_stroll : (stroll.walks.get? "w").isSome ∧
    Safe Nat Forest.sortByKey .sum [{ reclamation := .deferred 2 }] stroll ∧
    ∃ w, Iterating Nat Forest.sortByKey .sum [{ reclamation := .deferred 2 }] stroll
        ⟨0, some 3, 2⟩ w ∧
      ∃ f x, stroll.forests[0]? = some f ∧ w.pull f.store .drain = .ok x := by
  have hreached : stroll.Reached Nat Forest.sortByKey .sum [{ reclamation := .deferred 2 }] :=
    ⟨by decide +kernel, _, rfl⟩
  have hsafe := never_faults hreached
  have hheld : (⟨0, some 3, 2⟩ : Snapshot) ∈ stroll.handles := by decide +kernel
  obtain ⟨f, hf, hlegible, -⟩ := hsafe.reading _ hheld
  obtain ⟨w, hw⟩ := hlegible.traverse
  have hwalk := Iterating.full hreached hheld hf hw
  obtain ⟨f', hf', hpull⟩ := hsafe.traversal _ w hwalk
  obtain ⟨x, hx⟩ := hpull .drain
  exact ⟨by decide +kernel, hsafe, w, hwalk, f', x, hf', hx⟩

end

end Session

end SharedForest

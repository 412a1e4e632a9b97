/-
Entries in any order.

Two roads lead from a sequence of entries to a tree.  They can be inserted one after another, and
what is inserted later overwrites key and value; or they are turned around, sorted, and of each
run of equal keys just the first is kept, after which the tree is built in bulk.  Keys that compare
equal may be told apart all the same, so it matters which of them is stored.

A sorted list is determined by what it has at each key (`eq_of_atKey_eq`), and that is easily
followed on both roads: insertion puts the last entry there (`atKey_inserted`), and a stable sort
leaves the first one of the turned list in front of its run (`atKey_dropRepeats`).  Of the sort
nothing is known but that it is one, and stable.

Nor can a count wrap on the way, on either road.  A tree that is inserted into from the beginning
on is nobody else's, so there is never more than one reference too many to one of its places.
-/
import SharedForest.Proofs.Bulk
import SharedForest.Proofs.Iterators
import SharedForest.Proofs.Silence

set_option autoImplicit false

namespace SharedForest

open Tree Std Alarmed

variable {K Q V T T' α : Type}

/-! ## What a list has at a key -/

section

variable [Ord K] {es us : List (K × V)} {e : K × V}

/-- The first entry whose key is equal to `k`. -/
def atKey (k : K) (es : List (K × V)) : Option (K × V) := es.find? (compare k ·.1 == .eq)

/-- The first entry of a list is the one at its key. -/
theorem atKey_cons (k : K) (e : K × V) (es : List (K × V)) :
    atKey k (e :: es) = if compare k e.1 = .eq then some e else atKey k es := by
  rw [atKey, List.find?_cons]
  by_cases h : compare k e.1 = .eq
  · rw [if_pos h, h]
    rfl
  · rw [if_neg h, beq_false_of_ne h]
    rfl

/-- Of the entries with equal keys it is the first. -/
theorem atKey_eq_head? (k : K) (es : List (K × V)) :
    atKey k es = (es.filter (compare k ·.1 == .eq)).head? :=
  (List.head?_filter ..).symm

variable [TransOrd K]

/-- Keys that are equal are equal to the same keys. -/
theorem compare_eq_iff_of_eq {k a b : K} (h : compare a b = .eq) :
    compare k a = .eq ↔ compare k b = .eq := by
  rw [TransCmp.congr_right h]

/-- In a sorted list an entry is the one at its key. -/
theorem Increasing.mem_iff (h : Increasing es) : e ∈ es ↔ atKey e.1 es = some e := by
  refine ⟨fun he => ?_, List.mem_of_find?_eq_some⟩
  induction es with
  | nil => cases he
  | cons a es ih =>
    obtain ⟨ha, hes⟩ := List.pairwise_cons.1 h
    rw [atKey_cons]
    rcases List.mem_cons.1 he with rfl | he
    · rw [if_pos ReflCmp.compare_self]
    · have hgt := OrientedCmp.gt_of_lt (ha e he)
      rw [if_neg (by rw [hgt]; decide)]
      exact ih hes he

/-- Sorted lists that have the same at each key are the same. -/
theorem eq_of_atKey_eq (h : Increasing es) (h' : Increasing us)
    (heq : ∀ k, atKey k es = atKey k us) : es = us := by
  have hirrefl : ∀ {a b : K × V}, compare a.1 b.1 = .lt → a ≠ b := by
    rintro a b hlt rfl
    have hself : compare a.1 a.1 = .eq := ReflCmp.compare_self
    rw [hself] at hlt
    cases hlt
  have hperm : es.Perm us := by
    refine (List.perm_ext_iff_of_nodup (h.imp hirrefl) (h'.imp hirrefl)).2 fun e => ?_
    rw [h.mem_iff, h'.mem_iff, heq]
  refine hperm.eq_of_pairwise (fun a b _ _ hab hba => ?_) h h'
  rw [OrientedCmp.gt_of_lt hab] at hba
  cases hba

end

/-! ## One after another -/

section

variable [Ord K] [TransOrd K] {es : List (K × V)}

/-- Insertion puts the new entry at its key, and leaves the others. -/
theorem atKey_put (k : K) (v : V) (es : List (K × V)) (k' : K) :
    atKey k' (put k v es) = if compare k' k = .eq then some (k, v) else atKey k' es := by
  induction es with
  | nil => exact atKey_cons k' (k, v) []
  | cons e es ih =>
    rw [put]
    cases hcmp : compare k e.1 with
    | lt => exact atKey_cons ..
    | eq =>
      -- The entry that goes away is at the same keys.
      simp only [atKey_cons, compare_eq_iff_of_eq hcmp]
      split <;> rfl
    | gt =>
      -- What is at the key of the entry that stays is not at the new one.
      have hapart : compare k' e.1 = .eq → compare k' k ≠ .eq := by
        intro he hk
        rw [← TransCmp.congr_left hk, he] at hcmp
        cases hcmp
      simp only [atKey_cons, ih]
      split
      · rename_i he
        rw [if_neg (hapart he)]
      · rfl

/-- What is stored once the entries have been inserted one after another. -/
def inserted (items : List (K × V)) : List (K × V) :=
  items.foldl (fun es e => put e.1 e.2 es) []

omit [TransOrd K] in
/-- The last entry of the sequence is inserted last. -/
theorem inserted_concat (items : List (K × V)) (e : K × V) :
    inserted (items ++ [e]) = put e.1 e.2 (inserted items) := by
  rw [inserted, List.foldl_append]
  rfl

/-- Whatever the sequence was, the list is sorted. -/
theorem increasing_inserted (items : List (K × V)) : Increasing (inserted items) := by
  induction items using List.reverseRecOn with
  | nil => exact increasing_nil
  | append_singleton items e ih =>
    rw [inserted_concat]
    exact increasing_put ih e.1 e.2

/-- The last entry counts. -/
theorem atKey_inserted (k : K) (items : List (K × V)) :
    atKey k (inserted items) = atKey k items.reverse := by
  induction items using List.reverseRecOn with
  | nil => rfl
  | append_singleton items e ih =>
    rw [inserted_concat, atKey_put, ih, List.reverse_append, List.reverse_singleton,
      List.singleton_append, atKey_cons]

end

/-! ## Sorted, and without repeats -/

/-- The function sorts by key, and entries with equal keys stay in their order. -/
structure SortsStably [Ord K] (sort : List (K × V) → List (K × V)) : Prop where
  ordered : ∀ es, (sort es).Pairwise fun a b => compare a.1 b.1 ≠ .gt
  /-- The entries at a key are those that were there, in the same order; none is lost or made up. -/
  stable : ∀ es (k : K),
    (sort es).filter (compare k ·.1 == .eq) = es.filter (compare k ·.1 == .eq)

namespace Forest

variable [Ord K] [TransOrd K]

/-- By induction along the run: repeats of a kept key are dropped, and it is still the first of its
kind. -/
theorem atKey_go (k : K) (kept : K × V) (es : List (K × V)) :
    atKey k (kept :: dropRepeats.go kept es) = atKey k (kept :: es) := by
  induction es generalizing kept with
  | nil => rfl
  | cons e es ih =>
    rw [dropRepeats.go]
    split
    · rename_i heq
      simp only [ih, atKey_cons, compare_eq_iff_of_eq heq]
      split <;> rfl
    · rw [atKey_cons, ih, ← atKey_cons]

/-- What is dropped stood behind an entry with an equal key. -/
theorem atKey_dropRepeats (k : K) (es : List (K × V)) :
    atKey k (dropRepeats es) = atKey k es := by
  cases es with
  | nil => rfl
  | cons e es => exact atKey_go k e es

/-- What is kept of a list in weak order is in strict order. -/
theorem increasing_go {kept : K × V} {es : List (K × V)}
    (h : (kept :: es).Pairwise fun a b => compare a.1 b.1 ≠ .gt) :
    Increasing (kept :: dropRepeats.go kept es) := by
  induction es generalizing kept with
  | nil => exact List.pairwise_singleton _ _
  | cons e es ih =>
    obtain ⟨hkept, hes⟩ := List.pairwise_cons.1 h
    rw [dropRepeats.go]
    split
    · exact ih (List.pairwise_cons.2 ⟨fun x hx => hkept x (List.mem_cons_of_mem e hx),
        (List.pairwise_cons.1 hes).2⟩)
    · rename_i hne
      have hlt : compare kept.1 e.1 = .lt := by
        cases hcmp : compare kept.1 e.1 with
        | lt => rfl
        | eq => exact absurd (OrientedCmp.eq_symm hcmp) hne
        | gt => exact absurd hcmp (hkept e List.mem_cons_self)
      have hrest := ih hes
      refine List.pairwise_cons.2 ⟨fun x hx => ?_, hrest⟩
      rcases List.mem_cons.1 hx with rfl | hx
      · exact hlt
      · exact TransCmp.lt_trans hlt ((List.pairwise_cons.1 hrest).1 x hx)

/-- Without repeats a sorted list is sorted strictly. -/
theorem increasing_dropRepeats {es : List (K × V)}
    (h : es.Pairwise fun a b => compare a.1 b.1 ≠ .gt) : Increasing (dropRepeats es) := by
  cases es with
  | nil => exact increasing_nil
  | cons e es => exact increasing_go h

/-- Both roads lead to the same list. -/
theorem dropRepeats_sort {sort : List (K × V) → List (K × V)} (hsort : SortsStably sort)
    (items : List (K × V)) : dropRepeats (sort items.reverse) = inserted items := by
  refine eq_of_atKey_eq (increasing_dropRepeats (hsort.ordered _)) (increasing_inserted items)
    fun k => ?_
  calc atKey k (dropRepeats (sort items.reverse))
      = atKey k (sort items.reverse) := atKey_dropRepeats k _
    _ = atKey k items.reverse := by rw [atKey_eq_head?, hsort.stable, ← atKey_eq_head?]
    _ = atKey k (inserted items) := (atKey_inserted k items).symm

/-! ### Sorting by insertion -/

/-- An entry is put in front of all that are equal to it. -/
theorem filter_insertDescending (k : K) (e : K × V) (es : List (K × V)) :
    (insertDescending e es).filter (compare k ·.1 == .eq)
      = (e :: es).filter (compare k ·.1 == .eq) := by
  induction es with
  | nil => rfl
  | cons x es ih =>
    rw [insertDescending]
    split
    · rename_i hlt
      rw [List.filter_cons, ih, List.filter_cons, List.filter_cons, List.filter_cons]
      -- The two entries that are exchanged are not at one key.
      by_cases he : compare k e.1 = .eq
      · have hx : compare k x.1 ≠ .eq := by
          rw [TransCmp.congr_left he, hlt]
          decide
        rw [he, beq_false_of_ne hx]
        rfl
      · rw [beq_false_of_ne he]
        rfl
    · rfl

omit [TransOrd K] in
/-- Nothing else comes in, and nothing is lost. -/
theorem mem_insertDescending {e x : K × V} {es : List (K × V)} :
    x ∈ insertDescending e es ↔ x = e ∨ x ∈ es := by
  induction es with
  | nil => exact List.mem_cons
  | cons y es ih =>
    rw [insertDescending]
    split
    · rw [List.mem_cons, ih, List.mem_cons, or_left_comm]
    · exact List.mem_cons

/-- The list stays in order from the largest key down. -/
theorem ordered_insertDescending {e : K × V} {es : List (K × V)}
    (h : es.Pairwise fun a b => compare a.1 b.1 ≠ .lt) :
    (insertDescending e es).Pairwise fun a b => compare a.1 b.1 ≠ .lt := by
  induction es with
  | nil => exact List.pairwise_singleton _ _
  | cons x es ih =>
    obtain ⟨hx, hes⟩ := List.pairwise_cons.1 h
    rw [insertDescending]
    split
    · rename_i hlt
      refine List.pairwise_cons.2 ⟨fun y hy => ?_, ih hes⟩
      rcases mem_insertDescending.1 hy with rfl | hy
      · rw [OrientedCmp.gt_of_lt hlt]
        decide
      · exact hx y hy
    · rename_i hle
      refine List.pairwise_cons.2 ⟨fun y hy => ?_, h⟩
      rcases List.mem_cons.1 hy with rfl | hy
      · exact hle
      · have hge := Ordering.isGE_iff_ne_lt.2 hle
        exact Ordering.isGE_iff_ne_lt.1
          (TransCmp.isGE_trans hge (Ordering.isGE_iff_ne_lt.2 (hx y hy)))

/-- Inserting one by one from the end, in front of equal ones, is a stable sort. -/
theorem sortsStably_sortByKey : SortsStably (sortByKey : List (K × V) → List (K × V)) := by
  constructor
  · intro es
    -- The list that is turned around at the end descends after each step.
    have hsorted : ∀ acc : List (K × V), acc.Pairwise (fun a b => compare a.1 b.1 ≠ .lt) →
        (es.foldl (fun sorted e => insertDescending e sorted) acc).Pairwise
          fun a b => compare a.1 b.1 ≠ .lt := by
      induction es with
      | nil => exact fun acc h => h
      | cons e es ih => exact fun acc h => ih _ (ordered_insertDescending h)
    refine List.pairwise_reverse.2 ((hsorted [] List.Pairwise.nil).imp fun {a b} hab hba => ?_)
    exact hab (OrientedCmp.lt_of_gt hba)
  · intro es k
    have hstable : ∀ acc : List (K × V),
        (es.foldl (fun sorted e => insertDescending e sorted) acc).filter (compare k ·.1 == .eq)
          = (es.reverse ++ acc).filter (compare k ·.1 == .eq) := by
      induction es with
      | nil => exact fun acc => rfl
      | cons e es ih =>
        intro acc
        rw [List.foldl_cons, ih, List.filter_append, filter_insertDescending, ← List.filter_append,
          List.reverse_cons, List.append_assoc]
        rfl
    rw [sortByKey, List.filter_reverse, hstable, List.append_nil, List.filter_reverse,
      List.reverse_reverse]

/-! ## In a forest -/

section

variable {c : Config} {F : Multiset (Placed (Node K V T))} {f : Forest K V T}
  {sort : List (K × V) → List (K × V)}

/-- Entries in any order are never refused.  Either there is a tree of them, or no room for it. -/
theorem ofEntriesBy_cases (hsort : SortsStably sort) (items : List (K × V))
    (h : f.store.Sound c F) :
    (∃ t f', ofEntriesBy sort items f = .ok t f' ∧
      Granted f c F (Tree.build f.augment (inserted items) (inserted items).length) t f') ∨
    ∃ e f', ofEntriesBy sort items f = .error e f' ∧ Full c e := by
  rw [ofEntriesBy, dropRepeats_sort hsort,
    ofSorted_of_ordered f (not_disorderAt_of_increasing (increasing_inserted items))]
  obtain ⟨root, s', hrun, -, hraised⟩ | ⟨e, s', hrun, -, hgiven⟩ :=
    Subtree.build_outcome f.augment (inserted items) (inserted items).length f.store
  · obtain ⟨p, rfl, hbare, hsound⟩ := hraised.owned c F h
    rw [hrun]
    exact .inl ⟨_, _, rfl, rfl, p, rfl, hbare, rfl, rfl, rfl, hsound⟩
  · rw [hrun]
    obtain ⟨-, hfull | ⟨hshort, -⟩⟩ := hgiven c F h
    · exact .inr ⟨e, _, rfl, hfull⟩
    · exact absurd hshort (Nat.lt_irrefl _)

end

end Forest

/-! ## In a session -/

namespace Session

section

variable [Ord K] [TransOrd K] {aug : Augment K V T} {cs : List Config} {c : Config}
  {s : Session K V T} {f f' : Forest K V T} {t : Snapshot} {p : Placed (Node K V T)} {n : Nat}
  {dest : String} {es : List (K × V)}

/-- The tree under a name has the entries `es`. -/
def Lists (s : Session K V T) (name : String) (es : List (K × V)) : Prop :=
  ∃ t p, s.trees.get? name = some t ∧ s.Shows t p ∧ p.bare.entries = es

/-- The entries `es` have been noted of the tree that is kept under a name now. -/
structure Noted (aug : Augment K V T) (cs : List Config) (name : String) (es : List (K × V))
    (out : Outcome K V (List (K × V))) (s : Session K V T) : Prop where
  outcome : out = .stored es
  tidy : s.Tidy aug cs (Valid aug) 0
  lists : s.Lists name es

/-- What was asked for came to nothing for want of room. -/
def NoRoom (e : Trouble) : Prop := ∃ max, e = .failed (.refused (.capacityExceeded max))

/-- A tree that has just been made is kept under a name, and its entries are noted. -/
theorem store_lists (h : s.Tidy aug cs (Valid aug) {t}) (hp : s.Shows t p) (dest : String) :
    ∃ s', store Forest.entries dest t s = .ok p.bare.entries s' ∧ s'.Tidy aug cs (Valid aug) 0 ∧
      s'.Lists dest p.bare.entries := by
  -- Seen from a session in which it is under the name already, the tree is one of those that stay.
  have hwent : Went aug cs (Valid aug) { s with trees := s.trees.put dest t } (0 + {t}) s :=
    ⟨by rwa [zero_add], fun _ _ _ _ hq => hq⟩
  obtain ⟨s', hrun, hwent', htrees, -, -⟩ := keep_spec hwent dest
  have hname : s'.trees.get? dest = some t := by rw [htrees, Names.get?_put_self]
  have hshows : s'.Shows t p := by
    obtain ⟨f, hf⟩ := h.exists_forest (t := t) (by simp)
    obtain ⟨c, hc⟩ := h.exists_config hf
    obtain ⟨hid, -, -⟩ := h.tended t.forest f c hf hc
    refine hwent'.kept t p ⟨f, hf, Forest.mem_held_of_own ?_ hid.symm⟩
      (has_of_holding hwent'.tidy (x := .tree dest) hname) hp
    rw [add_zero]
    exact mem_named_of_tree (Names.get?_put_self _ _ _)
  refine ⟨s', ?_, hwent'.tidy, t, p, hname, hshows, rfl⟩
  obtain ⟨f, c, F, q, hf, hroot, hsound, hunf, hord⟩ :=
    hwent'.tidy.exists_orderly (x := .tree dest) hname
  obtain ⟨g, hg, hroot', hunf'⟩ := hshows
  obtain rfl : f = g := Option.some.inj (hf.symm.trans hg)
  obtain rfl : q = p := Store.unfolds_unique hunf hunf' (hroot.trans hroot'.symm)
  rw [store, bind_of_ok hrun, onView, hf]
  dsimp only
  rw [Forest.entries_spec hsound hunf hord hroot]

/-- What is made in a forest is kept under a name, and the entries are noted. -/
theorem stored_lists {m : ForestM K V T Snapshot} (h : s.Tidy aug cs (Valid aug) 0)
    (hf : s.forests[n]? = some f) (hc : cs[n]? = some c) (hrun : m f = .ok t f')
    (hadv : f.Advance c (Valid aug) (f.held s.named) {t} f') (hlists : f'.Lists t es)
    (dest : String) :
    ∃ s', (do let t ← onForest n m; return .stored (← store Forest.entries dest t) :
        SessionM K V T (Outcome K V (List (K × V)))) s = .ok (.stored es) s' ∧
      Noted aug cs dest es (.stored es) s' := by
  obtain ⟨hid, -, htended⟩ := h.tended n f c hf hc
  rw [add_zero] at htended
  obtain ⟨p, hroot, hunf, rfl⟩ := hlists
  have hforest : t.forest = n := (hadv.own t (Multiset.mem_singleton_self t)).trans hid
  have hlt : n < s.forests.size := (Array.getElem?_eq_some_iff.1 hf).1
  have hshows : Shows { s with forests := s.forests.setIfInBounds n f' } t p :=
    ⟨f', by rw [hforest, Array.getElem?_setIfInBounds_self_of_lt hlt], hroot, hunf⟩
  obtain ⟨s', hstore, htidy, hkept⟩ :=
    store_lists (h.onward hf hc (htended.onward hadv) hadv.own).tidy hshows dest
  refine ⟨s', ?_, rfl, htidy, hkept⟩
  rw [bind_of_ok (onForest_of_ok hf hrun), bind_of_ok hstore]
  rfl

/-- The same for an action that may fail, but only for want of room. -/
theorem made_lists {m : ForestM K V T Snapshot} (h : s.Tidy aug cs (Valid aug) 0)
    (hn : n < cs.length)
    (hm : ∀ f c, s.forests[n]? = some f → f.id = n → f.augment = aug →
      f.Backs c (Valid aug) (f.held s.named) → Ends (m f)
        (fun t f' => f.Advance c (Valid aug) (f.held s.named) {t} f' ∧ f'.Lists t es)
        fun e _ => Forest.Full c e) (dest : String) :
    Ends ((do let t ← onForest n m; return .stored (← store Forest.entries dest t) :
        SessionM K V T (Outcome K V (List (K × V)))) s)
      (Noted aug cs dest es) fun e _ => NoRoom e := by
  obtain ⟨f, hf⟩ := h.forest_of_lt hn
  obtain ⟨c, hc⟩ := h.exists_config hf
  obtain ⟨hid, haug, htended⟩ := h.tended n f c hf hc
  rw [add_zero] at htended
  have hends := hm f c hf hid haug htended.backs
  cases hrun : m f with
  | ok t f' =>
    rw [hrun] at hends
    -- Where the alarm has been rung nothing is promised of what is stored.
    by_cases hring : Rung f'
    · rw [bind_of_ok (onForest_of_ok hf hrun)]
      exact .of_rung (Lasting.rung _ (rung_set hf hring))
    · obtain ⟨hadv, hlists⟩ := hends hring
      obtain ⟨s', hstored, hnoted⟩ := stored_lists h hf hc hrun hadv hlists dest
      exact .of_ok hstored fun _ => hnoted
  | error e f' =>
    rw [hrun] at hends
    rw [bind_of_error (onForest_of_error hf hrun)]
    intro hquiet
    exact ⟨_, congrArg Trouble.failed (hends fun hring => hquiet (rung_set hf hring))⟩

end

section

variable [Ord K] [TransOrd K] [Ord Q] [KeyView K Q] {aug : Augment K V T} {cs : List Config}
  {s : Session K V T} {n : Nat} {dest : String} {es : List (K × V)}

/-- A new name stands for the empty list. -/
theorem empty_lists (h : s.Tidy aug cs (Valid aug) 0) (hn : n < cs.length) (dest : String) :
    Ends (exec Forest.entries (.empty n dest : Command K V Q) s)
      (Noted aug cs dest []) fun e _ => NoRoom e := by
  refine made_lists h hn (fun f c _ hid haug hbacks => ?_) dest
  obtain rfl := haug
  obtain ⟨F, hF, hsound, hall⟩ := hbacks
  refine (Forest.empty_spec hsound).mono (fun t f' hgranted => ?_) fun e f' hrefused => hrefused.1
  exact ⟨Forest.advance_of_granted hF hsound hall hgranted ⟨balanced_absent, increasing_nil⟩,
    hgranted.lists⟩

/-- The list under the name is put in place of the old one. -/
theorem insert_lists (h : s.Tidy aug cs (Valid aug) 0) (hes : s.Lists dest es) (k : K) (v : V) :
    Ends (exec Forest.entries (.insert dest k v dest : Command K V Q) s)
      (Noted aug cs dest (put k v es)) fun e _ => NoRoom e := by
  obtain ⟨t, p, ht, ⟨g, hg, hroot, hunf⟩, rfl⟩ := hes
  have htree : tree dest s = .ok t s := by
    rw [tree, bind_get, ht]
    rfl
  rw [exec, execBy, bind_of_ok htree]
  have hn : t.forest < cs.length := by
    rw [← h.size]
    exact (Array.getElem?_eq_some_iff.1 hg).1
  refine made_lists h hn (fun f c hf hid haug hbacks => ?_) dest
  obtain rfl := haug
  obtain rfl : f = g := Option.some.inj (hf.symm.trans hg)
  obtain ⟨F, hF, hsound, hall⟩ := hbacks
  obtain ⟨q, hq, hroot'⟩ := Forest.exists_tree hF
    (Forest.mem_held_of_own (mem_named_of_tree ht) hid.symm)
  obtain rfl : p = q := Store.unfolds_unique hunf (hsound.unfolds hq) (hroot.trans hroot')
  refine (Forest.insert_spec k v hsound hq hroot').mono (fun t' f' hgranted => ?_)
    fun e f' hrefused => hrefused.1
  have hvalid := (closed_valid (Q := Q) f.augment).insert p.bare k v (hall p hq)
    (Forest.kept_of_mem hsound hq)
  refine ⟨Forest.advance_of_granted hF hsound hall hgranted hvalid, ?_⟩
  rw [← entries_insert f.augment (hall p hq).increasing]
  exact hgranted.lists

/-- The commands that insert entries one after another into a tree without entries, under one name
all the time. -/
def insertions (n : Nat) (dest : String) (items : List (K × V)) : List (Command K V Q) :=
  .empty n dest :: items.map fun e => .insert dest e.1 e.2 dest

omit [TransOrd K] in
/-- A sequence of commands silences no alarm. -/
theorem lasting_execWhile {ω : Type} (note : Forest K V T → Snapshot → Except Fault ω)
    (cmds : List (Command K V Q)) : Lasting (execWhile note cmds) := by
  induction cmds with
  | nil => exact .pure _
  | cons cmd cmds ih =>
    cases cmds with
    | nil => exact lasting_execBy note cmd
    | cons next cmds => exact .bind (lasting_execBy note cmd) fun _ => ih

/-- Each insertion does to the list what it says. -/
theorem execWhile_lists {cmd : Command K V Q} (items : List (K × V))
    (h : Ends (exec Forest.entries cmd s)
      (Noted aug cs dest es) fun e _ => NoRoom e) :
    Ends (execWhile Forest.entries (cmd :: items.map fun e => .insert dest e.1 e.2 dest) s)
      (fun out _ => out = .stored (items.foldl (fun es e => put e.1 e.2 es) es))
      fun e _ => NoRoom e := by
  induction items generalizing cmd es s with
  | nil => exact h.weaken fun out s' hnoted => hnoted.outcome
  | cons e items ih =>
    refine .bind_of_lasting h (fun out s' hnoted => ?_) fun _ => lasting_execWhile ..
    exact ih (insert_lists hnoted.tidy hnoted.lists e.1 e.2)

end

/-! ### Without a count that wraps

A tree without entries has no places, so it is nobody else's, and whatever is made of it by
insertion is not either, as each handle goes when the next one comes. -/

section

variable {s : Session K V T} {n : Nat}

/-- Where the alarms are left alone they are not rung. -/
theorem calm_of_leaves {m : SessionM K V T α} [Leaves (across Rung) m] (h : ¬ Rung s) :
    Calm (m s) fun _ _ => True := by
  have hsame := Leaves.after (across Rung) m s
  cases hr : m s <;> rw [hr] at hsame
  · exact ⟨fun hrung => h (rung_of_across hsame hrung), trivial⟩
  · exact fun hrung => h (rung_of_across hsame hrung)

/-- Looking changes nothing. -/
theorem onView_calm {look : Forest K V T → Except Fault α} (h : ¬ Rung s) :
    Calm (onView n look s) fun _ s' => s' = s := by
  unfold onView
  split
  · exact h
  · split
    · exact ⟨h, rfl⟩
    · exact h

/-- The tree under a name is nobody else's, and no count has wrapped. -/
structure Lone (s : Session K V T) (name : String) : Prop where
  quiet : ¬ Rung s
  lone : ∃ t f, s.trees.get? name = some t ∧ s.forests[t.forest]? = some f ∧ f.id = t.forest ∧
    f.Lone t

end

section

variable [Ord K] [TransOrd K] [Ord Q] [KeyView K Q] {aug : Augment K V T} {cs : List Config}
  {s : Session K V T} {n : Nat} {dest : String}

/-- The empty tree is nobody else's, and so is what is made of it. -/
theorem empty_lone (h : s.Tidy aug cs (Valid aug) 0) (hquiet : ¬ Rung s) (hn : n < cs.length)
    (dest : String) :
    Calm (exec Forest.entries (.empty n dest : Command K V Q) s) fun _ s' => s'.Lone dest := by
  have hcalm : Calm (exec Forest.entries (.empty n dest : Command K V Q) s) fun _ _ => True :=
    have : Leaves (across Rung) (exec Forest.entries (.empty n dest : Command K V Q) :
      SessionM K V T _) := .bind inferInstance fun _ => .bind inferInstance fun _ => .pure _
    calm_of_leaves hquiet
  refine (hcalm.ends (empty_lists h hn dest)).weaken fun out s' hquiet' hnoted => ?_
  obtain ⟨-, -, htidy, t, p, ht, ⟨f, hf, hroot, hunf⟩, hnone⟩ := hnoted
  obtain ⟨c, hc⟩ := htidy.exists_config hf
  obtain ⟨hid, -, htended⟩ := htidy.tended t.forest f c hf hc
  obtain ⟨F, -, hsound, -⟩ := htended.backs
  cases p with
  | absent =>
    refine ⟨hquiet', t, f, ht, hf, hid, c, F, .absent, hroot, hsound.with_absent, ?_⟩
    exact Store.alone_absent fun hrung => hquiet' ⟨f, Array.mem_of_getElem? hf, hrung⟩
  | node l d r =>
    rw [bare_node, entries_node] at hnone
    exact absurd hnone (List.append_ne_nil_of_right_ne_nil _ (List.cons_ne_nil _ _))

omit [TransOrd K] in
/-- The tree that was inserted into is given up for the new one, which is alone again. -/
theorem insert_lone (h : s.Lone dest) (k : K) (v : V) :
    Calm (exec Forest.entries (.insert dest k v dest : Command K V Q) s) fun _ s' =>
      s'.Lone dest := by
  obtain ⟨hquiet, t, f, ht, hf, hid, hlone⟩ := h
  have htree : tree dest s = .ok t s := by
    rw [tree, bind_get, ht]
    rfl
  have hins := Forest.insert_calm k v hlone
  rw [exec, execBy, bind_of_ok htree]
  cases hrun : Forest.insert t k v f with
  | error e f' =>
    rw [hrun] at hins
    exact .of_error (bind_of_error (onForest_of_error hf hrun)) (not_rung_set hquiet hins)
  | ok t' f' =>
    rw [hrun] at hins
    obtain ⟨hquiet', hown, hid', f'', hdrop, hid'', hlone'⟩ := hins
    rw [bind_of_ok (onForest_of_ok hf hrun)]
    -- The name goes over to the new handle, and the one from before is given up.
    have hlt : t.forest < s.forests.size := (Array.getElem?_eq_some_iff.1 hf).1
    set s₁ : Session K V T := { s with forests := s.forests.setIfInBounds t.forest f' } with hs₁
    have hf₁ : s₁.forests[t.forest]? = some f' := Array.getElem?_setIfInBounds_self_of_lt hlt
    set s₂ : Session K V T := { s₁ with
      trees := s₁.trees.put dest t', forests := s₁.forests.setIfInBounds t.forest f'' }
    have hkeep : keep dest t' s₁ = .ok () s₂ := by
      rw [keep, bind_get, bind_modify, show s₁.trees.get? dest = some t from ht]
      exact onForest_of_ok (s := { s₁ with trees := s₁.trees.put dest t' }) hf₁ hdrop
    have hlone₂ : s₂.Lone dest := by
      refine ⟨not_rung_set (not_rung_set hquiet hquiet') hlone'.quiet, t', f'',
        Names.get?_put_self _ _ _, ?_, by rw [hid'', hown], hlone'⟩
      rw [hown, hid]
      exact Array.getElem?_setIfInBounds_self_of_lt (by simpa [hs₁] using hlt)
    refine Calm.bind (Q := fun _ s' => s' = s₂) ?_ fun out s' hquiet h => .pure hquiet (h ▸ hlone₂)
    rw [store, bind_of_ok hkeep]
    exact onView_calm hlone₂.quiet

omit [TransOrd K] in
/-- By induction along the insertions. -/
theorem execWhile_lone {cmd : Command K V Q} (items : List (K × V))
    (h : Calm (exec Forest.entries cmd s) fun _ s' => s'.Lone dest) :
    Calm (execWhile Forest.entries (cmd :: items.map fun e => .insert dest e.1 e.2 dest) s)
      fun _ s' => s'.Lone dest := by
  induction items generalizing cmd s with
  | nil => exact h
  | cons e items ih => exact .bind h fun out s' _ hlone => ih (insert_lone hlone e.1 e.2)

end

/-- Either the entries `es` have been noted in the end, or there was no room. -/
def NotesUnlessFull (r : EStateM.Result Trouble (Session K V T) (Outcome K V (List (K × V))))
    (es : List (K × V)) : Prop :=
  (∃ s, r = .ok (.stored es) s) ∨ ∃ e s, r = .error e s ∧ NoRoom e

section

variable [Ord K] [TransOrd K] [Ord Q] [KeyView K Q] {sort : List (K × V) → List (K × V)}
  {aug : Augment K V T} {aug' : Augment K V T'} {configs configs' : List Config}
  {s : Session K V T} {s' : Session K V T'} {n n' : Nat}

/-- The bulk road ends in the list of the insertions, or finds no room. -/
theorem ofEntries_notes (hsort : SortsStably sort) (h : s.Tidy aug configs (Valid aug) 0)
    (hn : n < configs.length) (items : List (K × V)) (dest : String) :
    NotesUnlessFull
      (execBy sort Forest.entries (.ofEntries n items dest : Command K V Q) s)
      (inserted items) := by
  obtain ⟨f, hf⟩ := h.forest_of_lt hn
  obtain ⟨c, hc⟩ := h.exists_config hf
  obtain ⟨-, rfl, htended⟩ := h.tended n f c hf hc
  rw [add_zero] at htended
  obtain ⟨F, hF, hsound, hall⟩ := htended.backs
  rw [execBy]
  obtain ⟨t, f', hrun, hgranted⟩ | ⟨e, f', hrun, rfl⟩ :=
    Forest.ofEntriesBy_cases hsort items hsound
  · have hvalid : Valid f.augment (Tree.build f.augment (inserted items) (inserted items).length) :=
      ⟨balanced_build _ (Nat.le_refl _), by rw [entries_build]; exact increasing_inserted items⟩
    have hlists := hgranted.lists
    rw [entries_build] at hlists
    obtain ⟨s', hstored, -⟩ := stored_lists h hf hc hrun
      (Forest.advance_of_granted hF hsound hall hgranted hvalid) hlists dest
    exact .inl ⟨s', hstored⟩
  · exact .inr ⟨_, _, bind_of_error (onForest_of_error hf hrun), _, rfl⟩

/-- So does the other road, and no count wraps on the way. -/
theorem insertions_note (h : s.Tidy aug configs (Valid aug) 0) (hquiet : ¬ Rung s)
    (hn : n < configs.length) (items : List (K × V)) (dest : String) :
    NotesUnlessFull (execWhile Forest.entries (insertions n dest items : List (Command K V Q)) s)
      (inserted items) := by
  have hends := execWhile_lists items (empty_lists (Q := Q) h hn dest)
  have hcalm := (execWhile_lone items (empty_lone (Q := Q) h hquiet hn dest)).not_rung
  rw [insertions]
  generalize execWhile Forest.entries (.empty n dest :: items.map fun e =>
    .insert dest e.1 e.2 dest : List (Command K V Q)) s = r at hends hcalm ⊢
  cases r with
  | ok out s₁ =>
    have hout : out = .stored (inserted items) := hends hcalm
    exact .inl ⟨s₁, by rw [hout]⟩
  | error e s₁ => exact .inr ⟨e, s₁, rfl, hends hcalm⟩

/-- Entries in any order make the tree that inserting them one after another makes, with the same
keys and values, unless there is no room for the one or the other: neither fails for any other
reason.  The forests may be two, in two sessions. -/
theorem ofEntries_eq_inserted (hsort : SortsStably sort) (h : s.Reached Q sort aug configs)
    (h' : s'.Reached Q sort aug' configs') (hn : n < configs.length) (hn' : n' < configs'.length)
    (items : List (K × V)) (dest dest' : String) :
    NotesUnlessFull (execBy sort Forest.entries (.ofEntries n items dest : Command K V Q) s)
        (inserted items) ∧
      NotesUnlessFull
        (execWhile Forest.entries (insertions n' dest' items : List (Command K V Q)) s')
        (inserted items) :=
  ⟨ofEntries_notes hsort (h.tidy (closed_valid (Q := Q) aug)) hn items dest,
    insertions_note (h'.tidy (closed_valid (Q := Q) aug')) (not_rung_of_quiet h'.1) hn' items dest'⟩

/-- Three entries, two of them at one key. -/
theorem ofEntries_eq_inserted_shortRun :
    NotesUnlessFull
        (execBy Forest.sortByKey Forest.entries
          (.ofEntries 0 [(2, 20), (1, 10), (2, 21)] "d" : Command Nat Int64 Nat) shortRun)
        [(1, 10), (2, 21)] ∧
      NotesUnlessFull
        (execWhile Forest.entries
          (insertions 0 "d" [(2, 20), (1, 10), (2, 21)] : List (Command Nat Int64 Nat)) shortRun)
        [(1, 10), (2, 21)] :=
  ofEntries_eq_inserted Forest.sortsStably_sortByKey reached_shortRun reached_shortRun (by decide)
    (by decide) [(2, 20), (1, 10), (2, 21)] "d" "d"

end

end Session

end SharedForest

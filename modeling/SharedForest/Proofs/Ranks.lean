/-
Ranks.

An entry has a number, the number of entries with smaller keys, and there are two ways between
the two.  Going from a key to a number, one counts on the way down what lies to the left of it;
going from a number to an entry, one takes off what lies to the left.  Both rely on the sizes that
are kept at the nodes, and in an orderly tree these are right, however it was made.  So the one is
the position in the list of the entries, the other is what stands there, and what makes them
inverse to each other is that the list is sorted: the keys below any key come first
(`getElem?_rank`), and below the key at position `i` there are just `i` (`rank_of_getElem?`).
-/
import SharedForest.Proofs.Ranges
import SharedForest.Proofs.Simulation

set_option autoImplicit false

namespace SharedForest

open Tree Std

variable {K Q V T α : Type}

/-! ## Positions in a sorted list -/

/-- Behind the first elements, of which the predicate holds, comes the first one of which it does
not. -/
theorem getElem?_countP {P : α → Bool} {xs : List α}
    (h : xs.Pairwise fun a b => P b = true → P a = true) :
    xs[xs.countP P]? = xs.find? (!P ·) := by
  rw [← List.head?_filter, filter_not_eq_drop h, List.head?_drop]

theorem length_entriesBelow [Ord Q] [KeyView K Q] (key : Q) (es : List (K × V)) :
    (entriesBelow key es).length = es.countP (stored ·.1 key == .lt) :=
  List.countP_eq_length_filter.symm

section

variable [Ord K] [Ord Q] [KeyView K Q] [TransOrd Q] [LawfulView K Q] {es : List (K × V)}
  {e : K × V} {i : Nat} {key : Q}

/-- What comes before an entry that is not above the key is below it. -/
theorem below_of_increasing (h : Increasing es) (key : Q) :
    es.Pairwise fun a b => stored b.1 key ≠ .gt → stored a.1 key = .lt :=
  h.imp fun hab hb => stored_lt_of_lt hab hb

/-- Behind the entries below a key comes the first one that is not below it. -/
theorem getElem?_rank (h : Increasing es) (key : Q) :
    es[(entriesBelow key es).length]? = es.find? fun e => (stored e.1 key).isGE := by
  have hnot : (fun e : K × V => (stored e.1 key).isGE) = fun e => !(stored e.1 key == .lt) :=
    funext fun e => by cases stored e.1 key <;> rfl
  rw [length_entriesBelow, hnot]
  refine getElem?_countP ((below_of_increasing h key).imp fun hab hb => ?_)
  rw [hab (by rw [eq_of_beq hb]; decide), beq_self_eq_true]

/-- The first entry that is not below a key is the one at it, if there is one. -/
theorem find?_not_below (h : Increasing es) (he : e ∈ es) (hkey : stored e.1 key = .eq) :
    (es.find? fun e => (stored e.1 key).isGE) = some e := by
  obtain ⟨before, behind, rfl⟩ := List.append_of_mem he
  obtain ⟨-, -, hcross⟩ := List.pairwise_append.1 (below_of_increasing h key)
  have hbefore : (before.find? fun e => (stored e.1 key).isGE) = none := by
    refine List.find?_eq_none.2 fun a ha => ?_
    rw [hcross a ha e List.mem_cons_self (by rw [hkey]; decide)]
    decide
  rw [List.find?_append, hbefore, Option.none_or, List.find?_cons_of_pos (by rw [hkey]; decide)]

/-- Whether there is an entry at a key is told by the first one that is not below it. -/
theorem find?_at (h : Increasing es) (key : Q) : es.find? (stored ·.1 key == .eq)
    = (es.find? fun e => (stored e.1 key).isGE).filter (stored ·.1 key == .eq) := by
  cases hat : es.find? (stored ·.1 key == .eq) with
  | some e =>
    have hkey := List.find?_some hat
    rw [find?_not_below h (List.mem_of_find?_eq_some hat) (eq_of_beq hkey)]
    exact (if_pos hkey).symm
  | none =>
    symm
    rw [Option.filter_eq_none_iff]
    exact fun e he => List.find?_eq_none.1 hat e (List.mem_of_find?_eq_some he)

omit [TransOrd Q] in
/-- Below the key of an entry there is what comes before it. -/
theorem rank_of_getElem? [TransOrd K] (h : Increasing es) (he : es[i]? = some e) :
    (entriesBelow (KeyView.view e.1 : Q) es).length = i := by
  obtain ⟨hlt, rfl⟩ := List.getElem?_eq_some_iff.1 he
  have hsplit : es = es.take i ++ es[i] :: es.drop (i + 1) := by simp
  have hview : ∀ a : K, stored a (KeyView.view es[i].1 : Q) = compare a es[i].1 :=
    fun a => LawfulView.compare_view a es[i].1
  obtain ⟨-, -, hbefore, hbehind⟩ := increasing_middle.1 (hsplit.subst (motive := Increasing) h)
  have hnot : ¬ (compare es[i].1 es[i].1 == .lt) = true := by
    rw [ReflOrd.compare_self]
    decide
  have hnone : (es.drop (i + 1)).countP (compare ·.1 es[i].1 == .lt) = 0 := by
    refine List.countP_eq_zero.2 fun b hb => ?_
    rw [OrientedCmp.gt_of_lt (hbehind b hb)]
    decide
  have hall : (es.take i).countP (compare ·.1 es[i].1 == .lt) = (es.take i).length :=
    List.countP_eq_length.2 fun a ha => beq_iff_eq.2 (hbefore a ha)
  simp only [length_entriesBelow, hview]
  calc es.countP (compare ·.1 es[i].1 == .lt)
      = (es.take i ++ es[i] :: es.drop (i + 1)).countP (compare ·.1 es[i].1 == .lt) := by
        rw [← hsplit]
    _ = (es.take i).length := by
        rw [List.countP_append, List.countP_cons, if_neg hnot, hnone, hall, Nat.add_zero]
    _ = i := List.length_take_of_le (Nat.le_of_lt hlt)

end

/-! ## Going down by number -/

section

variable [Ord K] [TransOrd K] {aug : Augment K V T} {s : NodeStore K V T} {cfg : Config}
  {F : Multiset (Placed (Node K V T))} {p : Placed (Node K V T)} {f : Forest K V T} {t : Snapshot}

/-- Taking off what lies to the left, one arrives at the node with that number. -/
theorem Subtree.select_spec (hs : s.Sound cfg F) (hp : s.Unfolds p) (hord : Orderly aug p.bare)
    (i : Nat) : Subtree.select s p.root i = .ok (p.toList[i]?.map (·.1)) := by
  have hsteps : p.depth ≤ s.reach * (i + 1) :=
    (Nat.le_of_lt (hs.depth_lt hp)).trans (Nat.le_mul_of_pos_right _ (Nat.succ_pos i))
  rw [select]
  suffices hend : ∃ x, s.walkFor _ (s.reach * (i + 1)) (i, none) p.root = .ok x ∧
      x.2 = p.toList[i]?.map (·.1) by
    obtain ⟨x, hwalk, hx⟩ := hend
    rw [bind_of_eq_ok hwalk, ← hx]
    rfl
  -- Nothing is found until the walk ends, and what is looked for has the rest of the number below.
  refine (Store.walkFor_keeps _ (fun q x => (s.Unfolds q ∧ Orderly aug q.bare) ∧
      (q = .absent ∨ x.2 = none) ∧ x.2.or (q.toList[x.1]?.map (·.1)) = p.toList[i]?.map (·.1)) ?_
    (i, none) ⟨⟨hp, hord⟩, .inr rfl, rfl⟩ hp hsteps).imp fun x hx => ⟨hx.1, ?_⟩
  · rintro l j d r ⟨rank, found⟩ ⟨hq, habsent | hnone, hfound⟩
    · cases habsent
    obtain rfl : found = none := hnone
    obtain ⟨⟨hl, hordl⟩, hr⟩ := kept_orderly_children l (j, d) r hq
    have hsize : Subtree.size s l.root = .ok l.toList.length := by
      rw [Subtree.size_spec hl, hordl.size_toNat hs hl, length_toList]
    rw [Option.none_or, toList] at hfound
    dsimp only
    rw [bind_of_eq_ok hsize]
    cases hcmp : compare rank l.toList.length with
    | lt =>
      have hlt := Nat.compare_eq_lt.1 hcmp
      rw [List.getElem?_append_left hlt] at hfound
      exact ⟨l, _, .inl rfl, rfl, ⟨hl, hordl⟩, .inr rfl, hfound⟩
    | eq =>
      have heq := Nat.compare_eq_eq.1 hcmp
      rw [List.getElem?_append_right heq.ge, heq, Nat.sub_self] at hfound
      exact ⟨.absent, _, .inr (.inr rfl), rfl, ⟨Store.unfolds_absent, orderly_absent⟩, .inl rfl,
        hfound⟩
    | gt =>
      have hgt := Nat.compare_eq_gt.1 hcmp
      rw [List.getElem?_append_right hgt.le, List.getElem?_cons, if_neg (by omega)] at hfound
      exact ⟨r, _, .inr (.inl rfl), rfl, hr, .inr rfl, Nat.sub_sub rank _ 1 ▸ hfound⟩
  · obtain ⟨-, -, -, hfound⟩ := hx
    rwa [toList, List.getElem?_nil, Option.map_none, Option.or_none] at hfound

namespace Forest

variable (hs : f.store.Sound cfg F) (hp : f.store.Unfolds p) (hord : Orderly aug p.bare)
  (ht : t.root = p.root)
include hs hp hord ht

theorem atRank_spec (i : Nat) : f.atRank t i = .ok p.bare.entries[i]? := by
  rw [atRank, ht, bind_of_eq_ok (Subtree.select_spec hs hp hord i),
    entryAt_eq hp fun x hx => List.mem_of_getElem? hx, Store.entries_bare, List.getElem?_map]

theorem rank_spec [Ord Q] [KeyView K Q] [TransOrd Q] [LawfulView K Q] (key : Q) :
    f.rank t key = .ok (entriesBelow key p.bare.entries).length := by
  rw [rank, ht, length_entriesBelow, Store.entries_bare, List.countP_map]
  exact Subtree.countWhile_spec hs hp hord (Bound.leading_keyBelow (.included key))

end Forest

end

namespace Session

section

variable [Ord K] [TransOrd K] [Ord Q] [KeyView K Q] [TransOrd Q] [LawfulView K Q]
  {sort : List (K × V) → List (K × V)} {aug : Augment K V T} {s : Session K V T} {t : Snapshot}

/-- In every session that a run reaches the entry of a number is the one at that position, and the
rank of a key, whether it is there or not, is the number of entries with smaller keys.  So the rank
of an entry's key is its position, and at the rank of a key there is the entry at the key, if there
is one at all: it is by this entry that the key is contained and has its value. -/
theorem ranks_inverse {configs : List Config} (h : s.Reached Q sort aug configs)
    (ht : t ∈ s.handles) :
    ∃ f es, s.forests[t.forest]? = some f ∧ f.entries t = .ok es ∧ f.size t = .ok es.length ∧
      Increasing es ∧
      (∀ i, f.atRank t i = .ok es[i]?) ∧ (∀ i, f.atRank t i = .ok none ↔ es.length ≤ i) ∧
      (∀ key : Q, f.rank t key = .ok (entriesBelow key es).length) ∧
      (∀ i e, f.atRank t i = .ok (some e) → f.rank t (KeyView.view e.1 : Q) = .ok i) ∧
      ∀ key : Q, ∃ found, (do f.atRank t (← f.rank t key)) = .ok found ∧
        (∀ e ∈ es, stored e.1 key = .eq → found = some e) ∧
        f.containsKey t key = .ok (found.any (stored ·.1 key == .eq)) ∧
        f.get? t key = .ok ((found.filter (stored ·.1 key == .eq)).map (·.2)) := by
  obtain ⟨x, hx⟩ := exists_holder h.tidy_true ht
  obtain ⟨f, cfg, F, p, hf, hroot, hsound, hunf, hord⟩ := h.exists_orderly hx
  have hinc := hord.increasing
  have hat := Forest.atRank_spec hsound hunf hord hroot.symm
  have hrank := fun key : Q => Forest.rank_spec hsound hunf hord hroot.symm key
  refine ⟨f, p.bare.entries, hf, Forest.entries_spec hsound hunf hord hroot, ?_, hinc, hat,
    fun i => ?_, hrank, fun i e he => ?_, fun key => ?_⟩
  · rw [Forest.size_spec hord hsound hunf hroot.symm, length_entries, count_bare]
  · rw [hat, Except.ok.injEq, List.getElem?_eq_none_iff]
  · rw [hrank, rank_of_getElem? hinc (Except.ok.inj ((hat i).symm.trans he))]
  · refine ⟨p.bare.entries.find? fun e => (stored e.1 key).isGE, ?_,
      fun e he hkey => find?_not_below hinc he hkey, ?_, ?_⟩
    · rw [bind_of_eq_ok (hrank key), hat, getElem?_rank hinc]
    · rw [Forest.containsKey_lists hsound hunf hroot.symm hinc key, valueAt, find?_at hinc,
        Option.isSome_map, Option.isSome_filter]
    · rw [Forest.get_lists hsound hunf hroot.symm hinc key, valueAt, find?_at hinc]

end

/-- At the rank of 2, which is in the tree, and beyond the last entry. -/
theorem ranks_inverse_shortRun : ∃ f es, shortRun.forests[0]? = some f ∧
    f.entries ⟨0, some 3, 2⟩ = .ok es ∧ (f.atRank ⟨0, some 3, 2⟩ 2 = .ok none ↔ es.length ≤ 2) ∧
    ∃ found, (do f.atRank ⟨0, some 3, 2⟩ (← f.rank ⟨0, some 3, 2⟩ 2)) = .ok found ∧
      f.containsKey ⟨0, some 3, 2⟩ 2 = .ok (found.any (stored ·.1 2 == .eq)) := by
  obtain ⟨f, es, hf, hes, -, -, -, hnone, -, -, hkeys⟩ := ranks_inverse (t := ⟨0, some 3, 2⟩)
    reached_shortRun (by decide +kernel)
  obtain ⟨found, hfound, -, hcontains, -⟩ := hkeys 2
  exact ⟨f, es, hf, hes, hnone 2, found, hfound, hcontains⟩

end Session

end SharedForest

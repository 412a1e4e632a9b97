/-
Where a search with a cursor ends.

A search goes down and remembers the last place it may have to come back to.  On the way the first
node that is not before the key, as seen from one side, is either below or else what is remembered
(`Cursor.seekBy_spec`): a node on the one side of the key takes the place of what is remembered, and
everything on its other side can be left out, since the keys are in order.

Counting on the way down finds the same place by its number, and the stacks of a range start with
the same entry.  All of them look for a point in one sorted list, so what they have in common is
said of lists.
-/
import SharedForest.Proofs.Navigation
import SharedForest.Proofs.Ranks

set_option autoImplicit false

namespace SharedForest

open Tree Std

variable {K Q V T ν : Type}

/-- What is looked for from one side: from the left a key that is at least `key`, from the right
one that is at most `key`. -/
def Side.reaches [Ord Q] [KeyView K Q] (side : Side) (key : Q) (k : K) : Bool :=
  side.pick (stored k key).isGE (stored k key).isLE

/-- Seen from one side, what is sought lies before a node, at it, or behind it. -/
theorem order_cases (side : Side) (o : Ordering) :
    o = side.pick .lt .gt ∨ o = .eq ∨ o = side.pick .gt .lt := by
  cases side <;> cases o <;> decide

/-! ## Nodes and places -/

namespace Tree

variable {q : Placed ν} {above : Cursor} {x : Cursor × ν}

theorem exists_mem_of_mem_trail (h : x ∈ trail above q) : ∃ i, (i, x.2) ∈ q.toList := by
  have hmem : x.2 ∈ (trail above q).map (·.2) := List.mem_map_of_mem h
  rw [map_trail] at hmem
  obtain ⟨⟨i, d⟩, hnode, rfl⟩ := List.mem_map.1 hmem
  exact ⟨i, hnode⟩

/-- At the end of the way to a node there is its entry. -/
theorem entry_of_mem_trail {s : NodeStore K V T} {q : Placed (Node K V T)}
    {x : Cursor × Node K V T} (hq : s.Unfolds q) (h : x ∈ trail above q) :
    x.1.entry s = .ok (some x.2.entry) := by
  induction q generalizing above with
  | absent => cases h
  | node l d r ihl ihr =>
    obtain ⟨i, d⟩ := d
    rw [trail_node, List.mem_append, List.mem_cons] at h
    rcases h with h | rfl | h
    · exact ihl hq.2.1 h
    · exact bind_of_eq_ok (Store.read_of_unfolds hq)
    · exact ihr hq.2.2 h

end Tree

/-- The next entry from one side is what comes first from there. -/
theorem Traversal.Spans.takeEntry {s : NodeStore K V T} {cfg : Config}
    {F : Multiset (Placed (Node K V T))} {p : Placed (Node K V T)} {w : Traversal}
    {es : List (K × V)} (side : Side) (hs : s.Sound cfg F) (hp : s.Unfolds p) (h : Spans p w es) :
    ∃ w', w.takeEntry side s = .ok ((side.turn es).head?, w') := by
  obtain ⟨-, xs, rfl, hboth⟩ := h
  have hturn : side.turn (xs.map (·.2.entry)) = (side.turn xs).map (·.2.entry) := by
    cases side <;> simp
  have hthere : Both s w (side.turn (side.turn xs)) := (Side.turn_turn side xs).symm ▸ hboth s hp
  obtain ⟨w', htaken, -⟩ := hthere.take hs
  exact ⟨w', by rw [htaken, hturn, List.head?_map]⟩

/-! ## Going down to a key -/

section

variable [Ord K] [Ord Q] [KeyView K Q] [TransOrd Q] [LawfulView K Q] {side : Side} {key : Q}
  {a b : K}

omit [Ord K] [LawfulView K Q] in
theorem Side.reaches_eq (side : Side) (key : Q) (k : K) :
    side.reaches key k = (sought key k != side.pick .gt .lt) := by
  rw [reaches, sought_eq_swap]
  cases side <;> cases stored k key <;> rfl

/-- What comes before a node from which the search does not turn back is not looked for. -/
theorem Side.not_reaches_of_before (hab : side.Before a b)
    (hb : sought key b ≠ side.pick .lt .gt) : ¬ side.reaches key a = true := by
  have hcut : Cut (sought key : K → Ordering) := cut_sought key
  rw [reaches_eq, bne_iff_ne, not_not]
  cases side with
  | left => exact hcut.gt a b hab hb
  | right => exact hcut.lt b a hab hb

variable [TransOrd K] {aug : Augment K V T} {s : NodeStore K V T} {cfg : Config}
  {F : Multiset (Placed (Node K V T))} {p : Placed (Node K V T)}

/-- A search ends at the first node that is looked for, or at the ghost. -/
theorem Cursor.seekBy_spec (side : Side) (key : Q) (hs : s.Sound cfg F) (hp : s.Unfolds p)
    (hinc : Increasing p.bare.entries) : seekBy s p.root (side.pick .lt .gt) key
      = .ok ((((side.turn (trail [] p)).find? (side.reaches key ·.2.key)).map (·.1)).getD []) := by
  suffices hend : ∃ c, seekBy s p.root (side.pick .lt .gt) key = .ok c ∧
      c = (((side.turn (trail [] p)).find? (side.reaches key ·.2.key)).map (·.1)).getD [] by
    obtain ⟨c, hc, rfl⟩ := hend
    exact hc
  rw [seekBy, Store.walk]
  -- The first node that is looked for is still below, or else the one that is remembered.
  refine exists_ok_bind (Store.walkFor_keeps _ (fun q x => Increasing q.bare.entries ∧
      (((side.turn (trail x.1 q)).find? (side.reaches key ·.2.key)).map (·.1)).getD x.2
        = (((side.turn (trail [] p)).find? (side.reaches key ·.2.key)).map (·.1)).getD []) ?_ _
    ⟨hinc, rfl⟩ hp (Nat.le_of_lt (hs.depth_lt hp))) ?_
  · rintro l i d r ⟨way, kept⟩ ⟨hinc, hfirst⟩
    obtain ⟨hnearer, -⟩ := keys_along side hinc
    -- From a node that is not on the far side of the key there is no way back.
    have hnone : sought key d.key ≠ side.pick .lt .gt →
        (side.turn (trail (i :: way) (side.pick l r))).find? (side.reaches key ·.2.key) = none := by
      refine fun hne => List.find?_eq_none.2 fun x hx => ?_
      obtain ⟨j, hj⟩ := exists_mem_of_mem_trail (Side.mem_turn.1 hx)
      exact Side.not_reaches_of_before (hnearer (j, x.2) (mem_along.2 hj)) hne
    have hhere := side.reaches_eq key d.key
    rw [turn_trail_node, List.find?_append, List.find?_cons] at hfirst
    dsimp only at hfirst ⊢
    rcases order_cases side (sought key d.key) with hord | hord | hord
    · refine ⟨side.pick l r, (i :: way, i :: way), by cases side <;> simp, ?_,
        increasing_pick side hinc, ?_⟩
      · rw [hord, if_pos (.inr rfl)]
        cases side <;> rfl
      · rw [show side.reaches key d.key = true by rw [hhere, hord]; cases side <;> rfl] at hfirst
        rw [← hfirst]
        cases (side.turn (trail (i :: way) (side.pick l r))).find? (side.reaches key ·.2.key) <;> rfl
    · refine ⟨.absent, (i :: way, i :: way), .inr (.inr rfl), ?_, increasing_nil, ?_⟩
      · rw [hord, if_pos (.inl rfl)]
        rfl
      · rw [hnone (by rw [hord]; cases side <;> decide), Option.none_or,
          show side.reaches key d.key = true by rw [hhere, hord]; cases side <;> rfl] at hfirst
        rw [← hfirst]
        cases side <;> rfl
    · refine ⟨side.flip.pick l r, (i :: way, kept), by cases side <;> simp, ?_,
        increasing_pick side.flip hinc, ?_⟩
      · rw [hord]
        cases side <;> rfl
      · rw [hnone (by rw [hord]; cases side <;> decide), Option.none_or,
          show side.reaches key d.key = false by rw [hhere, hord]; cases side <;> rfl] at hfirst
        exact hfirst
  · rintro ⟨way, kept⟩ ⟨-, hkept⟩
    refine ⟨kept, rfl, ?_⟩
    rw [← hkept]
    cases side <;> rfl

/-- The cursor is at the node with the entry `e`, at the end of a way from the root; or at the ghost
if that is none. -/
structure Cursor.StandsAt (s : NodeStore K V T) (p : Placed (Node K V T)) (c : Cursor)
    (e : Option (K × V)) : Prop where
  admits : p.Admits c
  entry : c.entry s = .ok e
  ghost : c = [] ↔ e = none

/-- A search from the left ends at the first entry that is not below the key, and one from the right
at the last that is not above it. -/
theorem Cursor.seekBy_stands (side : Side) (key : Q) (hs : s.Sound cfg F) (hp : s.Unfolds p)
    (hinc : Increasing p.bare.entries) : ∃ c, seekBy s p.root (side.pick .lt .gt) key = .ok c ∧
      c.StandsAt s p ((side.turn p.bare.entries).find? (side.reaches key ·.1)) := by
  obtain ⟨c, hc, hadmits⟩ := seekBy_admits (side.pick .lt .gt) key hs hp
  have hfirst := Except.ok.inj (hc.symm.trans (seekBy_spec side key hs hp hinc))
  have hentries : (side.turn p.bare.entries).find? (side.reaches key ·.1)
      = ((side.turn (trail [] p)).find? (side.reaches key ·.2.key)).map (·.2.entry) := by
    have hturn : side.turn p.bare.entries = (side.turn (trail [] p)).map (·.2.entry) := by
      rw [entries_trail [] p]
      cases side <;> simp
    rw [hturn, List.find?_map]
    rfl
  refine ⟨c, hc, ?_⟩
  rw [hentries]
  cases hfound : (side.turn (trail [] p)).find? (side.reaches key ·.2.key) with
  | none =>
    rw [hfound] at hfirst
    obtain rfl : c = [] := hfirst
    exact ⟨hadmits, rfl, iff_of_true rfl rfl⟩
  | some x =>
    rw [hfound] at hfirst
    obtain rfl : c = x.1 := hfirst
    have hentry := entry_of_mem_trail hp (Side.mem_turn.1 (List.mem_of_find?_eq_some hfound))
    refine ⟨hadmits, hentry, fun hnil => ?_, fun hnone => by cases hnone⟩
    rw [hnil] at hentry
    cases hentry

/-- The number of the place where a search from the left ends is the rank of the key. -/
theorem Cursor.StandsAt.oriented {c : Cursor} (hs : s.Sound cfg F) (hp : s.Unfolds p)
    (hord : Orderly aug p.bare)
    (h : c.StandsAt s p (p.bare.entries.find? fun e => (stored e.1 key).isGE)) :
    Oriented s p c (entriesBelow key p.bare.entries).length := by
  obtain ⟨n, hn⟩ := h.admits.exists_oriented hs hp hord
  have hcount : p.bare.entries.length = p.count := by rw [length_entries, count_bare]
  have hle : n ≤ p.bare.entries.length := by
    have hlt := (List.getElem?_eq_some_iff.1 hn.place).1
    rw [length_places] at hlt
    rw [hcount]
    exact Nat.le_of_lt_succ hlt
  have hrank : (entriesBelow key p.bare.entries).length ≤ p.bare.entries.length :=
    List.length_filter_le _ _
  have hsame : p.bare.entries[n]? = p.bare.entries[(entriesBelow key p.bare.entries).length]? := by
    rw [getElem?_rank hord.increasing]
    exact Except.ok.inj (hn.entry.symm.trans h.entry)
  -- An entry has one position, and only behind the last one there is none.
  rcases Nat.lt_or_eq_of_le hle with hlt | heq
  · have hhere := List.getElem?_eq_getElem hlt
    exact ((rank_of_getElem? (Q := Q) hord.increasing hhere).symm.trans
      (rank_of_getElem? hord.increasing (hsame.symm.trans hhere))) ▸ hn
  · rw [List.getElem?_eq_none heq.ge, eq_comm, List.getElem?_eq_none_iff] at hsame
    exact Nat.le_antisymm (heq.le.trans hsame) (hrank.trans heq.ge) ▸ hn

omit [TransOrd Q] [LawfulView K Q] [TransOrd K] [Ord K] in
/-- What comes first from one side of what lies on the other side of a key. -/
theorem head?_entriesWithin (side : Side) (key : Q) (es : List (K × V)) :
    (side.turn (entriesWithin (side.pick (.included key) .unbounded)
      (side.pick .unbounded (.included key)) es)).head?
        = (side.turn es).find? (side.reaches key ·.1) := by
  cases side with
  | left =>
    rw [Side.turn_left, entriesWithin, List.head?_filter]
    exact congrArg (List.find? · es) (funext fun e => Bool.and_true _)
  | right =>
    rw [Side.turn_right, entriesWithin, ← List.filter_reverse, List.head?_filter]
    rfl

/-- A range from a key on starts with the entry that a search for the key ends at. -/
theorem Traversal.range_reaches (side : Side) (key : Q) (hs : s.Sound cfg F) (hp : s.Unfolds p)
    (hord : Orderly aug p.bare) : ∃ w w', range s p.root (side.pick (.included key) .unbounded)
      (side.pick .unbounded (.included key)) = .ok w ∧
        w.takeEntry side s = .ok ((side.turn p.bare.entries).find? (side.reaches key ·.1), w') := by
  obtain ⟨w, hw, hspans⟩ := range_spans hs hp hord (side.pick (.included key) .unbounded)
    (side.pick .unbounded (.included key))
  obtain ⟨w', htaken⟩ := hspans.takeEntry side hs hp
  exact ⟨w, w', hw, by rw [htaken, head?_entriesWithin]⟩

end

namespace Session

section

variable [Ord K] [TransOrd K] [Ord Q] [KeyView K Q] [TransOrd Q] [LawfulView K Q]
  {sort : List (K × V) → List (K × V)} {aug : Augment K V T} {s : Session K V T} {t : Snapshot}

/-- In every session that a run reaches a cursor that searches for a key, wherever it was, ends at
the end of a way from the root at the first entry that is not below the key, or searching back at
the last that is not above it; and at the ghost if there is none.  The number of the place is the
rank of the key, and the entry is the one that a range from the key on, or up to it, starts with. -/
theorem seeks_agree {configs : List Config} (h : s.Reached Q sort aug configs)
    (ht : t ∈ s.handles) :
    ∃ f p, s.forests[t.forest]? = some f ∧ p.root = t.root ∧ f.store.Unfolds p ∧
      f.entries t = .ok p.bare.entries ∧ f.size t = .ok p.count ∧ Increasing p.bare.entries ∧
      ∀ key : Q, ∃ c c' rank,
        Cursor.start f.store t.root (.atKey key) = .ok c ∧
        (∀ (c₀ : Cursor) version,
          (∃ x, c.position f.store = .ok x ∧
            c₀.move f.store t.root version (.seek key) = .ok (.position x, c)) ∧
          ∃ x, c'.position f.store = .ok x ∧
            c₀.move f.store t.root version (.seekBack key) = .ok (.position x, c')) ∧
        c.StandsAt f.store p (p.bare.entries.find? fun e => (stored e.1 key).isGE) ∧
        c'.StandsAt f.store p (p.bare.entries.reverse.find? fun e => (stored e.1 key).isLE) ∧
        f.rank t key = .ok rank ∧ p.places[rank]? = some c ∧
        c.index f.store = .ok (if rank < p.count then some rank else none) ∧
        (c = [] ↔ p.count ≤ rank) ∧
        (∃ e w w', c.entry f.store = .ok e ∧
          f.traverseRange t (.included key) .unbounded = .ok w ∧
          w.nextEntry f.store = .ok (e, w')) ∧
        ∃ e w w', c'.entry f.store = .ok e ∧
          f.traverseRange t .unbounded (.included key) = .ok w ∧
          w.nextBackEntry f.store = .ok (e, w') := by
  obtain ⟨x, hx⟩ := exists_holder h.tidy_true ht
  obtain ⟨f, cfg, F, p, hf, hroot, hsound, hunf, hord⟩ := h.exists_orderly hx
  refine ⟨f, p, hf, hroot, hunf, Forest.entries_spec hsound hunf hord hroot,
    Forest.size_spec hord hsound hunf hroot.symm, hord.increasing, fun key => ?_⟩
  obtain ⟨c, hseek, hstands⟩ := Cursor.seekBy_stands .left key hsound hunf hord.increasing
  obtain ⟨c', hseekBack, hstands'⟩ := Cursor.seekBy_stands .right key hsound hunf hord.increasing
  obtain ⟨w, w₁, hw, hnext⟩ := Traversal.range_reaches .left key hsound hunf hord
  obtain ⟨w', w₁', hw', hnext'⟩ := Traversal.range_reaches .right key hsound hunf hord
  have hrank := Forest.rank_spec hsound hunf hord hroot.symm key
  have horiented := Cursor.StandsAt.oriented hsound hunf hord hstands
  -- A search starts at the root whatever the cursor was at, so one search serves all of them.
  rw [hroot] at hseek hseekBack hw hw'
  have hseek : Cursor.seek f.store t.root key = .ok c := hseek
  have hseekBack : Cursor.seekBack f.store t.root key = .ok c' := hseekBack
  obtain ⟨y, hy⟩ := Cursor.position_ok hunf hstands.admits
  obtain ⟨y', hy'⟩ := Cursor.position_ok hunf hstands'.admits
  refine ⟨c, c', _, hseek, fun c₀ version => ⟨⟨y, hy, ?_⟩, y', hy', ?_⟩, hstands, hstands',
    hrank, horiented.place, horiented.index, ?_,
    ⟨_, w, w₁, hstands.entry, hw, hnext⟩, _, w', w₁', hstands'.entry, hw', hnext'⟩
  · rw [Cursor.move, bind_of_eq_ok hseek, bind_of_eq_ok hy]
    rfl
  · rw [Cursor.move, bind_of_eq_ok hseekBack, bind_of_eq_ok hy']
    rfl
  · rw [← count_bare, ← length_entries, ← List.getElem?_eq_none_iff,
      getElem?_rank hord.increasing]
    exact hstands.ghost

end

/-- Searching for 3, which lies behind the last key, from the first entry. -/
theorem seeks_agree_shortRun : ∃ f p, ∃ c c' : Cursor,
    shortRun.forests[0]? = some f ∧ f.store.Unfolds p ∧
    (∃ x, c.position f.store = .ok x ∧
      Cursor.move f.store (some 3) 2 [2] (.seek 3) = .ok (.position x, c)) ∧
    c.StandsAt f.store p (p.bare.entries.find? fun e => (stored e.1 3).isGE) ∧
    c'.StandsAt f.store p (p.bare.entries.reverse.find? fun e => (stored e.1 3).isLE) := by
  obtain ⟨f, p, hf, -, hunf, -, -, -, hkeys⟩ := seeks_agree (t := ⟨0, some 3, 2⟩)
    reached_shortRun (by decide +kernel)
  obtain ⟨c, c', rank, -, hmoves, hstands, hstands', -⟩ := hkeys 3
  exact ⟨f, p, c, c', hf, hunf, (hmoves [2] 2).1, hstands, hstands'⟩

end Session

end SharedForest

/-
Where the moves of a cursor lead.

The ways to all nodes of a tree, in order, with the ghost after the last, are the places of a
cursor (`places`), and they lie in a circle: one step forward leads from each place to the next
one, one step back to the one before.  There are no links to climb by, and so a step tells by the
way alone what comes after the subtree a cursor is in: climbing ends at the first node behind it,
or before it, in the order of the whole tree (`Way.around`).  Where the subtree lies among the
nodes, what climbing on either side leads to, and what is counted on the way to the root, is one
invariant of ways.

The rest is what this invariant says of a node instead of a subtree (`Way.between`), and that a
list is a circle in which a step forward and a step back undo each other.
-/
import SharedForest.Proofs.Iterators

set_option autoImplicit false

namespace SharedForest

open Tree Std

variable {K Q V T ν α : Type}

/-! ## Places -/

namespace Tree

variable {side : Side} {l r p q : Placed ν} {i j : Nat} {d : ν} {above : Cursor}

/-- The nodes of a tree in order, each with the way to it from what lies above. -/
def trail (above : Cursor) : Placed ν → List (Cursor × ν)
  | absent => []
  | node l (i, d) r => trail (i :: above) l ++ (i :: above, d) :: trail (i :: above) r

/-- Where a cursor can be, in order: at each of the nodes, and at the ghost after the last. -/
def places (p : Placed ν) : List Cursor := (trail [] p).map (·.1) ++ [[]]

theorem trail_node : trail above (node l (i, d) r)
    = trail (i :: above) l ++ (i :: above, d) :: trail (i :: above) r := rfl

theorem turn_trail_node (side : Side) : side.turn (trail above (node l (i, d) r))
    = side.turn (trail (i :: above) (side.pick l r))
      ++ (i :: above, d) :: side.turn (trail (i :: above) (side.flip.pick l r)) := by
  cases side <;> simp [trail_node]

/-- What is met first from one side is at the end of the way down that side. -/
theorem head?_turn_trail (side : Side) (h : q.root = some j) :
    ((side.turn (trail above q)).map (·.1)).head? = some (q.spine side ++ above) := by
  have hnode : ∀ (l r : Placed ν) (i : Nat) (d : ν) (above : Cursor),
      (∀ j, (side.pick l r).root = some j →
        ((side.turn (trail (i :: above) (side.pick l r))).map (·.1)).head?
          = some ((side.pick l r).spine side ++ i :: above)) →
      ((side.turn (trail above (node l (i, d) r))).map (·.1)).head?
        = some ((node l (i, d) r).spine side ++ above) := by
    intro l r i d above ih
    rw [turn_trail_node, spine_node, List.map_append, List.head?_append, List.append_assoc]
    cases hnear : (side.pick l r).root with
    | none =>
      rw [root_eq_none_iff.1 hnear]
      cases side <;> rfl
    | some k =>
      rw [ih k hnear]
      rfl
  induction q generalizing above j with
  | absent => cases h
  | node l d r ihl ihr =>
    obtain ⟨i, d⟩ := d
    refine hnode l r i d above fun j hj => ?_
    cases side
    · exact ihl hj
    · exact ihr hj

theorem map_trail (above : Cursor) (p : Placed ν) :
    (trail above p).map (·.2) = p.toList.map (·.2) := by
  induction p generalizing above with
  | absent => rfl
  | node l d r ihl ihr =>
    obtain ⟨i, d⟩ := d
    simp only [trail_node, toList, List.map_append, List.map_cons, ihl, ihr]

theorem entries_trail (above : Cursor) (p : Placed (Node K V T)) :
    p.bare.entries = (trail above p).map (·.2.entry) := by
  have hnodes := congrArg (List.map Node.entry) (map_trail above p)
  rw [List.map_map, List.map_map] at hnodes
  exact (Store.entries_bare p).trans hnodes.symm

theorem length_trail (above : Cursor) (p : Placed ν) : (trail above p).length = p.count := by
  have hlen := congrArg List.length (map_trail above p)
  rwa [List.length_map, List.length_map, length_toList] at hlen

theorem length_places (p : Placed ν) : p.places.length = p.count + 1 := by
  rw [places, List.length_append, List.length_map, length_trail, List.length_singleton]

/-- A way ends at the slot of its node. -/
theorem heads_trail (above : Cursor) (p : Placed ν) :
    (trail above p).map (·.1.head?) = p.slots.map some := by
  induction p generalizing above with
  | absent => rfl
  | node l d r ihl ihr =>
    obtain ⟨i, d⟩ := d
    simp only [slots] at ihl ihr
    simp only [trail_node, slots, toList, List.map_append, List.map_cons, ihl, ihr,
      List.head?_cons]

/-- No place comes twice. -/
theorem nodup_places (h : p.slots.Nodup) : p.places.Nodup := by
  refine List.Nodup.of_map List.head? ?_
  rw [places, List.map_append, List.map_map]
  have hheads : (trail [] p).map (List.head? ∘ Prod.fst) = p.slots.map some := heads_trail [] p
  rw [hheads]
  refine List.Nodup.append (h.map (Option.some_injective _)) (List.nodup_singleton _) ?_
  simp

end Tree

/-! ## Around a circle -/

theorem getElem?_after (xs ys : List α) (x : α) :
    (xs ++ x :: ys)[(xs.length + 1) % (xs ++ x :: ys).length]? = (ys ++ xs ++ [x]).head? := by
  have hpos : 0 < (xs ++ x :: ys).length := by simp
  have hturn := List.rotate_append_length_eq (xs ++ [x]) ys
  rw [List.append_assoc, List.singleton_append, ← List.append_assoc, List.length_append,
    List.length_singleton] at hturn
  rw [← hturn, List.head?_eq_getElem?, List.getElem?_rotate hpos, Nat.zero_add]

theorem getElem?_before (xs ys : List α) (x : α) :
    (xs ++ x :: ys)[(xs.length + (xs.length + ys.length)) % (xs ++ x :: ys).length]?
      = (x :: ys ++ xs).getLast? := by
  have hlen : (xs ++ x :: ys).length = xs.length + ys.length + 1 := by simp; omega
  have hlt : xs.length + ys.length < (xs ++ x :: ys).length := by omega
  have hturn := List.rotate_append_length_eq xs (x :: ys)
  rw [← hturn, List.getLast?_eq_getElem?, List.length_rotate, hlen, Nat.add_sub_cancel,
    List.getElem?_rotate hlt, hlen, Nat.add_comm xs.length (_ + _)]

theorem head?_ghost (xs ys : List Cursor) : (xs ++ [] :: ys).head? = some (xs.headD []) := by
  cases xs <;> rfl

theorem getLast?_ghost (xs ys : List Cursor) :
    (xs ++ [] :: ys).getLast? = some (ys.reverse.headD []) := by
  rw [← List.head?_reverse, List.reverse_append, List.reverse_cons, List.append_assoc]
  exact head?_ghost _ _

/-- With the places on both sides of one the places next to it in the circle are known. -/
theorem Tree.places_around {p : Placed ν} {c : Cursor} {before after : List Cursor}
    (h : p.places = before ++ c :: after) : p.places[before.length]? = some c ∧
      p.places[(before.length + p.count) % p.places.length]? = (c :: after ++ before).getLast? ∧
      p.places[(before.length + 1) % p.places.length]? = (after ++ before ++ [c]).head? := by
  have hlen := length_places p
  rw [h, List.length_append, List.length_cons] at hlen
  have hcount : p.count = before.length + after.length := by omega
  rw [h, hcount]
  exact ⟨by simp, getElem?_before before after c, getElem?_after before after c⟩

/-! ## Around a subtree -/

section

variable [Ord K] [TransOrd K] {aug : Augment K V T} {s : NodeStore K V T} {cfg : Config}
  {F : Multiset (Placed (Node K V T))} {p q : Placed (Node K V T)} {c : Cursor}

/-- The children of a node in order are at different slots. -/
theorem Tree.roots_ne {l r : Placed (Node K V T)} {i j : Nat} {d : Node K V T}
    (hp : s.Unfolds (.node l (i, d) r)) (hord : Orderly aug (node l (i, d) r).bare) (side : Side)
    (h : (side.pick l r).root = some j) : (side.flip.pick l r).root ≠ some j := by
  have hnodup := Store.nodup_slots hp hord.increasing
  rw [slots, toList, List.map_append, List.map_cons] at hnodup
  have hapart : ∀ j, l.root = some j → r.root ≠ some j := fun j hl hr =>
    (List.nodup_append.1 hnodup).2.2 j (mem_slots_of_root hl) j
      (List.mem_cons_of_mem _ (mem_slots_of_root hr)) rfl
  cases side
  · exact hapart j h
  · exact fun hl => hapart j hl h

/-- The subtree that a way leads to is one part of the trail.  Climbing leads to the first node
behind that part, or to the last one before it; and what is counted on the way up is what lies
before it. -/
theorem Way.around (hs : s.Sound cfg F) (hp : s.Unfolds p) (hord : Orderly aug p.bare)
    (h : Way p c q) : ∃ before after : List (Cursor × Node K V T),
      trail [] p = before ++ (trail c.tail q ++ after) ∧
      (∀ side : Side, Cursor.climb s side c
        = .ok (((side.pick after before.reverse).map (·.1)).headD [])) ∧
      Cursor.before s c = .ok before.length := by
  induction h with
  | root h => exact ⟨[], [], (List.append_nil _).symm, fun side => by cases side <;> rfl, rfl⟩
  | @child l r i j d c side up h ih =>
    obtain ⟨before, after, htrail, hclimb, hbefore⟩ := ih
    obtain ⟨hunf, hordq⟩ := up.inherits (P := fun q => s.Unfolds q ∧ Orderly aug q.bare)
      kept_orderly_children ⟨hp, hord⟩
    obtain ⟨⟨hl, hordl⟩, -⟩ := kept_orderly_children l (i, d) r ⟨hunf, hordq⟩
    have hother := roots_ne hunf hordq side h
    obtain ⟨_, _, _, _, above, heq, rfl⟩ := up.exists_cons
    obtain ⟨rfl, hid, rfl⟩ := heq
    have hread := Store.read_of_unfolds hunf
    -- Above the child is its parent, and the climb ends there if it came from that side.
    have hstep : ∀ near : Side, Cursor.climb s near (j :: i :: above)
        = if near = side then .ok (i :: above) else Cursor.climb s near (i :: above) := by
      intro near
      rw [Cursor.climb, bind_of_eq_ok hread, child_eq_root]
      by_cases hnear : near = side
      · rw [if_pos (hnear ▸ h), if_pos hnear]
        rfl
      · rw [if_neg (Side.eq_flip_of_ne hnear ▸ hother), if_neg hnear]
    cases side with
    | left =>
      refine ⟨before, (i :: above, d) :: (trail (i :: above) r ++ after), ?_, ?_, ?_⟩
      · rw [htrail, List.tail_cons, List.tail_cons, trail_node, List.append_assoc, List.cons_append]
        rfl
      · rintro (_ | _)
        · exact hstep .left
        · exact (hstep .right).trans (hclimb .right)
      · rw [Cursor.before, bind_of_eq_ok hread, bind_of_eq_ok hbefore]
        exact if_neg hother
    | right =>
      refine ⟨before ++ (trail (i :: above) l ++ [(i :: above, d)]), after, ?_, ?_, ?_⟩
      · rw [htrail, List.tail_cons, List.tail_cons, trail_node]
        simp
      · rintro (_ | _)
        · exact (hstep .left).trans (hclimb .left)
        · rw [hstep]
          simp
      · have hlen : (before ++ (trail (i :: above) l ++ [(i :: above, d)])).length
            = l.count + 1 + before.length := by
          rw [List.length_append, List.length_append, length_trail, List.length_singleton,
            Nat.add_comm]
        rw [Cursor.before, bind_of_eq_ok hread, bind_of_eq_ok hbefore, hlen]
        refine (if_pos h).trans ?_
        rw [bind_of_eq_ok (Subtree.size_spec hl), hordl.size_toNat hs hl]
        rfl

/-- A step leads to the node next to the current one in the whole tree, or to the ghost. -/
theorem Way.between {l r : Placed (Node K V T)} {i : Nat} {d : Node K V T} {above : Cursor}
    (hs : s.Sound cfg F) (hp : s.Unfolds p) (hord : Orderly aug p.bare)
    (h : Way p (i :: above) (node l (i, d) r)) : ∃ before after : List (Cursor × Node K V T),
      trail [] p = before ++ trail (i :: above) l
        ++ (i :: above, d) :: (trail (i :: above) r ++ after) ∧
      (∀ side : Side, Cursor.advance s p.root side (i :: above)
        = .ok (((side.pick (before ++ trail (i :: above) l).reverse
          (trail (i :: above) r ++ after)).map (·.1)).headD [])) ∧
      Cursor.index s (i :: above) = .ok (some (before ++ trail (i :: above) l).length) := by
  obtain ⟨before, after, htrail, hclimb, hbefore⟩ := h.around hs hp hord
  obtain ⟨hunf, hordq⟩ := h.inherits (P := fun q => s.Unfolds q ∧ Orderly aug q.bare)
    kept_orderly_children ⟨hp, hord⟩
  obtain ⟨⟨hl, hordl⟩, hr, -⟩ := kept_orderly_children l (i, d) r ⟨hunf, hordq⟩
  have hread := Store.read_of_unfolds hunf
  refine ⟨before, after, ?_, fun side => ?_, ?_⟩
  · rw [htrail, List.tail_cons, trail_node]
    simp
  · -- If there is nothing on that side of the node, its subtree ends there.
    have hlist : side.pick (before ++ trail (i :: above) l).reverse (trail (i :: above) r ++ after)
        = side.flip.turn (trail (i :: above) (side.pick l r))
          ++ side.flip.pick after before.reverse := by
      cases side <;> simp
    rw [Cursor.advance, bind_of_eq_ok hread, child_eq_root, hlist, List.map_append,
      List.headD_eq_head?_getD, List.head?_append]
    cases hchild : (side.pick l r).root with
    | none =>
      rw [root_eq_none_iff.1 hchild]
      refine (hclimb side.flip).trans ?_
      rw [List.headD_eq_head?_getD]
      cases side <;> rfl
    | some j =>
      have hfar : s.Unfolds (side.pick l r) := hl.pick hr
      have hdown := Cursor.descend_spec side.flip hs hfar (i :: above)
      rw [hchild] at hdown
      rw [head?_turn_trail side.flip hchild]
      exact hdown
  · rw [Cursor.index, bind_of_eq_ok hread, bind_of_eq_ok (Subtree.size_spec hl),
      bind_of_eq_ok hbefore, hordl.size_toNat hs hl, List.length_append, length_trail,
      Nat.add_comm before.length]
    rfl

omit [Ord K] [TransOrd K] in
/-- From the ghost a step leads to the far end. -/
theorem Cursor.advance_ghost (side : Side) (hs : s.Sound cfg F) (hp : s.Unfolds p) :
    Cursor.advance s p.root side [] = .ok (((side.flip.turn (trail [] p)).map (·.1)).headD []) := by
  refine (Cursor.descend_spec side.flip hs hp []).trans ?_
  cases hroot : p.root with
  | none =>
    rw [root_eq_none_iff.1 hroot]
    cases side <;> rfl
  | some j => rw [List.headD_eq_head?_getD, head?_turn_trail side.flip hroot, Option.getD_some]

/-- How many places a step leads on, in the circle of all places; a step back leads on to the place
before. -/
def Side.stride (side : Side) (p : Placed ν) : Nat := side.pick p.count 1

/-- A cursor is at one of the places, and the places lie in a circle. -/
theorem Tree.Admits.exists_place (hs : s.Sound cfg F) (hp : s.Unfolds p)
    (hord : Orderly aug p.bare) (h : p.Admits c) : ∃ n, p.places[n]? = some c ∧
      (∀ side : Side, ∃ c', c.advance s p.root side = .ok c' ∧
        p.places[(n + side.stride p) % (p.count + 1)]? = some c') ∧
      c.index s = .ok (if n < p.count then some n else none) := by
  rw [← length_places]
  rcases h with rfl | ⟨q, h⟩
  -- The ghost is the last of the places, so the circle closes here.
  · obtain ⟨hplace, hprev, hnext⟩ := places_around (p := p) (c := []) rfl
    refine ⟨_, hplace, fun side => ⟨_, Cursor.advance_ghost side hs hp, ?_⟩, ?_⟩
    · cases side with
      | left =>
        refine hprev.trans ?_
        rw [Side.flip_left, Side.turn_right, List.map_reverse]
        exact getLast?_ghost [] _
      | right => exact hnext.trans (head?_ghost _ _)
    · rw [List.length_map, length_trail, if_neg (Nat.lt_irrefl _)]
      rfl
  · obtain ⟨l, i, d, r, above, rfl, rfl⟩ := h.exists_cons
    obtain ⟨before, after, htrail, hadvance, hindex⟩ := h.between hs hp hord
    have hplaces : p.places = (before ++ trail (i :: above) l).map (·.1)
        ++ (i :: above) :: ((trail (i :: above) r ++ after).map (·.1) ++ [[]]) := by
      rw [places, htrail, List.map_append, List.map_cons, List.append_assoc, List.cons_append]
    obtain ⟨hplace, hprev, hnext⟩ := places_around hplaces
    refine ⟨_, hplace, fun side => ⟨_, hadvance side, ?_⟩, ?_⟩
    · cases side with
      | left =>
        refine hprev.trans ?_
        rw [← List.cons_append, List.append_assoc, Side.pick_left, List.map_reverse]
        exact getLast?_ghost _ _
      | right =>
        refine hnext.trans ?_
        rw [List.append_assoc, List.append_assoc]
        exact head?_ghost _ _
    · have hlen := length_places p
      rw [hplaces, List.length_append, List.length_cons, List.length_append,
        List.length_singleton] at hlen
      rw [hindex, if_pos (by omega), List.length_map]

/-- A place has one number. -/
theorem Tree.places_inj (hp : s.Unfolds p) (hord : Orderly aug p.bare) {m n : Nat}
    (hm : p.places[m]? = some c) (hn : p.places[n]? = some c) : m = n :=
  (List.getElem?_inj (List.getElem?_eq_some_iff.1 hm).1
    (nodup_places (Store.nodup_slots hp hord.increasing))).1 (hm.trans hn.symm)

/-- A step the other way leads back to where the cursor was. -/
theorem Cursor.advance_flip (side : Side) (hs : s.Sound cfg F) (hp : s.Unfolds p)
    (hord : Orderly aug p.bare) (h : p.Admits c) {c' : Cursor}
    (hgo : c.advance s p.root side = .ok c') : c'.advance s p.root side.flip = .ok c := by
  obtain ⟨n, hn, hstep, -⟩ := h.exists_place hs hp hord
  obtain ⟨c₁, hgo₁, hplace⟩ := hstep side
  obtain rfl := Except.ok.inj (hgo₁.symm.trans hgo)
  obtain ⟨c₂, hgo₂, hadmits⟩ := advance_admits side hs hp h
  obtain rfl := Except.ok.inj (hgo₂.symm.trans hgo)
  obtain ⟨m, hm, hback, -⟩ := hadmits.exists_place hs hp hord
  obtain ⟨c₃, hgo₃, hplace₃⟩ := hback side.flip
  -- Both steps together lead once round.
  obtain rfl := places_inj hp hord hm hplace
  have hlt : n < p.count + 1 := by
    rw [← length_places]
    exact (List.getElem?_eq_some_iff.1 hn).1
  have hround : side.stride p + side.flip.stride p = p.count + 1 := by
    cases side
    · rfl
    · exact Nat.add_comm _ _
  rw [Nat.mod_add_mod, Nat.add_assoc, hround, Nat.add_mod_right, Nat.mod_eq_of_lt hlt, hn] at hplace₃
  rw [hgo₃, Option.some.inj hplace₃]

/-- The entries below a node lie together among those of the tree, around its own. -/
theorem Way.block (hs : s.Sound cfg F) (hp : s.Unfolds p) (hord : Orderly aug p.bare)
    (h : Way p c q) : ∃ k n, (p.bare.entries.drop k).take q.count = q.bare.entries ∧
      k ≤ n ∧ n < k + q.count ∧ c.index s = .ok (some n) ∧ c.entry s = .ok p.bare.entries[n]? := by
  obtain ⟨l, i, d, r, above, rfl, rfl⟩ := h.exists_cons
  obtain ⟨before, after, htrail, -, hindex⟩ := h.between hs hp hord
  have hentries : p.bare.entries = before.map (·.2.entry) ++ ((node l (i, d) r).bare.entries
      ++ after.map (·.2.entry)) := by
    rw [entries_trail [] p, entries_trail above (node l (i, d) r), htrail, trail_node]
    simp
  have hlen : (before ++ trail (i :: above) l).length = before.length + l.count := by
    rw [List.length_append, length_trail]
  have hcount : (node l (i, d) r).bare.entries.length = (node l (i, d) r).count := by
    rw [length_entries, count_bare]
  refine ⟨before.length, _, ?_, ?_, ?_, hindex, ?_⟩
  · rw [hentries, List.drop_left' (List.length_map _), ← hcount, List.take_left]
  · rw [hlen]
    exact Nat.le_add_right _ _
  · rw [hlen, count]
    omega
  · rw [entries_trail [] p, htrail, List.getElem?_map, List.getElem?_append_right (Nat.le_refl _),
      Nat.sub_self]
    exact bind_of_eq_ok (Store.read_of_unfolds (h.unfolds hp))

end

/-! ## Looking round -/

section

variable {s : NodeStore K V T} {cfg : Config} {F : Multiset (Placed (Node K V T))}
  {p : Placed (Node K V T)} {c c' : Cursor} {side : Side}

namespace Cursor

/-- A move to a child is undone by the move to the parent. -/
theorem parent?_of_child? (h : c.child? s side = .ok (some c')) : c'.parent? = some c := by
  cases c with
  | nil => cases h
  | cons i above =>
    rw [child?] at h
    obtain ⟨cell, -, h⟩ := bind_eq_ok_iff.1 h
    cases hchild : cell.child side with
    | none => rw [hchild] at h; cases h
    | some j => rw [hchild] at h; cases h; rfl

/-- What a cursor tells and where it leads at place `n` of a tree. -/
structure Oriented (s : NodeStore K V T) (p : Placed (Node K V T)) (c : Cursor) (n : Nat) :
    Prop where
  place : p.places[n]? = some c
  /-- A step forward leads to the next place, and a step back from there leads back. -/
  next : ∃ c', c.next s p.root = .ok c' ∧ p.places[(n + 1) % (p.count + 1)]? = some c' ∧
    c'.prev s p.root = .ok c
  /-- A step back leads to the place before, and a step forward from there leads back. -/
  prev : ∃ c', c.prev s p.root = .ok c' ∧ p.places[(n + p.count) % (p.count + 1)]? = some c' ∧
    c'.next s p.root = .ok c
  /-- The number of the place is told at a node, but not at the ghost. -/
  index : c.index s = .ok (if n < p.count then some n else none)
  entry : c.entry s = .ok p.bare.entries[n]?
  /-- The moves to the children lead to them, and from there the move to the parent leads back. -/
  child (side : Side) : ∃ target, c.child? s side = .ok target ∧
    (∀ c' ∈ target, p.Admits c' ∧ c'.parent? = some c) ∧
    ∀ l d r, Way p c (.node l d r) → target = (side.pick l r).root.map (· :: c)
  /-- Looking round shows what the moves would lead to. -/
  peek : ∃ x, c.neighbours s p.root = .ok x ∧ Sees s (some <$> c.next s p.root) x.next ∧
    Sees s (some <$> c.prev s p.root) x.prev ∧ Sees s (.ok c.parent?) x.parent ∧
    Sees s (c.child? s .left) x.left ∧ Sees s (c.child? s .right) x.right ∧
    ∃ e, c.entry s = .ok e ∧ x.value = e.map (·.2)
  /-- What is below the node is one block of the entries, around its own; nothing is below the
  ghost. -/
  block : ∃ k size w, c.subtreeSize s = .ok size ∧ c.below s = .ok w ∧
    Traversal.Spans p w ((p.bare.entries.drop k).take size) ∧ (c = [] → size = 0) ∧
    ∀ q, Way p c q → size = q.count ∧ k ≤ n ∧ n < k + size ∧
      (p.bare.entries.drop k).take size = q.bare.entries

end Cursor

variable [Ord K] [TransOrd K] {aug : Augment K V T}

/-- The ghost has no entry and nothing below it; at a node there is its entry, and below it the
block. -/
theorem Tree.Admits.exists_block (hs : s.Sound cfg F) (hp : s.Unfolds p)
    (hord : Orderly aug p.bare) (h : p.Admits c) {n : Nat}
    (hindex : c.index s = .ok (if n < p.count then some n else none)) :
    c.entry s = .ok p.bare.entries[n]? ∧
      ∃ k size w, c.subtreeSize s = .ok size ∧ c.below s = .ok w ∧
        Traversal.Spans p w ((p.bare.entries.drop k).take size) ∧ (c = [] → size = 0) ∧
        ∀ q, Way p c q → size = q.count ∧ k ≤ n ∧ n < k + size ∧
          (p.bare.entries.drop k).take size = q.bare.entries := by
  rcases h with rfl | ⟨q, h⟩
  -- The ghost: its index is none, so `n` is past the end.
  · have hout : ¬ n < p.count := by
      intro hlt
      rw [if_pos hlt] at hindex
      cases hindex
    have hnone : p.bare.entries[n]? = none := by
      rw [List.getElem?_eq_none_iff, length_entries, count_bare]
      exact Nat.le_of_not_lt hout
    obtain ⟨w, hw, hspans⟩ := Traversal.full_spans hs hp (Store.unfolds_absent (s := s))
      (List.nil_subset _) rfl
    refine ⟨by rw [hnone]; rfl, 0, 0, w, rfl, hw, hspans, fun _ => rfl, fun q hq => ?_⟩
    obtain ⟨_, _, _, _, _, -, heq⟩ := hq.exists_cons
    cases heq
  · obtain ⟨k, m, hblock, hle, hlt, hindex', hentry⟩ := h.block hs hp hord
    -- A node has one index, and the block below it starts `k` entries into the tree.
    obtain rfl : n = m := by
      rw [hindex'] at hindex
      by_cases hn : n < p.count
      · rw [if_pos hn] at hindex
        exact (Option.some.inj (Except.ok.inj hindex)).symm
      · rw [if_neg hn] at hindex
        cases hindex
    obtain ⟨hunf, hordq⟩ := h.inherits (P := fun q => s.Unfolds q ∧ Orderly aug q.bare)
      kept_orderly_children ⟨hp, hord⟩
    obtain ⟨w, hw, hspans⟩ := Cursor.below_spans hs hp hord h
    refine ⟨hentry, k, q.count, w, ?_, hw, hblock ▸ hspans, fun hnil => ?_, fun q' hq' => ?_⟩
    · rw [Cursor.subtreeSize_spec hunf h.current_eq, hordq.size_toNat hs hunf]
    · obtain ⟨_, _, _, _, _, -, rfl⟩ := h.exists_cons
      cases hnil
    · obtain rfl := Store.unfolds_unique hunf (hq'.unfolds hp)
        (h.current_eq.symm.trans hq'.current_eq)
      exact ⟨rfl, hle, hlt, hblock⟩

/-- Wherever a cursor is in an orderly tree, it knows its way. -/
theorem Tree.Admits.exists_oriented (hs : s.Sound cfg F) (hp : s.Unfolds p)
    (hord : Orderly aug p.bare) (h : p.Admits c) : ∃ n, Cursor.Oriented s p c n := by
  obtain ⟨n, hplace, hstep, hindex⟩ := h.exists_place hs hp hord
  obtain ⟨c₁, hnext, hplace₁⟩ := hstep .right
  obtain ⟨c₂, hprev, hplace₂⟩ := hstep .left
  obtain ⟨hentry, hblock⟩ := h.exists_block hs hp hord hindex
  refine ⟨n, hplace, ⟨c₁, hnext, hplace₁, Cursor.advance_flip .right hs hp hord h hnext⟩,
    ⟨c₂, hprev, hplace₂, Cursor.advance_flip .left hs hp hord h hprev⟩, hindex, hentry,
    fun side => ?_, Cursor.neighbours_spec hs hp h, hblock⟩
  obtain ⟨target, htarget, hadmits⟩ := Cursor.child_admits side hp h
  refine ⟨target, htarget, ?_, fun l d r hway =>
    Except.ok.inj (htarget.symm.trans (Cursor.child?_spec side hp hway))⟩
  rintro c' rfl
  exact ⟨hadmits c' rfl, Cursor.parent?_of_child? htarget⟩

end

namespace Session

section

variable [Ord K] [TransOrd K] [Ord Q] [KeyView K Q] {sort : List (K × V) → List (K × V)}
  {aug : Augment K V T} {s : Session K V T} {t : Snapshot}

/-- In every session that a run reaches a cursor can be started in the tree of any handle, and moved
at will, also with commands in between.  It is at the ghost then or at the end of a way from the
root, and there it tells what it should and every move leads where it should. -/
theorem navigation_exact {configs : List Config} (h : s.Reached Q sort aug configs)
    (ht : t ∈ s.handles) :
    ∃ f p, s.forests[t.forest]? = some f ∧ p.root = t.root ∧ f.store.Unfolds p ∧
      f.entries t = .ok p.bare.entries ∧
      (∀ origin : TourStart Q, ∃ c, Cursor.start f.store t.root origin = .ok c ∧
        Pointing Q sort aug configs s t c) ∧
      ∀ c, Pointing Q sort aug configs s t c → p.Admits c ∧
        (∀ version (m : Move Q), ∃ x, c.move f.store t.root version m = .ok x ∧
          Pointing Q sort aug configs s t x.2) ∧
        ∃ n, Cursor.Oriented f.store p c n := by
  obtain ⟨x, hx⟩ := exists_holder h.tidy_true ht
  obtain ⟨f, cfg, F, p, hf, hroot, hsound, hunf, hord⟩ := h.exists_orderly hx
  refine ⟨f, p, hf, hroot, hunf, ?_, fun origin => ?_, fun c hc => ?_⟩
  · exact Forest.entries_spec hsound hunf hord hroot
  · obtain ⟨c, hc, -⟩ := Cursor.start_spec hsound hunf origin
    rw [hroot] at hc
    exact ⟨c, hc, .start h ht hf hc⟩
  · have hadmits : p.Admits c := by
      obtain ⟨p', ⟨f', hf', hroot', hunf'⟩, hadmits⟩ := hc.stands.place
      obtain rfl := Option.some.inj (hf.symm.trans hf')
      obtain rfl := Store.unfolds_unique hunf hunf' (hroot.trans hroot'.symm)
      exact hadmits
    refine ⟨hadmits, fun version m => ?_, hadmits.exists_oriented hsound hunf hord⟩
    obtain ⟨x, hx, -⟩ := Cursor.move_spec hsound hunf hadmits version m
    rw [hroot] at hx
    exact ⟨x, hx, .move hc hf hx⟩

end

/-- At the last node of a tree of two. -/
theorem navigation_exact_shortRun : ∃ f p, shortRun.forests[0]? = some f ∧ p.root = some 3 ∧
    f.store.Unfolds p ∧ f.entries ⟨0, some 3, 2⟩ = .ok p.bare.entries ∧
    ∃ c, Cursor.start f.store (some 3) (.back : TourStart Nat) = .ok c ∧ p.Admits c ∧
      ∃ n, Cursor.Oriented f.store p c n := by
  obtain ⟨f, p, hf, hroot, hunf, hes, hstart, hpoint⟩ := navigation_exact (t := ⟨0, some 3, 2⟩)
    reached_shortRun (by decide +kernel)
  obtain ⟨c, hc, hpointing⟩ := hstart .back
  obtain ⟨hadmits, -, horiented⟩ := hpoint c hpointing
  exact ⟨f, p, hf, hroot, hunf, hes, c, hc, hadmits, horiented⟩

end Session

end SharedForest

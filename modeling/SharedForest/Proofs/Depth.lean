/-
How deep a tree is.

A tree of a given height has at least as many nodes as a full tree of that height, because the
black nodes alone make one up, and no way in it is more than twice as long, because red nodes are
never below each other.  So its depth is at most twice the logarithm of the number of its entries,
by whatever splits, joins, unions and bulk builds it has come about.

What is kept while going through a tree is bounded by the depth.  A cursor is a way, so that is
plain for cursors (`Tree.Admits.length_le`).  A traversal keeps two stacks, and from these nodes
are taken off in the middle of a way; so a stack is not a way, but it is part of one, from which
some nodes were left out (`Traversal.Climbs`).  This holds at the start of a traversal, and taking
a node keeps it: the node on top ends a way, and what is pushed prolongs that.
-/
import SharedForest.Proofs.Joining
import SharedForest.Proofs.Iterators
import SharedForest.Proofs.Safety

set_option autoImplicit false

namespace SharedForest

open Tree Std

variable {K Q V T ν : Type}

/-! ## The length of ways -/

section

variable {p q : Placed ν} {c above : Cursor} {i : Nat}

/-- The way down and what is left below make no more than the depth of the tree. -/
theorem Way.length_add_depth (h : Way p c q) : c.length + q.depth ≤ p.depth + 1 := by
  induction h with
  | root h => exact Nat.le_of_eq (Nat.add_comm 1 _)
  | @child l r i j d c side up h ih =>
    have hpick : (side.pick l r).depth ≤ max l.depth r.depth := by
      cases side
      · exact le_max_left _ _
      · exact le_max_right _ _
    rw [depth] at ih
    rw [List.length_cons]
    omega

/-- Nowhere in a tree is a cursor longer than the tree is deep. -/
theorem Tree.Admits.length_le (h : p.Admits c) : c.length ≤ p.depth := by
  rcases h with rfl | ⟨q, h⟩
  · exact Nat.zero_le _
  · obtain ⟨l, i, d, r, above, rfl, -⟩ := h.exists_cons
    have := h.length_add_depth
    rw [depth] at this
    omega

/-- Above each of its nodes a way is a way to that node. -/
theorem Way.suffix {below : Cursor} (h : Way p (below ++ i :: above) q) :
    ∃ q', Way p (i :: above) q' := by
  induction below generalizing q with
  | nil => exact ⟨q, h⟩
  | cons j below ih =>
    obtain ⟨k, rest, hrest⟩ := List.exists_cons_of_ne_nil
      (List.append_ne_nil_of_right_ne_nil below (List.cons_ne_nil i above))
    rw [List.cons_append, hrest] at h
    obtain ⟨q', hq'⟩ := h.parent
    exact ih (hrest ▸ hq')

/-- What is above a node is a way, or there is nothing. -/
theorem Way.admits_above (h : Way p (i :: above) q) : p.Admits above := by
  cases above with
  | nil => exact admits_nil
  | cons j above => exact h.parent.elim fun _ hq' => hq'.admits

/-- The rest of a way leads into the subtree at its end. -/
theorem Way.into (h : Way p (i :: above) q) : WayInto p above q := by
  intro j hj
  obtain rfl : i = j := Option.some.inj (h.current_eq.trans hj)
  exact h

/-- A subtree has no slots but those of the tree. -/
theorem Way.slots_subset (h : Way p c q) : q.slots ⊆ p.slots :=
  h.inherits (P := fun q => q.slots ⊆ p.slots)
    (fun l d r h => by
      obtain ⟨i, d⟩ := d
      exact ⟨fun j hj => h (mem_slots_node.2 (.inl hj)),
        fun j hj => h (mem_slots_node.2 (.inr (.inr hj)))⟩) fun _ hj => hj

end

/-! ## Stacks along a way -/

namespace Traversal

section

variable {p q : Placed ν} {w : Traversal} {c : Cursor}

/-- The nodes on each stack are nodes of one way, the one that is furthest down on top. -/
def Climbs (p : Placed ν) (w : Traversal) : Prop :=
  ∀ side : Side, ∃ c, p.Admits c ∧ (side.pick w.front w.back).Sublist c

/-- Neither stack is longer than the tree is deep. -/
theorem Climbs.length_le (h : w.Climbs p) :
    w.front.length ≤ p.depth ∧ w.back.length ≤ p.depth := by
  have hside : ∀ side : Side, (side.pick w.front w.back).length ≤ p.depth := fun side => by
    obtain ⟨c, hc, hsub⟩ := h side
    exact hsub.length_le.trans hc.length_le
  exact ⟨hside .left, hside .right⟩

/-- What is pushed at the start goes down one side of the tree from a place in it. -/
theorem climbs_spines (hq : WayInto p c q) (hc : p.Admits c) (n : Nat) :
    Climbs p ⟨q.spine .left, q.spine .right, n⟩ := by
  rintro (_ | _)
  · exact ⟨_, hq.admits_spine .left hc, List.sublist_append_left _ _⟩
  · exact ⟨_, hq.admits_spine .right hc, List.sublist_append_left _ _⟩

end

variable {s : NodeStore K V T} {cfg : Config} {F : Multiset (Placed (Node K V T))}
  {p : Placed (Node K V T)} {c : Cursor}

/-- The node that is taken ends a way, and the way down from its far child prolongs that. -/
theorem steady_climbs (hs : s.Sound cfg F) (hp : s.Unfolds p) : Steady s p (Climbs p) := by
  refine steady_of_push fun side t i rest h hstack => ?_
  obtain ⟨c, hc, hsub⟩ := h side
  rw [hstack] at hsub
  obtain ⟨down, up, rfl, hi, hrest⟩ := List.cons_sublist_iff.1 hsub
  obtain ⟨below, above, rfl⟩ := List.append_of_mem hi
  rw [List.append_assoc, List.cons_append] at hc
  obtain ⟨q, hway⟩ : ∃ q, Way p (i :: (above ++ up)) q := by
    rcases hc with hnil | ⟨q, hway⟩
    · simp at hnil
    · exact hway.suffix
  obtain ⟨l, j, d, r, _, rfl, heq⟩ := hway.exists_cons
  obtain ⟨rfl, -⟩ := List.cons.inj heq
  have hq := hway.unfolds hp
  have hinto : WayInto p (i :: (above ++ up)) (side.flip.pick l r) :=
    fun _ hj => .child side.flip hway hj
  refine ⟨_, (side.flip.pick l r).spine side ++ rest, Store.read_of_unfolds hq, ?_,
    hway.slots_subset (mem_slots_of_root rfl), ?_⟩
  · rw [child_eq_root]
    exact Cursor.descend_spec side hs (hq.2.1.pick hq.2.2) rest
  · have hnew : ((side.flip.pick l r).spine side ++ rest).Sublist
        ((side.flip.pick l r).spine side ++ (i :: (above ++ up))) :=
      (((hrest.trans (List.sublist_append_right _ _)).cons _).append_left _)
    have hadmits := hinto.admits_spine side hway.admits
    -- The other stack is left alone.
    intro side'
    have hother := h side'
    cases side <;> cases side'
    · exact ⟨_, hadmits, hnew⟩
    · exact hother
    · exact hother
    · exact ⟨_, hadmits, hnew⟩

/-- A walk down the tree that keeps some of the nodes it passes keeps nodes of one way. -/
theorem walk_climbs (visit : Nat → Cell (Node K V T) → List Nat → List Nat × Option Nat)
    (hvisit : ∀ (l r : Placed (Node K V T)) i d stack, ∃ side : Side, ∃ stack',
      visit i ⟨l.root, r.root, d⟩ stack = (stack', (side.pick l r).root) ∧
      (stack' = stack ∨ stack' = i :: stack))
    (hs : s.Sound cfg F) (hp : s.Unfolds p) :
    ∃ stack, s.walk visit [] p.root = .ok stack ∧ ∃ c, p.Admits c ∧ stack.Sublist c := by
  rw [Store.walk]
  suffices hwalk : ∃ stack, s.walkFor _ _ [] p.root = .ok stack ∧
      ∃ c, WayInto p c .absent ∧ p.Admits c ∧ stack.Sublist c by
    obtain ⟨stack, hrun, c, -, hc, hsub⟩ := hwalk
    exact ⟨stack, hrun, c, hc, hsub⟩
  refine Store.walkFor_keeps _ (fun q stack => ∃ c, WayInto p c q ∧ p.Admits c ∧ stack.Sublist c)
    ?_ [] ⟨[], wayInto_root, admits_nil, .slnil⟩ hp (Nat.le_of_lt (hs.depth_lt hp))
  rintro l i d r stack ⟨c, hway, -, hsub⟩
  obtain ⟨side, stack', heq, hstack⟩ := hvisit l r i d stack
  refine ⟨side.pick l r, stack', by cases side <;> simp, by rw [heq], i :: c, hway.pick side,
    hway.admits, ?_⟩
  rcases hstack with rfl | rfl
  · exact hsub.cons i
  · exact hsub.cons_cons i

variable [Ord Q] [KeyView K Q]

/-- A traversal of a range begins so. -/
theorem range_climbs (hs : s.Sound cfg F) (hp : s.Unfolds p) (start stop : Bound Q) :
    ∃ w, range s p.root start stop = .ok w ∧ w.Climbs p := by
  obtain ⟨front, hfront, hclimbs⟩ := walk_climbs (fun i c stack =>
      if start.keyBelow c.data.key then (stack, c.right) else (i :: stack, c.left))
    (fun l r i d stack => by
      dsimp only
      split
      · exact ⟨.right, stack, rfl, .inl rfl⟩
      · exact ⟨.left, i :: stack, rfl, .inr rfl⟩) hs hp
  obtain ⟨back, hback, hclimbs'⟩ := walk_climbs (fun i c stack =>
      if stop.keyWithin c.data.key then (i :: stack, c.right) else (stack, c.left))
    (fun l r i d stack => by
      dsimp only
      split
      · exact ⟨.right, i :: stack, rfl, .inr rfl⟩
      · exact ⟨.left, stack, rfl, .inl rfl⟩) hs hp
  obtain ⟨skipped, hskipped⟩ := Subtree.countWhile_ok hs hp start.keyBelow
  obtain ⟨taken, htaken⟩ := Subtree.countWhile_ok hs hp stop.keyWithin
  rw [range, bind_of_eq_ok hfront, bind_of_eq_ok hback, bind_of_eq_ok hskipped,
    bind_of_eq_ok htaken]
  refine ⟨_, rfl, ?_⟩
  rintro (_ | _)
  · exact hclimbs
  · exact hclimbs'

/-- So does one that begins below a cursor. -/
theorem below_climbs (hs : s.Sound cfg F) (hp : s.Unfolds p) (h : p.Admits c) :
    ∃ w, c.below s = .ok w ∧ w.Climbs p := by
  rcases h with rfl | ⟨q, h⟩
  · exact ⟨_, full_eq hs (Store.unfolds_absent (s := s)), climbs_spines wayInto_absent admits_nil _⟩
  · obtain ⟨l, i, d, r, above, rfl, rfl⟩ := h.exists_cons
    exact ⟨_, full_eq hs (h.unfolds hp), climbs_spines h.into h.admits_above _⟩

/-- However a traversal was started and used, its stacks hold parts of ways. -/
theorem climbs_invariant : Invariant Q fun (p : Placed (Node K V T)) w => w.Climbs p where
  full hs hp := ⟨_, full_eq hs hp, climbs_spines wayInto_root admits_nil _⟩
  range := range_climbs
  below := below_climbs
  steady := steady_climbs

end Traversal

/-! ## Depth and number of entries -/

theorem Tree.depth_bare (p : Placed ν) : p.bare.depth = p.depth := depth_map _ p

namespace Tree.Balanced

variable {aug : Augment K V T} {p : Placed (Node K V T)} {h n : Nat}

/-- A balanced tree is at most twice as deep as it is high, it has the places of a full tree of its
height, and no height only if it is empty. -/
theorem level_spec (hb : Balanced aug p.bare) (hlev : Level p.bare h) :
    p.depth ≤ 2 * h ∧ 2 ^ h ≤ p.count + 1 ∧ (1 ≤ p.count → h ≠ 0) := by
  have hdepth := (depth_le_level hlev).2 hb.black
  have hplaces := two_pow_level_le hlev
  have hcount := count_lt_two_pow_depth p.bare
  rw [depth_bare] at hdepth hcount
  rw [count_bare] at hplaces hcount
  refine ⟨hdepth, hplaces, ?_⟩
  rintro hpos rfl
  rw [Nat.le_zero.1 hdepth] at hcount
  omega

/-- A tree that is `n` nodes deep or deeper has so many places that their square is no less than
`2 ^ n`. -/
theorem two_pow_le (hb : Balanced aug p.bare) (hn : n ≤ p.depth) :
    2 ^ n ≤ (p.count + 1) ^ 2 := by
  obtain ⟨h, hlev⟩ := hb.level
  obtain ⟨hdepth, hplaces, -⟩ := hb.level_spec hlev
  calc 2 ^ n ≤ 2 ^ (h * 2) := Nat.pow_le_pow_right (by decide) (by omega)
    _ = (2 ^ h) ^ 2 := Nat.pow_mul 2 h 2
    _ ≤ (p.count + 1) ^ 2 := Nat.pow_le_pow_left hplaces 2

/-- A balanced tree is at most twice as deep as a full tree with as many entries. -/
theorem depth_le (hb : Balanced aug p.bare) : p.depth ≤ 2 * (p.count + 1).log2 := by
  obtain ⟨h, hlev⟩ := hb.level
  obtain ⟨hdepth, hplaces, -⟩ := hb.level_spec hlev
  have hlog : h ≤ (p.count + 1).log2 := (Nat.le_log2 (Nat.succ_ne_zero p.count)).2 hplaces
  omega

end Tree.Balanced

namespace Session

section

variable [Ord K] [TransOrd K] [Ord Q] [KeyView K Q] {sort : List (K × V) → List (K × V)}
  {aug : Augment K V T} {s : Session K V T} {t : Snapshot}

/-- In every session that a run reaches the depth of a tree is logarithmic in the number of its
entries.  It has at least as many as the height that its handle tells allows, a cursor is nowhere
further from the root than twice that height, and neither a cursor nor a traversal, whether of the
tree, of a range of it or of what is below a cursor, and whether it is used beside the session or
is one of its walks, ever keeps more nodes than twice the logarithm. -/
theorem depth_logarithmic {configs : List Config} (h : s.Reached Q sort aug configs)
    (ht : t ∈ s.handles) :
    ∃ f len height, s.forests[t.forest]? = some f ∧ f.size t = .ok len ∧
      f.blackHeight t = .ok height ∧
      (1 ≤ len → 2 ^ (height + 1) - 1 ≤ len) ∧
      (∀ c, Pointing Q sort aug configs s t c → c.length ≤ 2 * (len + 1).log2 ∧
        ∀ d, c.depth = some d → d + 1 ≤ 2 * (height + 1) ∧ 2 ^ (d + 1) ≤ (len + 1) ^ 2) ∧
      (∀ w, Iterating Q sort aug configs s t w →
        w.front.length ≤ 2 * (len + 1).log2 ∧ w.back.length ≤ 2 * (len + 1).log2) ∧
      ∀ name w, s.walks.get? name = some w → w.tree = t →
        w.position.front.length ≤ 2 * (len + 1).log2 ∧
          w.position.back.length ≤ 2 * (len + 1).log2 := by
  obtain ⟨f, cfg, F, p, hf, hsound, hunf, hroot, hbalanced, hinc⟩ :=
    (h.stands_as (closed_valid aug) ht).place.view h.tidy_true
  obtain ⟨level, hlev⟩ := hbalanced.level
  obtain ⟨hdepth, hplaces, hheight⟩ := hbalanced.level_spec hlev
  -- A tree has at least `2 ^ level - 1` entries, so its level can be told in a word.
  have hlt : level < 4294967296 :=
    Nat.lt_of_lt_of_le Nat.lt_two_pow_self
      (hplaces.trans (Store.count_lt_of_unfolds hsound hunf hinc))
  have hstacks : ∀ w : Traversal, w.Climbs p →
      w.front.length ≤ 2 * (p.count + 1).log2 ∧ w.back.length ≤ 2 * (p.count + 1).log2 :=
    fun w hw => ⟨hw.length_le.1.trans hbalanced.depth_le,
      hw.length_le.2.trans hbalanced.depth_le⟩
  refine ⟨f, p.count, level - 1, hf,
    Forest.size_spec ⟨hbalanced.cached, hinc⟩ hsound hunf hroot,
    Forest.blackHeight_eq hunf hroot hbalanced hlev hlt, fun hpos => ?_, fun c hc => ?_,
    fun w hw => ?_, ?_⟩
  · rw [Nat.sub_add_cancel (Nat.pos_of_ne_zero (hheight hpos))]
    omega
  · have hlen := (hc.stands.place.holds hf hroot hunf).length_le
    refine ⟨hlen.trans hbalanced.depth_le, fun d hd => ?_⟩
    cases c with
    | nil => cases hd
    | cons i above =>
      obtain rfl : above.length = d := Option.some.inj hd
      rw [List.length_cons] at hlen
      exact ⟨by omega, hbalanced.two_pow_le hlen⟩
  · exact hstacks w ((hw.keeps Traversal.climbs_invariant).place.holds hf hroot hunf)
  · rintro name w hw rfl
    exact hstacks _ ((h.walksBy Traversal.climbs_invariant name w hw).holds hf hroot hunf)

end

/-- The walk that goes on after every name of its tree is gone, and a cursor at the last entry. -/
theorem depth_logarithmic_stroll : ∃ f len height w, stroll.forests[0]? = some f ∧
    f.size ⟨0, some 3, 2⟩ = .ok len ∧ f.blackHeight ⟨0, some 3, 2⟩ = .ok height ∧
    stroll.walks.get? "w" = some w ∧ w.position.front.length ≤ 2 * (len + 1).log2 ∧
    Cursor.start f.store (some 3) (.atKey 2) = .ok [2, 3] ∧ 1 + 1 ≤ 2 * (height + 1) := by
  have hreached : stroll.Reached Nat Forest.sortByKey .sum [{ reclamation := .deferred 2 }] :=
    ⟨by decide +kernel, _, rfl⟩
  have hheld : (⟨0, some 3, 2⟩ : Snapshot) ∈ stroll.handles := by decide +kernel
  obtain ⟨f, len, height, hf, hsize, hheight, -, hcursor, -, hwalk⟩ :=
    depth_logarithmic hreached hheld
  obtain ⟨w, hw⟩ : ∃ w, stroll.walks.get? "w" = some w :=
    Option.isSome_iff_exists.1 (by decide +kernel)
  have htree : ∀ w ∈ stroll.walks.get? "w", w.tree = ⟨0, some 3, 2⟩ := by decide +kernel
  have hall : ∀ f ∈ stroll.forests[0]?,
      Cursor.start f.store (some 3) (.atKey 2) = .ok [2, 3] := by decide +kernel
  have hstart := hall f hf
  exact ⟨f, len, height, w, hf, hsize, hheight, hw, (hwalk "w" w hw (htree w hw)).1, hstart,
    ((hcursor _ (.start hreached hheld hf hstart)).2 1 rfl).1⟩

end Session

end SharedForest

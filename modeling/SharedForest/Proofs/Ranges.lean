/-
Traversals of a range.

Three things are set up apart for a range: a stack of what is not below the start, a stack of
what does not lie beyond the stop, and the difference of two counts.  All three cut the same
list of nodes.  Where keys are in order, the ones below the start are the first so many, and so
are the ones within the stop (`Leading`); one stack stands for the nodes behind the first cut and
the other, the other way round, for those before the second.  What lies between the cuts is what
both stacks start with, and it is as long as the difference tells; if the cuts are the wrong way
round, nothing lies between them and the difference stops at zero.

So a range is a traversal from both ends like any other, and what is known of those is known of
it.
-/
import SharedForest.Proofs.Iterators

set_option autoImplicit false

namespace SharedForest

open Tree Std Traversal

variable {K Q V T α : Type}

/-! ## Bounds -/

namespace Bound

/-- The key satisfies the bound as the lower one. -/
def atLeast [Ord Q] [KeyView K Q] (start : Bound Q) (k : K) : Bool :=
  match start with
  | .included q => (stored k q).isGE
  | .excluded q => (stored k q).isGT
  | .unbounded => true

/-- The key satisfies the bound as the upper one. -/
def atMost [Ord Q] [KeyView K Q] (stop : Bound Q) (k : K) : Bool :=
  match stop with
  | .included q => (stored k q).isLE
  | .excluded q => (stored k q).isLT
  | .unbounded => true

/-- What the bound is set at. -/
def at? : Bound Q → Option Q
  | .included q => some q
  | .excluded q => some q
  | .unbounded => none

end Bound

/-- The entries whose keys satisfy both bounds. -/
def entriesWithin [Ord Q] [KeyView K Q] (start stop : Bound Q) (es : List (K × V)) :
    List (K × V) :=
  es.filter fun e => start.atLeast e.1 && stop.atMost e.1

/-- Seen from one side, `a` comes before `b`. -/
def Side.Before [Ord K] (side : Side) (a b : K) : Prop :=
  compare (side.pick a b) (side.pick b a) = .lt

/-- The predicate holds of the first keys in order, up to some point, and of no others. -/
def Leading [Ord K] (below : K → Bool) : Prop :=
  ∀ a b, compare a b = .lt → below b = true → below a = true

section

variable [Ord Q] [KeyView K Q] (start stop : Bound Q) {es : List (K × V)}

/-- A key satisfies the lower bound unless it is counted as below it. -/
theorem Bound.atLeast_eq (k : K) : start.atLeast k = !start.keyBelow k := by
  cases start with
  | included q => rw [atLeast, keyBelow]; cases stored k q <;> rfl
  | excluded q => rw [atLeast, keyBelow]; cases stored k q <;> rfl
  | unbounded => rfl

theorem Bound.atMost_eq (k : K) : stop.atMost k = stop.keyWithin k := by
  cases stop with
  | included q => rw [atMost, keyWithin]; cases stored k q <;> rfl
  | excluded q => rw [atMost, keyWithin]; cases stored k q <;> rfl
  | unbounded => rfl

/-- The nodes between the cuts have the entries within the bounds. -/
theorem entriesWithin_bare (start stop : Bound Q) (p : Placed (Node K V T)) :
    (p.toList.filter fun x => !start.keyBelow x.2.key && stop.keyWithin x.2.key).map (·.2.entry)
      = entriesWithin start stop p.bare.entries := by
  rw [entriesWithin, Store.entries_bare, List.filter_map]
  refine congrArg _ (List.filter_congr fun x _ => ?_)
  rw [Function.comp_apply, start.atLeast_eq, stop.atMost_eq]
  rfl

/-- No key lies between bounds that are the wrong way round, or meet where one of them excludes the
key. -/
theorem entriesWithin_eq_nil [TransOrd Q] {a b : Q} (ha : start.at? = some a)
    (hb : stop.at? = some b) (hab : compare b a = .lt ∨
      compare b a = .eq ∧ (start = .excluded a ∨ stop = .excluded b)) :
    entriesWithin start stop es = [] := by
  refine List.filter_eq_nil_iff.2 fun e _ hboth => ?_
  obtain ⟨hstart, hstop⟩ := Bool.and_eq_true_iff.1 hboth
  have hge : (stored e.1 a).isGE ∧ (start = .excluded a → stored e.1 a = .gt) := by
    cases start with
    | included q => cases ha; exact ⟨hstart, nofun⟩
    | excluded q =>
      cases ha
      have hgt := Ordering.isGT_iff_eq_gt.1 hstart
      exact ⟨Ordering.isGE_of_eq_gt hgt, fun _ => hgt⟩
    | unbounded => cases ha
  have hle : (stored e.1 b).isLE ∧ (stop = .excluded b → stored e.1 b = .lt) := by
    cases stop with
    | included q => cases hb; exact ⟨hstop, nofun⟩
    | excluded q =>
      cases hb
      have hlt := Ordering.isLT_iff_eq_lt.1 hstop
      exact ⟨Ordering.isLE_of_eq_lt hlt, fun _ => hlt⟩
    | unbounded => cases hb
  have hne : stored e.1 a ≠ .lt := Ordering.isGE_iff_ne_lt.1 hge.1
  rcases hab with hlt | ⟨heq, hstart | hstop⟩
  · exact hne (TransCmp.lt_of_isLE_of_lt hle.1 hlt)
  · have hkey : stored e.1 b = .gt := TransCmp.gt_of_gt_of_eq (hge.2 hstart) (OrientedCmp.eq_symm heq)
    exact Ordering.isLE_iff_ne_gt.1 hle.1 hkey
  · exact hne (TransCmp.lt_of_lt_of_eq (hle.2 hstop) heq)

variable [Ord K] [TransOrd Q] [LawfulView K Q]

/-- What comes before a key that is not above something is below it. -/
theorem stored_lt_of_lt {a b : K} {q : Q} (hab : compare a b = .lt) (hb : stored b q ≠ .gt) :
    stored a q = .lt :=
  TransCmp.lt_of_lt_of_isLE ((LawfulView.compare_view a b).trans hab) (Ordering.isLE_iff_ne_gt.2 hb)

/-- The keys below a start come first. -/
theorem Bound.leading_keyBelow : Leading (start.keyBelow : K → Bool) := by
  intro a b hab hb
  cases start with
  | included q =>
    have hlt : stored b q = .lt := eq_of_beq hb
    rw [keyBelow, stored_lt_of_lt hab (by rw [hlt]; decide)]
    rfl
  | excluded q =>
    rw [keyBelow, stored_lt_of_lt hab (bne_iff_ne.1 hb)]
    rfl
  | unbounded => exact hb

/-- So do the keys within a stop. -/
theorem Bound.leading_keyWithin : Leading (stop.keyWithin : K → Bool) := by
  intro a b hab hb
  cases stop with
  | included q =>
    rw [keyWithin, stored_lt_of_lt hab (bne_iff_ne.1 hb)]
    rfl
  | excluded q =>
    have hlt : stored b q = .lt := eq_of_beq hb
    rw [keyWithin, stored_lt_of_lt hab (by rw [hlt]; decide)]
    rfl
  | unbounded => rfl

end

/-! ## Cuts of a list -/

section

variable {P P' : α → Bool} {x : α} {xs : List α}

/-- A predicate that holds of the first elements only holds of none if it fails for the first. -/
theorem countP_eq_zero_of_head (h : (x :: xs).Pairwise fun a b => P b = true → P a = true)
    (hx : ¬ P x = true) : (x :: xs).countP P = 0 := by
  refine List.countP_eq_zero.2 fun y hy => ?_
  rcases List.mem_cons.1 hy with rfl | hy
  · exact hx
  · exact fun hPy => hx ((List.pairwise_cons.1 h).1 y hy hPy)

/-- What comes first is cut off by its number. -/
theorem filter_eq_take (h : xs.Pairwise fun a b => P b = true → P a = true) :
    xs.filter P = xs.take (xs.countP P) := by
  induction xs with
  | nil => rfl
  | cons x xs ih =>
    by_cases hx : P x = true
    · rw [List.filter_cons_of_pos hx, List.countP_cons_of_pos hx, List.take_succ_cons,
        ih (List.pairwise_cons.1 h).2]
    · have hzero := countP_eq_zero_of_head h hx
      rw [hzero, List.take_zero, ← List.length_eq_zero_iff, ← List.countP_eq_length_filter, hzero]

/-- What is left is the rest. -/
theorem filter_not_eq_drop (h : xs.Pairwise fun a b => P b = true → P a = true) :
    xs.filter (!P ·) = xs.drop (xs.countP P) := by
  induction xs with
  | nil => rfl
  | cons x xs ih =>
    by_cases hx : P x = true
    · rw [List.filter_cons_of_neg (by simp [hx]), List.countP_cons_of_pos hx, List.drop_succ_cons,
        ih (List.pairwise_cons.1 h).2]
    · have hzero := countP_eq_zero_of_head h hx
      rw [hzero, List.drop_zero, List.filter_eq_self]
      intro y hy
      simpa using List.countP_eq_zero.1 hzero y hy

/-- Of the rest, so many fewer come first. -/
theorem countP_drop (n : Nat) (h : xs.Pairwise fun a b => P b = true → P a = true) :
    (xs.drop n).countP P = xs.countP P - n := by
  induction xs generalizing n with
  | nil => rw [List.drop_nil, List.countP_nil, Nat.zero_sub]
  | cons x xs ih =>
    cases n with
    | zero => rfl
    | succ n =>
      rw [List.drop_succ_cons, ih n (List.pairwise_cons.1 h).2]
      by_cases hx : P x = true
      · rw [List.countP_cons_of_pos hx, Nat.add_sub_add_right]
      · have hzero := countP_eq_zero_of_head h hx
        rw [List.countP_cons_of_neg hx] at hzero
        rw [List.countP_cons_of_neg hx, hzero, Nat.zero_sub, Nat.zero_sub]

/-- What lies between two cuts starts what comes after the first, ends what comes before the second,
and is as long as the cuts are apart. -/
theorem filter_between (P P' : α → Bool)
    (h : xs.Pairwise fun a b => P b = true → P a = true)
    (h' : xs.Pairwise fun a b => P' b = true → P' a = true) :
    (∃ rest, xs.filter (!P ·) = (xs.filter fun x => !P x && P' x) ++ rest) ∧
      (∃ rest, xs.filter P' = rest ++ xs.filter fun x => !P x && P' x) ∧
      (xs.filter fun x => !P x && P' x).length = xs.countP P' - xs.countP P := by
  have hfront : (xs.filter fun x => !P x && P' x) = (xs.filter (!P ·)).filter P' := by
    rw [List.filter_filter]
    exact List.filter_congr fun x _ => Bool.and_comm _ _
  have hback : (xs.filter fun x => !P x && P' x) = (xs.filter P').filter (!P ·) := by
    rw [List.filter_filter]
  refine ⟨?_, ?_, ?_⟩
  · rw [hfront, filter_eq_take (h'.sublist List.filter_sublist)]
    exact ⟨_, (List.take_append_drop _ _).symm⟩
  · rw [hback, filter_not_eq_drop (h.sublist List.filter_sublist)]
    exact ⟨_, (List.take_append_drop _ _).symm⟩
  · rw [hfront, filter_not_eq_drop h, ← List.countP_eq_length_filter, countP_drop _ h']

end

/-! ## The way down to a bound -/

section

variable [Ord K] [TransOrd K] {aug : Augment K V T} {s : NodeStore K V T} {cfg : Config}
  {F : Multiset (Placed (Node K V T))} {p l r : Placed (Node K V T)} {i : Nat} {d : Node K V T}
  {below : K → Bool}

/-- On either side of a node in order there are the keys that belong there. -/
theorem Tree.keys_apart (h : Increasing (node l (i, d) r).bare.entries) :
    (∀ x ∈ l.toList, compare x.2.key d.key = .lt) ∧
      ∀ x ∈ r.toList, compare d.key x.2.key = .lt := by
  rw [bare_node] at h
  obtain ⟨-, -, hl, hr⟩ := increasing_node.1 h
  rw [Store.entries_bare] at hl hr
  exact ⟨fun x hx => hl _ (List.mem_map_of_mem hx), fun x hx => hr _ (List.mem_map_of_mem hx)⟩

theorem Tree.increasing_pick (side : Side) (h : Increasing (node l (i, d) r).bare.entries) :
    Increasing (side.pick l r).bare.entries := by
  rw [bare_node] at h
  obtain ⟨hl, hr, -, -⟩ := increasing_node.1 h
  cases side
  · exact hl
  · exact hr

/-- Seen from either side, what comes before the root has keys before its key, and what comes behind
it keys behind. -/
theorem Tree.keys_along (side : Side) (h : Increasing (node l (i, d) r).bare.entries) :
    (∀ x ∈ (side.pick l r).along side, side.Before x.2.key d.key) ∧
      ∀ x ∈ (side.flip.pick l r).along side, side.Before d.key x.2.key := by
  obtain ⟨hl, hr⟩ := keys_apart h
  cases side
  · exact ⟨hl, hr⟩
  · exact ⟨fun x hx => hr x (List.mem_reverse.1 hx), fun x hx => hl x (List.mem_reverse.1 hx)⟩

/-- Counting on the way down counts what there is to be counted. -/
theorem Subtree.countWhile_spec (hs : s.Sound cfg F) (hp : s.Unfolds p)
    (hord : Orderly aug p.bare) (hbelow : Leading below) :
    Subtree.countWhile s p.root below = .ok (p.toList.countP (below ·.2.key)) := by
  suffices hend : ∃ n, Subtree.countWhile s p.root below = .ok n ∧
      n = p.toList.countP (below ·.2.key) by
    obtain ⟨n, hwalk, rfl⟩ := hend
    exact hwalk
  -- What was counted and what there is in the rest make up the whole.
  refine (Store.walkFor_keeps _ (fun q n => (s.Unfolds q ∧ Orderly aug q.bare) ∧
      n + q.toList.countP (below ·.2.key) = p.toList.countP (below ·.2.key)) ?_ 0
    ⟨⟨hp, hord⟩, Nat.zero_add _⟩ hp (Nat.le_of_lt (hs.depth_lt hp))).imp
    fun n hn => ⟨hn.1, hn.2.2⟩
  rintro l i d r n ⟨hq, hcount⟩
  obtain ⟨⟨hl, hordl⟩, hr⟩ := kept_orderly_children l (i, d) r hq
  obtain ⟨hkeysl, hkeysr⟩ := keys_apart hq.2.increasing
  rw [toList, List.countP_append] at hcount
  dsimp only
  split
  · rename_i hd
    have hall : l.toList.countP (below ·.2.key) = l.count := by
      rw [List.countP_eq_length.2 fun x hx => hbelow _ _ (hkeysl x hx) hd, length_toList]
    rw [hall, List.countP_cons, if_pos hd] at hcount
    refine ⟨r, _, .inr (.inl rfl), bind_of_eq_ok (Subtree.size_spec hl), hr, ?_⟩
    rw [hordl.size_toNat hs hl, ← hcount]
    omega
  · rename_i hd
    have hnone : r.toList.countP (below ·.2.key) = 0 :=
      List.countP_eq_zero.2 fun x hx hbx => hd (hbelow _ _ (hkeysr x hx) hbx)
    rw [List.countP_cons, if_neg hd, hnone] at hcount
    exact ⟨l, _, .inl rfl, rfl, ⟨hl, hordl⟩, hcount⟩

/-- Going down towards a bound, one leaves on the stack what stands for everything inside, if with a
key all those are inside that come after it. -/
theorem Store.walk_inside (side : Side) (inside : K → Bool)
    (visit : Nat → Cell (Node K V T) → List Nat → List Nat × Option Nat)
    (hs : s.Sound cfg F) (hp : s.Unfolds p) (hinc : Increasing p.bare.entries)
    (hinside : ∀ a b, side.Before a b → inside a = true → inside b = true)
    (hvisit : ∀ i c stack, visit i c stack = if inside c.data.key = true
      then (i :: stack, c.child side) else (stack, c.child side.flip)) :
    ∃ stack, s.walk visit [] p.root = .ok stack ∧
      Ahead s side stack ((p.along side).filter (inside ·.2.key)) := by
  have hend := Store.walkFor_keeps
    (fun i c stack => .ok (visit i c stack))
    (fun q stack => (s.Unfolds q ∧ Increasing q.bare.entries) ∧ ∃ es, Ahead s side stack es ∧
      (q.along side).filter (inside ·.2.key) ++ es = (p.along side).filter (inside ·.2.key)) ?_ []
    ⟨⟨hp, hinc⟩, [], .nil, List.append_nil _⟩ hp (Nat.le_of_lt (hs.depth_lt hp))
  · obtain ⟨stack, hwalk, -, es, hahead, hes⟩ := hend
    rw [along_absent, List.filter_nil, List.nil_append] at hes
    exact ⟨stack, hwalk, hes ▸ hahead⟩
  · rintro l i d r stack ⟨⟨hq, hinc⟩, es, hahead, hes⟩
    obtain ⟨hnear, hfar⟩ := keys_along side hinc
    have hkept : ∀ side : Side, s.Unfolds (side.pick l r) ∧
        Increasing (side.pick l r).bare.entries :=
      fun side => ⟨hq.2.1.pick hq.2.2, increasing_pick side hinc⟩
    rw [along_node, List.filter_append, List.filter_cons, List.append_assoc] at hes
    rw [hvisit, child_eq_root, child_eq_root]
    split
    · rename_i hd
      -- All that comes after the node is inside with it.
      rw [if_pos hd, List.filter_eq_self.2 fun x hx => hinside _ _ (hfar x hx) hd] at hes
      exact ⟨side.pick l r, _, by cases side <;> simp, rfl, hkept side, _, .cons hq hahead, hes⟩
    · rename_i hd
      rw [if_neg hd, List.filter_eq_nil_iff.2 fun x hx hin => hd (hinside _ _ (hnear x hx) hin),
        List.nil_append] at hes
      exact ⟨side.flip.pick l r, _, by cases side <;> simp, rfl, hkept side.flip, _, hahead, hes⟩

/-! ## Ranges -/

variable [Ord Q] [KeyView K Q] [TransOrd Q] [LawfulView K Q]

/-- Both stacks of a range stand for what lies within the bounds. -/
theorem Traversal.range_both (hs : s.Sound cfg F) (hp : s.Unfolds p) (hord : Orderly aug p.bare)
    (start stop : Bound Q) : ∃ w, range s p.root start stop = .ok w ∧
      Both s w (p.toList.filter fun x => !start.keyBelow x.2.key && stop.keyWithin x.2.key) := by
  have hbelow : Leading (start.keyBelow : K → Bool) := start.leading_keyBelow
  have hwithin : Leading (stop.keyWithin : K → Bool) := stop.leading_keyWithin
  have hnodes : p.toList.Pairwise fun x y => compare x.2.key y.2.key = .lt :=
    Store.pairwise_of_increasing (Store.entries_bare p ▸ hord.increasing)
  -- What is within the bounds is the end of one list and the beginning of another.
  obtain ⟨⟨last, hlast⟩, ⟨first, hfirst⟩, hlen⟩ := filter_between
    (fun x : Nat × Node K V T => start.keyBelow x.2.key) (fun x => stop.keyWithin x.2.key)
    (hnodes.imp fun hlt => hbelow _ _ hlt) (hnodes.imp fun hlt => hwithin _ _ hlt)
  -- One walk down for each of the bounds, which leaves the stack on its side.
  obtain ⟨front, hfront, hahead⟩ := Store.walk_inside .left (!start.keyBelow ·)
    (fun i c stack => if start.keyBelow c.data.key then (stack, c.right) else (i :: stack, c.left))
    hs hp hord.increasing
    (fun a b hab ha => by
      rw [Bool.not_eq_true'] at ha ⊢
      exact Bool.eq_false_iff.2 fun hb => Bool.eq_false_iff.1 ha (hbelow a b hab hb))
    (fun i c stack => by cases start.keyBelow c.data.key <;> rfl)
  obtain ⟨back, hback, hahead'⟩ := Store.walk_inside .right stop.keyWithin
    (fun i c stack => if stop.keyWithin c.data.key then (i :: stack, c.right) else (stack, c.left))
    hs hp hord.increasing (fun a b hab => hwithin b a hab) (fun i c stack => rfl)
  refine ⟨⟨front, back, p.toList.countP (stop.keyWithin ·.2.key)
    - p.toList.countP (start.keyBelow ·.2.key)⟩, ?_, ?_⟩
  · rw [range, bind_of_eq_ok hfront, bind_of_eq_ok hback,
      bind_of_eq_ok (Subtree.countWhile_spec hs hp hord hbelow),
      bind_of_eq_ok (Subtree.countWhile_spec hs hp hord hwithin)]
    rfl
  · rintro (_ | _)
    · refine ⟨hlen.symm, last, ?_⟩
      rw [Side.turn_left, ← hlast]
      exact hahead
    · refine ⟨by rw [Side.length_turn, hlen], first.reverse, ?_⟩
      rw [Side.turn_right, ← List.reverse_append, ← hfirst, ← List.filter_reverse]
      exact hahead'

/-- A range goes through the entries within its bounds. -/
theorem Traversal.range_spans (hs : s.Sound cfg F) (hp : s.Unfolds p) (hord : Orderly aug p.bare)
    (start stop : Bound Q) : ∃ w, range s p.root start stop = .ok w ∧
      Spans p w (entriesWithin start stop p.bare.entries) := by
  obtain ⟨w, hw, hboth⟩ := range_both hs hp hord start stop
  obtain ⟨w', hw', hfits⟩ := range_ok hs hp start stop
  obtain rfl := Except.ok.inj (hw.symm.trans hw')
  rw [← entriesWithin_bare]
  exact ⟨w, hw, spans_of_both hp hfits hboth⟩

end

namespace Session

section

variable [Ord K] [TransOrd K] [Ord Q] [KeyView K Q] [TransOrd Q] [LawfulView K Q]
  {sort : List (K × V) → List (K × V)} {aug : Augment K V T} {s : Session K V T} {t : Snapshot}
  {x : Holder}

/-- In every session that a run reaches an iterator over a range goes through exactly those entries
of the tree that satisfy both bounds, in order and from both ends, and tells how many are left;
bounds between which nothing can lie yield nothing. -/
theorem range_exact {configs : List Config} (h : s.Reached Q sort aug configs)
    (ht : s.holding x = some t) :
    ∃ f es, s.forests[t.forest]? = some f ∧ f.entries t = .ok es ∧ Increasing es ∧
      ∀ start stop : Bound Q,
        (∃ w, f.traverseRange t start stop = .ok w ∧
          Deals Q sort s x t w (entriesWithin start stop es)) ∧
        ∀ a b, start.at? = some a → stop.at? = some b →
          (compare b a = .lt ∨ compare b a = .eq ∧ (start = .excluded a ∨ stop = .excluded b)) →
          entriesWithin start stop es = [] := by
  obtain ⟨f, c, F, p, hf, hroot, hsound, hunf, hord⟩ := h.exists_orderly ht
  refine ⟨f, p.bare.entries, hf, Forest.entries_spec hsound hunf hord hroot, hord.increasing,
    fun start stop => ⟨?_, fun a b ha hb hab => entriesWithin_eq_nil start stop ha hb hab⟩⟩
  obtain ⟨w, hw, hspans⟩ := range_spans hsound hunf hord start stop
  rw [hroot] at hw
  exact ⟨w, hw, deals_of_spans h.tidy_true ht ⟨f, hf, hroot, hunf⟩ hspans⟩

end

/-- Two iterators over the keys from 2 on take turns while the forest goes on. -/
theorem range_exact_shortRun : ∃ f es, shortRun.forests[0]? = some f ∧
    f.entries ⟨0, some 3, 2⟩ = .ok es ∧
    (∃ w, f.traverseRange ⟨0, some 3, 2⟩ (.included 2) .unbounded = .ok w ∧
      watch Forest.sortByKey ⟨0, some 3, 2⟩ turns shortRun [w]
        = some (Beside.told turns [entriesWithin (.included 2) .unbounded es])) ∧
    entriesWithin (.included 2) (.excluded 2) es = [] := by
  obtain ⟨f, es, hf, hes, -, hrange⟩ := range_exact (x := .tree "c") (t := ⟨0, some 3, 2⟩)
    reached_shortRun (by decide +kernel)
  obtain ⟨⟨w, hw, hdeals⟩, -⟩ := hrange (.included 2) .unbounded
  obtain ⟨-, hnone⟩ := hrange (.included 2) (.excluded 2)
  exact ⟨f, es, hf, hes, ⟨w, hw, hdeals turns (by decide +kernel) (by decide +kernel)⟩,
    hnone 2 2 rfl rfl (.inr ⟨rfl, .inr rfl⟩)⟩

end Session

end SharedForest

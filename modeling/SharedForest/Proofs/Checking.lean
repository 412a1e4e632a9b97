/-
What a check is worth.

`Subtree.check` may be given any store: links may dangle, meet, or go round in a circle, counts and
caches may be anything.  Under a lawful order of keys it says exactly whether a flawless tree hangs
at the root (`check_ok_iff`), and it always comes to an end.

Both rest on the bounds that are handed down.  The places whose keys lie strictly between them
are the `room` that is left; the node that has just been checked lies between the bounds and sets
the next ones, so the rooms of its two children have no place in common and the node is in neither
(`room_split`).  A circle therefore runs out of room, and no sum of sizes outgrows the number
of places.

Soundness and completeness are one equivalence: `Measures` says what has been found out about a
tree that passed, and at a node it splits into the checks that are made there and what
they say about the children (`measures_node`).
-/
import SharedForest.Proofs.Order
import SharedForest.Proofs.Reach
import SharedForest.Proofs.Unordered
import SharedForest.Subtree.Check

set_option autoImplicit false

namespace SharedForest

open Tree Std

variable {K V T : Type}

/-! ## Bounds -/

/-- A key lies strictly between the bounds. -/
def Between [Ord K] (lo hi : Option K) (k : K) : Prop :=
  (∀ a ∈ lo, compare a k = .lt) ∧ ∀ b ∈ hi, compare b k = .gt

instance [Ord K] (lo hi : Option K) (k : K) : Decidable (Between lo hi k) :=
  inferInstanceAs (Decidable (_ ∧ _))

/-- Without bounds every key will do. -/
theorem between_none [Ord K] (k : K) : Between none none k := by
  constructor <;> rintro j ⟨⟩

section

variable [Ord K] [TransOrd K] {lo hi : Option K} {j k : K}

/-- What lies below a key that lies between the bounds. -/
theorem between_below (hk : Between lo hi k) :
    Between lo (some k) j ↔ Between lo hi j ∧ compare j k = .lt := by
  constructor
  · rintro ⟨hlo, hj⟩
    have hkj := hj k rfl
    exact ⟨⟨hlo, fun b hb => TransCmp.gt_trans (hk.2 b hb) hkj⟩, OrientedCmp.lt_of_gt hkj⟩
  · rintro ⟨⟨hlo, -⟩, hjk⟩
    refine ⟨hlo, ?_⟩
    rintro b ⟨⟩
    exact OrientedCmp.gt_of_lt hjk

/-- What lies above a key that lies between the bounds. -/
theorem between_above (hk : Between lo hi k) :
    Between (some k) hi j ↔ Between lo hi j ∧ compare k j = .lt := by
  constructor
  · rintro ⟨hj, hhi⟩
    have hkj := hj k rfl
    exact ⟨⟨fun a ha => TransCmp.lt_trans (hk.1 a ha) hkj, hhi⟩, hkj⟩
  · rintro ⟨⟨-, hhi⟩, hkj⟩
    refine ⟨?_, hhi⟩
    rintro a ⟨⟩
    exact hkj

end

namespace Store

variable [Ord K] {s : NodeStore K V T} {lo hi : Option K} {i : Nat} {cell : Cell (Node K V T)}

/-- The live places whose keys lie strictly between the bounds. -/
def room (s : NodeStore K V T) (lo hi : Option K) : Finset Nat :=
  (Finset.range s.table.size).filter fun i =>
    (s.cell? i).any fun cell => Between lo hi cell.data.key

omit [Ord K] in
/-- A live slot has a place in the table. -/
theorem lt_size_of_contains (h : s.contains i) : i < s.table.size := by
  obtain ⟨cell, hcell⟩ := contains_iff_exists.1 h
  obtain ⟨place, hplace, -⟩ := Option.bind_eq_some_iff.1 hcell
  rw [← Table.isSome_get?_iff_lt_size, hplace]
  rfl

/-- A live place is in the room exactly if its key lies between the bounds. -/
theorem mem_room :
    i ∈ s.room lo hi ↔ ∃ cell, s.cell? i = some cell ∧ Between lo hi cell.data.key := by
  rw [room, Finset.mem_filter, Finset.mem_range, Option.any_eq_true]
  simp only [decide_eq_true_eq]
  constructor
  · exact fun h => h.2
  · rintro ⟨cell, hcell, hkey⟩
    exact ⟨lt_size_of_contains (contains_iff_exists.2 ⟨cell, hcell⟩), cell, hcell, hkey⟩

/-- There is never room for more than all places. -/
theorem card_room_le (lo hi : Option K) : (s.room lo hi).card ≤ s.table.size :=
  (Finset.card_filter_le _ _).trans (Finset.card_range _).le

/-- Where all live slots are below `n` there is no room for more than `n`. -/
theorem card_room_le_of_contains {n : Nat} (hn : ∀ i, s.contains i → i < n) (lo hi : Option K) :
    (s.room lo hi).card ≤ n := by
  refine (Finset.card_le_card (t := Finset.range n) fun i hi => ?_).trans (Finset.card_range n).le
  obtain ⟨cell, hcell, -⟩ := mem_room.1 hi
  exact Finset.mem_range.2 (hn i (Store.contains_iff_exists.2 ⟨cell, hcell⟩))

/-- A node between the bounds parts the room that it is in. -/
theorem room_split [TransOrd K] (hcell : s.cell? i = some cell)
    (hkey : Between lo hi cell.data.key) :
    (s.room lo (some cell.data.key)).card + 1 + (s.room (some cell.data.key) hi).card
      ≤ (s.room lo hi).card := by
  set k := cell.data.key
  have hself : compare k k = .eq := ReflOrd.compare_self
  have hbelow : i ∉ s.room lo (some k) := by
    rw [mem_room]
    rintro ⟨c, hc, hbetween⟩
    obtain rfl := Option.some.inj (hcell.symm.trans hc)
    exact absurd (((between_below hkey).1 hbetween).2) (by rw [hself]; decide)
  have habove : i ∉ s.room (some k) hi := by
    rw [mem_room]
    rintro ⟨c, hc, hbetween⟩
    obtain rfl := Option.some.inj (hcell.symm.trans hc)
    exact absurd (((between_above hkey).1 hbetween).2) (by rw [hself]; decide)
  -- No slot is on both sides, since its key would be below and above that of the node.
  have hdisj : Disjoint (s.room lo (some k)) (s.room (some k) hi) := by
    refine Finset.disjoint_left.2 fun j hj hj' => ?_
    obtain ⟨c, hc, hlt⟩ := mem_room.1 hj
    obtain ⟨c', hc', hgt⟩ := mem_room.1 hj'
    obtain rfl := Option.some.inj (hc.symm.trans hc')
    have hlt := ((between_below hkey).1 hlt).2
    rw [OrientedCmp.gt_of_lt ((between_above hkey).1 hgt).2] at hlt
    cases hlt
  have hsub : insert i (s.room lo (some k) ∪ s.room (some k) hi) ⊆ s.room lo hi := by
    intro j hj
    rcases Finset.mem_insert.1 hj with rfl | hj
    · exact mem_room.2 ⟨cell, hcell, hkey⟩
    · rcases Finset.mem_union.1 hj with hj | hj
      · obtain ⟨c, hc, hlt⟩ := mem_room.1 hj
        exact mem_room.2 ⟨c, hc, ((between_below hkey).1 hlt).1⟩
      · obtain ⟨c, hc, hgt⟩ := mem_room.1 hj
        exact mem_room.2 ⟨c, hc, ((between_above hkey).1 hgt).1⟩
  have hcard := Finset.card_le_card hsub
  rw [Finset.card_insert_of_notMem (by simp [hbelow, habove]),
    Finset.card_union_of_disjoint hdisj] at hcard
  omega

end Store

namespace Subtree

/-! ## What is checked at one node -/

section

variable {s : NodeStore K V T} {aug : Augment K V T} {i : Nat} {lo hi : Option K}
  {cell : Cell (Node K V T)} {a b m : Measured}

/-- What the store has at the root of a kept tree. -/
theorem linked_eq {p : Placed (Node K V T)} (hp : s.Unfolds p) :
    linked s p.root = p.bare.data? := by
  cases p with
  | absent => rfl
  | node l d r =>
    obtain ⟨i, d⟩ := d
    rw [linked, root_node, Option.bind_some, hp.1]
    rfl

/-- A check is passed exactly if its condition does not hold and the rest is passed. -/
theorem ite_error_eq_ok_iff {α : Type} {c : Prop} [Decidable c] {d : Defect}
    {x : Except Defect α} {y : α} : (if c then .error d else x) = .ok y ↔ ¬ c ∧ x = .ok y := by
  by_cases hc : c <;> simp [hc]

/-- No bound compares in another way than it should. -/
theorem any_ne_eq_false_iff [Ord K] {bound : Option K} {k : K} {o : Ordering} :
    bound.any (compare · k != o) = false ↔ ∀ a ∈ bound, compare a k = o := by
  cases bound <;> simp

/-- What is checked at a node before its children: count, key, and colors. -/
theorem checkNode_eq_ok_iff [Ord K] : checkNode s i cell lo hi = .ok () ↔
    s.refs i ≠ 0 ∧ Between lo hi cell.data.key ∧
      (cell.data.color = .red → (linked s cell.left).any (·.color == .red) = false ∧
        (linked s cell.right).any (·.color == .red) = false) := by
  simp only [checkNode, defect, bind, Except.bind, pure, Except.pure, ite_error_eq_ok_iff,
    Bool.not_eq_true, Bool.or_eq_false_iff, any_ne_eq_false_iff, Bool.and_eq_false_imp, beq_iff_eq,
    Between, and_true, ne_eq]

/-- What is checked when both children have been measured. -/
theorem checkCaches_eq_ok_iff [BEq T] : checkCaches s aug i cell a b = .ok m ↔
    a.height = b.height ∧ cell.data.height.toNat = a.height + cell.data.color.weight.toNat ∧
      cell.data.size.toNat = 1 + a.size + b.size ∧
      (aug.aggregate ((linked s cell.left).map (·.aggregate)) cell.data.key cell.data.value
        ((linked s cell.right).map (·.aggregate)) == cell.data.aggregate) = true ∧
      ⟨cell.data.height.toNat, 1 + a.size + b.size⟩ = m := by
  simp only [checkCaches, defect, bind, Except.bind, pure, Except.pure, ite_error_eq_ok_iff,
    not_not, bne, Bool.not_eq_true', Bool.not_eq_false, Except.ok.injEq, ne_eq]

end

/-! ## What is known of a tree that passed -/

/-- The caches of a node are right; aggregates are compared as their type has it. -/
def Told [BEq T] (aug : Augment K V T) (l : NodeTree K V T) (d : Node K V T)
    (r : NodeTree K V T) : Prop :=
  (∀ n ∈ (node l d r).blackCounts, d.height.toNat = n) ∧
    d.size.toNat = (node l d r).entries.length ∧
    (aug.aggregate l.aggregate d.key d.value r.aggregate == d.aggregate) = true

/-- The tree `p` hangs in the store, between the bounds and with nothing wrong, and measures `m`. -/
structure Measures [Ord K] [BEq T] (s : NodeStore K V T) (aug : Augment K V T) (lo hi : Option K)
    (p : Placed (Node K V T)) (m : Measured) : Prop where
  unfolds : s.Unfolds p
  counted : ∀ i ∈ p.slots, s.refs i ≠ 0
  level : Level p.bare m.height
  size_eq : p.count = m.size
  increasing : Increasing p.bare.entries
  between : ∀ e ∈ p.bare.entries, Between lo hi e.1
  told : p.bare.Everywhere (Told aug)

section

variable [Ord K] [BEq T] {s : NodeStore K V T} {aug : Augment K V T} {i : Nat} {lo hi : Option K}
  {l r p : Placed (Node K V T)} {d : Node K V T} {m : Measured}

/-- An absent tree has nothing wrong with it. -/
theorem measures_absent : Measures s aug lo hi .absent .absent where
  unfolds := trivial
  counted := by simp
  level := .absent
  size_eq := rfl
  increasing := increasing_nil
  between := by simp
  told := trivial

/-- It measures nothing. -/
theorem measures_absent_iff : Measures s aug lo hi .absent m ↔ m = .absent := by
  constructor
  · intro h
    have hlevel := h.level
    have hsize := h.size_eq
    obtain ⟨height, size⟩ := m
    cases hlevel
    cases hsize
    rfl
  · rintro rfl
    exact measures_absent

/-- A tree passes if its root does and its children do, each within the bounds that are left. -/
theorem measures_node [TransOrd K] : Measures s aug lo hi (node l (i, d) r) m ↔
    s.cell? i = some ⟨l.root, r.root, d⟩ ∧ checkNode s i ⟨l.root, r.root, d⟩ lo hi = .ok () ∧
      ∃ a b, Measures s aug lo (some d.key) l a ∧ Measures s aug (some d.key) hi r b ∧
        checkCaches s aug i ⟨l.root, r.root, d⟩ a b = .ok m := by
  simp only [checkNode_eq_ok_iff, checkCaches_eq_ok_iff]
  constructor
  -- What a good tree is at its root, in the order in which the check looks at it.
  · rintro ⟨⟨hcell, hl, hr⟩, hcounted, hlevel, hsize, hinc, hbetween, htold⟩
    rw [bare_node] at hlevel hinc hbetween htold
    obtain ⟨⟨hheight, hsizes, hagg⟩, htoldl, htoldr⟩ := htold
    obtain ⟨h, hll, hlr, hm, hred⟩ := level_node.1 hlevel
    obtain ⟨hincl, hincr, hld, hdr⟩ := increasing_node.1 hinc
    have hkey := hbetween d.entry (by simp)
    have hheight := hheight _ hlevel.mem_blackCounts
    have hcount : d.size.toNat = 1 + l.count + r.count := by
      rw [hsizes, length_entries, count, count_bare, count_bare]
      omega
    rw [count] at hsize
    refine ⟨hcell, ⟨hcounted i (by simp), hkey, ?_⟩, ⟨h, l.count⟩, ⟨h, r.count⟩, ?_, ?_, rfl, ?_,
      hcount, ?_, ?_⟩
    · rwa [linked_eq hl, linked_eq hr]
    · exact ⟨hl, fun j hj => hcounted j (by simp [hj]), hll, rfl, hincl, fun e he =>
        (between_below hkey).2 ⟨hbetween e (by simp [he]), hld e he⟩, htoldl⟩
    · exact ⟨hr, fun j hj => hcounted j (by simp [hj]), hlr, rfl, hincr, fun e he =>
        (between_above hkey).2 ⟨hbetween e (by simp [he]), hdr e he⟩, htoldr⟩
    · rw [hheight, ← hm]
    · rwa [linked_eq hl, linked_eq hr]
    · rw [hheight, Nat.add_comm 1, hsize]
  -- Both children pass, so what they measure is their height and their count.
  · rintro ⟨hcell, ⟨hrefs, hkey, hred⟩, a, b, hl, hr, heven, hheight, hsize, hagg, rfl⟩
    rw [linked_eq hl.unfolds, linked_eq hr.unfolds] at hred hagg
    have hlevel : Level (node l.bare d r.bare) d.height.toNat :=
      level_node.2 ⟨a.height, hl.level, heven ▸ hr.level, hheight.symm, hred⟩
    have hbelow : ∀ e ∈ l.bare.entries, Between lo hi e.1 ∧ compare e.1 d.key = .lt :=
      fun e he => (between_below hkey).1 (hl.between e he)
    have habove : ∀ e ∈ r.bare.entries, Between lo hi e.1 ∧ compare d.key e.1 = .lt :=
      fun e he => (between_above hkey).1 (hr.between e he)
    have hcount : l.count + 1 + r.count = 1 + a.size + b.size := by
      rw [hl.size_eq, hr.size_eq, Nat.add_comm 1]
    constructor
    case unfolds => exact ⟨hcell, hl.unfolds, hr.unfolds⟩
    case counted =>
      intro j hj
      rcases mem_slots_node.1 hj with hj | rfl | hj
      · exact hl.counted j hj
      · exact hrefs
      · exact hr.counted j hj
    case level => exact hlevel
    case size_eq => exact hcount
    case increasing =>
      exact increasing_node.2 ⟨hl.increasing, hr.increasing, fun e he => (hbelow e he).2,
        fun e he => (habove e he).2⟩
    case between =>
      intro e he
      rw [bare_node, entries_node] at he
      rcases List.mem_append.1 he with he | he
      · exact (hbelow e he).1
      · rcases List.mem_cons.1 he with rfl | he
        · exact hkey
        · exact (habove e he).1
    case told =>
      rw [bare_node]
      refine ⟨⟨fun n hn => (hlevel.blackCounts_eq n hn).symm, ?_, hagg⟩, hl.told, hr.told⟩
      rw [length_entries, count, count_bare, count_bare, hcount, hsize]

/-! ## What is checked below a link -/

/-- Check what hangs at a link. -/
def checkLink (s : NodeStore K V T) (aug : Augment K V T) (steps : Nat) (link : Option Nat)
    (lo hi : Option K) : Except Defect Measured :=
  link.elim (.ok .absent) fun i => checkBelow s aug steps i lo hi

/-- One node, with as many steps left for what is below. -/
theorem checkBelow_succ (steps : Nat) {cell : Cell (Node K V T)} (hcell : s.cell? i = some cell) :
    checkBelow s aug (steps + 1) i lo hi = (do
      checkNode s i cell lo hi
      let a ← checkLink s aug steps cell.left lo (some cell.data.key)
      let b ← checkLink s aug steps cell.right (some cell.data.key) hi
      checkCaches s aug i cell a b) := by
  rw [checkBelow, hcell]
  obtain ⟨left, right, d⟩ := cell
  cases left <;> cases right <;> rfl

variable [TransOrd K]

/-- What passed is a tree, and it measures what has been measured. -/
theorem exists_measures {steps : Nat} {link : Option Nat}
    (h : checkLink s aug steps link lo hi = .ok m) :
    ∃ p, p.root = link ∧ Measures s aug lo hi p m := by
  induction steps generalizing link lo hi m with
  | zero =>
    cases link with
    | none => exact ⟨.absent, rfl, measures_absent_iff.2 (Except.ok.inj h).symm⟩
    | some i => cases h
  | succ steps ih =>
    cases link with
    | none => exact ⟨.absent, rfl, measures_absent_iff.2 (Except.ok.inj h).symm⟩
    | some i =>
      rw [checkLink, Option.elim_some] at h
      -- A slot with nothing in it does not pass, so there is a node and each step of its check
      -- passed.
      cases hcell : s.cell? i with
      | none =>
        rw [checkBelow, hcell] at h
        cases h
      | some cell =>
        rw [checkBelow_succ steps hcell] at h
        obtain ⟨_, hnode, h⟩ := bind_eq_ok_iff.1 h
        obtain ⟨a, hleft, h⟩ := bind_eq_ok_iff.1 h
        obtain ⟨b, hright, hcaches⟩ := bind_eq_ok_iff.1 h
        obtain ⟨l, hl, hml⟩ := ih hleft
        obtain ⟨r, hr, hmr⟩ := ih hright
        have heq : cell = ⟨l.root, r.root, cell.data⟩ := by rw [hl, hr]
        refine ⟨node l (i, cell.data) r, rfl, measures_node.2 ?_⟩
        rw [← heq]
        exact ⟨hcell, hnode, a, b, hml, hmr, hcaches⟩

/-- A tree with nothing wrong passes, given as many steps as it is deep. -/
theorem checkLink_of_measures {steps : Nat} (h : Measures s aug lo hi p m)
    (hsteps : p.depth ≤ steps) : checkLink s aug steps p.root lo hi = .ok m := by
  induction p generalizing steps lo hi m with
  | absent => rw [measures_absent_iff.1 h]; rfl
  | node l d r ihl ihr =>
    obtain ⟨i, d⟩ := d
    obtain ⟨hcell, hnode, a, b, hl, hr, hcaches⟩ := measures_node.1 h
    rw [depth] at hsteps
    cases steps with
    | zero => exact absurd hsteps (Nat.not_succ_le_zero _)
    | succ steps =>
      have hdepth : l.depth ≤ steps ∧ r.depth ≤ steps := by omega
      have hleft := ihl hl hdepth.1
      have hright := ihr hr hdepth.2
      rw [root_node, checkLink, Option.elim_some, checkBelow_succ steps hcell]
      exact (bind_of_eq_ok hnode).trans ((bind_of_eq_ok hleft).trans
        ((bind_of_eq_ok hright).trans hcaches))

/-- A tree that passed is no larger than the room it was given. -/
theorem count_le_room (h : Measures s aug lo hi p m) : p.count ≤ (s.room lo hi).card := by
  induction p generalizing lo hi m with
  | absent => exact Nat.zero_le _
  | node l d r ihl ihr =>
    obtain ⟨i, d⟩ := d
    obtain ⟨hcell, hnode, a, b, hl, hr, -⟩ := measures_node.1 h
    have hsplit := Store.room_split hcell (checkNode_eq_ok_iff.1 hnode).2.1
    have hcountl := ihl hl
    have hcountr := ihr hr
    rw [count]
    dsimp only at hsplit
    omega

/-! ## Every check comes to an end -/

/-- What checking the subtree at a link answers, told without a number of steps: what is derived
here has been found out by finitely many checks, and no sum on the way was too large for a
32-bit word. -/
inductive Checks (s : NodeStore K V T) (aug : Augment K V T) :
    Option Nat → Option K → Option K → Except Defect Measured → Prop
  | absent {lo hi : Option K} : Checks s aug none lo hi (.ok .absent)
  | notLive {i : Nat} {lo hi : Option K} (hcell : s.cell? i = none) :
    Checks s aug (some i) lo hi (.error (.notLive i))
  | node {i : Nat} {lo hi : Option K} {cell : Cell (Node K V T)} {e : Defect}
      (hcell : s.cell? i = some cell) (hnode : checkNode s i cell lo hi = .error e) :
    Checks s aug (some i) lo hi (.error e)
  | left {i : Nat} {lo hi : Option K} {cell : Cell (Node K V T)} {e : Defect}
      (hcell : s.cell? i = some cell) (hnode : checkNode s i cell lo hi = .ok ())
      (hleft : Checks s aug cell.left lo (some cell.data.key) (.error e)) :
    Checks s aug (some i) lo hi (.error e)
  | right {i : Nat} {lo hi : Option K} {cell : Cell (Node K V T)} {a : Measured} {e : Defect}
      (hcell : s.cell? i = some cell) (hnode : checkNode s i cell lo hi = .ok ())
      (hleft : Checks s aug cell.left lo (some cell.data.key) (.ok a))
      (hright : Checks s aug cell.right (some cell.data.key) hi (.error e)) :
    Checks s aug (some i) lo hi (.error e)
  | caches {i : Nat} {lo hi : Option K} {cell : Cell (Node K V T)} {a b : Measured}
      (hcell : s.cell? i = some cell) (hnode : checkNode s i cell lo hi = .ok ())
      (hleft : Checks s aug cell.left lo (some cell.data.key) (.ok a))
      (hright : Checks s aug cell.right (some cell.data.key) hi (.ok b))
      (hheight : a.height + cell.data.color.weight.toNat < 4294967296)
      (hsize : 1 + a.size + b.size < 4294967296) :
    Checks s aug (some i) lo hi (checkCaches s aug i cell a b)

omit [TransOrd K] in
/-- The links below decide what comes of a check. -/
theorem Checks.unique {link : Option Nat} {x y : Except Defect Measured}
    (hx : Checks s aug link lo hi x) (hy : Checks s aug link lo hi y) : x = y := by
  induction hx generalizing y with
  | absent => cases hy; rfl
  | notLive hcell => cases hy <;> grind
  | node hcell hnode => cases hy <;> grind
  | left hcell hnode _ ih => cases hy <;> grind
  | right hcell hnode _ _ ihl ihr => cases hy <;> grind
  | caches hcell hnode _ _ _ _ ihl ihr => cases hy <;> grind

/-- A check that is given more steps than there is room comes to an end, and no sum on the way is
too large if there is not too much room. -/
theorem checks_checkLink {steps : Nat} {link : Option Nat}
    (hsteps : (s.room lo hi).card < steps) (hroom : (s.room lo hi).card < 4294967296) :
    Checks s aug link lo hi (checkLink s aug steps link lo hi) := by
  induction steps generalizing link lo hi with
  | zero => exact absurd hsteps (Nat.not_lt_zero _)
  | succ steps ih =>
    cases link with
    | none => exact .absent
    | some i =>
      rw [checkLink, Option.elim_some]
      cases hcell : s.cell? i with
      | none =>
        rw [checkBelow, hcell]
        exact .notLive hcell
      | some cell =>
        rw [checkBelow_succ steps hcell]
        cases hnode : checkNode s i cell lo hi with
        | error e => exact .node hcell hnode
        | ok _ =>
          -- The node is in the room, so each child has less of it.
          have hsplit := Store.room_split hcell (checkNode_eq_ok_iff.1 hnode).2.1
          have hleft : Checks s aug cell.left lo (some cell.data.key)
              (checkLink s aug steps cell.left lo (some cell.data.key)) := ih (by omega) (by omega)
          have hright : Checks s aug cell.right (some cell.data.key) hi
              (checkLink s aug steps cell.right (some cell.data.key) hi) := ih (by omega) (by omega)
          cases ha : checkLink s aug steps cell.left lo (some cell.data.key) with
          | error e =>
            rw [ha] at hleft
            exact .left hcell hnode hleft
          | ok a =>
            rw [ha] at hleft
            cases hb : checkLink s aug steps cell.right (some cell.data.key) hi with
            | error e =>
              rw [hb] at hright
              exact .right hcell hnode hleft hright
            | ok b =>
              rw [hb] at hright
              obtain ⟨l, -, hl⟩ := exists_measures ha
              obtain ⟨r, -, hr⟩ := exists_measures hb
              have hcountl := count_le_room hl
              have hcountr := count_le_room hr
              have hsizel := hl.size_eq
              have hsizer := hr.size_eq
              have hweight : cell.data.color.weight.toNat ≤ 1 := by
                cases cell.data.color <;> decide
              have hlevel : a.height < l.count + 1 := by
                have hpow := two_pow_level_le hl.level
                rw [count_bare] at hpow
                exact Nat.lt_of_lt_of_le Nat.lt_two_pow_self hpow
              exact .caches hcell hnode hleft hright (by omega) (by omega)

end

/-! ## The law -/

/-- The rules that `check` goes by, for the tree `p` that a store keeps. -/
structure Flawless [Ord K] [BEq T] (s : NodeStore K V T) (aug : Augment K V T)
    (p : Placed (Node K V T)) : Prop where
  black_root : p.bare.isRed = false
  counted : ∀ i ∈ p.slots, s.refs i ≠ 0
  no_red_pair : p.bare.Everywhere fun l d r => d.color = .red → l.isRed = false ∧ r.isRed = false
  even : p.bare.Everywhere fun l _ r => ∀ a ∈ l.blackCounts, ∀ b ∈ r.blackCounts, a = b
  increasing : Increasing p.bare.entries
  told : p.bare.Everywhere (Told aug)

variable [Ord K] [TransOrd K] [BEq T] {s : NodeStore K V T} {aug : Augment K V T}
  {root : Option Nat} {p : Placed (Node K V T)}

omit [TransOrd K] in
/-- A tree that was measured between no bounds is flawless if its root is black. -/
theorem Measures.flawless {m : Measured} (h : Measures s aug none none p m)
    (hblack : p.bare.isRed = false) : Flawless s aug p where
  black_root := hblack
  counted := h.counted
  no_red_pair := by
    refine everywhere_of_inherited (R := fun t => ∃ h, Level t h) ?_ ⟨_, h.level⟩
    rintro l d r ⟨h, hlevel⟩
    obtain ⟨a, hl, hr, -, hred⟩ := level_node.1 hlevel
    exact ⟨hred, ⟨a, hl⟩, a, hr⟩
  even := by
    refine everywhere_of_inherited (R := fun t => ∃ h, Level t h) ?_ ⟨_, h.level⟩
    rintro l d r ⟨h, hlevel⟩
    obtain ⟨n, hl, hr, -, -⟩ := level_node.1 hlevel
    refine ⟨fun a ha b hb => ?_, ⟨n, hl⟩, n, hr⟩
    rw [hl.blackCounts_eq a ha, hr.blackCounts_eq b hb]
  increasing := h.increasing
  told := h.told

omit [TransOrd K] in
/-- And a flawless tree can be measured. -/
theorem Flawless.exists_measures (h : Flawless s aug p) (hp : s.Unfolds p) :
    ∃ m, Measures s aug none none p m := by
  obtain ⟨n, hlevel⟩ := exists_level h.no_red_pair h.even
  exact ⟨⟨n, p.count⟩, hp, h.counted, hlevel, rfl, h.increasing, fun e _ => between_none e.1,
    h.told⟩

omit [TransOrd K] in
/-- A check of a whole tree looks at the color of the root, and then at everything. -/
theorem check_eq_ok_iff : check s aug root = .ok () ↔
    (linked s root).any (·.color == .red) = false ∧
      ∃ m, checkLink s aug s.reach root none none = .ok m := by
  cases root with
  | none => exact ⟨fun _ => ⟨rfl, _, rfl⟩, fun _ => rfl⟩
  | some i =>
    rw [check, linked, Option.bind_some, checkLink, Option.elim_some]
    cases hcell : s.cell? i with
    | none =>
      -- Without a live root both checks fail.
      refine ⟨(nomatch ·), ?_⟩
      rintro ⟨-, m, h⟩
      rw [Store.reach, checkBelow, hcell] at h
      cases h
    | some cell =>
      simp only [defect, bind, Except.bind, pure, Except.pure, ite_error_eq_ok_iff, Option.map_some,
        Option.any_some, beq_eq_false_iff_ne, ne_eq]
      refine and_congr_right fun _ => ?_
      cases checkBelow s aug s.reach i none none <;> simp

/-- `check` finds nothing wrong exactly if a flawless tree hangs at the root. -/
theorem check_ok_iff :
    check s aug root = .ok () ↔ ∃ p, p.root = root ∧ s.Unfolds p ∧ Flawless s aug p := by
  rw [check_eq_ok_iff]
  constructor
  · rintro ⟨hblack, m, h⟩
    obtain ⟨p, rfl, hm⟩ := exists_measures h
    rw [linked_eq hm.unfolds] at hblack
    exact ⟨p, rfl, hm.unfolds, hm.flawless hblack⟩
  · rintro ⟨p, rfl, hp, hflawless⟩
    obtain ⟨m, hm⟩ := hflawless.exists_measures hp
    rw [linked_eq hp]
    refine ⟨hflawless.black_root, m, checkLink_of_measures hm ?_⟩
    exact (Store.depth_le_of_unfolds hp fun i => Store.lt_size_of_contains).trans (Nat.le_succ _)

/-- Whatever a store holds, checking what hangs at a slot comes to an end without a sum that is too
large, and no step count is needed to say so; a check finds nothing wrong exactly if a flawless
tree hangs at the root; and then what the root reaches are the slots of that tree, all
different. -/
theorem check_exact (hplaces : ∀ i, s.contains i → i < maxPlaces) :
    (∀ i x, Checks s aug (some i) none none x ↔ x = checkBelow s aug s.reach i none none) ∧
      (check s aug root = .ok () ↔ ∃ p, p.root = root ∧ s.Unfolds p ∧ Flawless s aug p) ∧
      (check s aug root = .ok () → ∃ p, p.root = root ∧ s.Unfolds p ∧ p.slots.Nodup ∧
        ∀ i ∈ root, ∀ j, s.Reaches i j ↔ j ∈ p.slots) := by
  refine ⟨fun i x => ?_, check_ok_iff, fun h => ?_⟩
  · have hcard := Store.card_room_le_of_contains hplaces none none
    have hmax : maxPlaces < 4294967296 := by decide
    have hchecks : Checks s aug (some i) none none (checkLink s aug s.reach (some i) none none) :=
      checks_checkLink (Nat.lt_succ_of_le (Store.card_room_le none none)) (by omega)
    refine ⟨fun hx => hx.unique hchecks, ?_⟩
    rintro rfl
    exact hchecks
  · obtain ⟨p, rfl, hp, hflawless⟩ := check_ok_iff.1 h
    refine ⟨p, rfl, hp, Store.nodup_slots hp hflawless.increasing, fun i hi j => ?_⟩
    exact (Store.mem_slots_iff_reaches hp hi).symm

/-- A store that no operation has made: places 0 and 1 lead to each other, and at place 2 hangs a
tree of two nodes. -/
def tangle : NodeStore Nat Int64 Int64 :=
  let put (i : Nat) (left right : Option Nat) (d : Node Nat Int64 Int64)
      (t : Table (Place (Node Nat Int64 Int64))) := t.modify i fun _ => ⟨1, some ⟨left, right, d⟩⟩
  { (Store.new {} : NodeStore Nat Int64 Int64) with
    table := put 0 none (some 1) ⟨1, 10, .black, 1, 2, 30⟩ <|
      put 1 none (some 0) ⟨2, 20, .red, 0, 1, 20⟩ <|
      put 2 (some 3) none ⟨4, 40, .black, 1, 2, 70⟩ <|
      put 3 none none ⟨3, 30, .red, 0, 1, 30⟩ <| Table.empty.ensure .blank 0 }

theorem check_exact_tangle :
    (¬ ∃ p, p.root = some 0 ∧ tangle.Unfolds p ∧ Flawless tangle .sum p) ∧
      ∃ p, p.root = some 2 ∧ tangle.Unfolds p ∧ Flawless tangle .sum p := by
  have hplaces : ∀ i, tangle.contains i → i < maxPlaces := fun i hi =>
    Nat.lt_trans (Store.lt_size_of_contains hi) (by decide +kernel)
  refine ⟨fun h => ?_, (check_exact hplaces).2.1.1 (by decide +kernel)⟩
  have hok := (check_exact hplaces).2.1.2 h
  revert hok
  decide +kernel

end Subtree

end SharedForest

/-
Colors and heights.

`Level t h` says that `t` is a red-black tree as far as colors go: no red node has a red
child, and every way down meets `h` black nodes.  The root may be red.  Between two
updates the caches agree with that, `Cached`, so a comparison of cached heights compares
true ones; only where a height does not fit into its 32 bits would it go wrong, and
every law asks for that.  None asks for anything about keys.

The heart is `level_joinRight`.  A tree that has been hung on a right spine may leave two
red nodes in a row at the place where it was hung, and if the spine went over a red node
just above, three.  `Near` and `Nearer` are these two ways of being wrong, and what one
black node above does is to put both right, `level_mendRight`.

A split puts together what it has taken apart, and that it never grows on the way is due
to a distinction between two sizes: `Below h` is every tree of height at most `h`, and
`Fits h` only those that could be a child of a red node at height `h`.
-/
import SharedForest.Proofs.Content
import Mathlib.Tactic.Ring

set_option autoImplicit false

namespace SharedForest

namespace Tree

variable {γ K V T : Type} {aug : Augment K V T} {t l r tl tr : NodeTree K V T}
  {d : Node K V T} {k : K} {v : V} {c : Color} {a b h : Nat}

/-! ## Caches -/

/-- Every node has the caches of a node over its children. -/
def Cached (aug : Augment K V T) : NodeTree K V T → Prop
  | absent => True
  | node l d r =>
    d = Node.ofChildren aug l.data? d.key d.value d.color r.data? ∧ Cached aug l ∧ Cached aug r

@[simp] theorem cached_absent : Cached aug absent := trivial

/-- A new node has the right caches, so it is right if what hangs at it is. -/
@[simp] theorem cached_assemble :
    Cached aug (assemble aug l k v c r) ↔ Cached aug l ∧ Cached aug r := by
  constructor
  · intro h
    exact h.2
  · intro h
    exact ⟨rfl, h⟩

/-- A node that is painted is made anew, and so has right caches. -/
theorem cached_paint (ht : Cached aug t) : Cached aug (paint aug c t) := by
  cases t with
  | absent => exact ht
  | node l d r =>
    rw [paint]
    split
    · exact ht
    · exact cached_assemble.2 ht.2

/-- All nodes of a rotation are new. -/
theorem cached_mendRight (hl : Cached aug l) (hr : Cached aug r) :
    Cached aug (mendRight aug l d r) := by
  cases r with
  | absent => exact cached_assemble.2 ⟨hl, hr⟩
  | node m e x =>
    rw [mendRight]
    split
    · exact cached_assemble.2 ⟨cached_assemble.2 ⟨hl, hr.2.1⟩, cached_paint hr.2.2⟩
    · exact cached_assemble.2 ⟨hl, hr⟩

theorem cached_mendLeft (hl : Cached aug l) (hr : Cached aug r) :
    Cached aug (mendLeft aug l d r) := by
  cases l with
  | absent => exact cached_assemble.2 ⟨hl, hr⟩
  | node x e m =>
    rw [mendLeft]
    split
    · exact cached_assemble.2 ⟨cached_paint hl.2.1, cached_assemble.2 ⟨hl.2.2, hr⟩⟩
    · exact cached_assemble.2 ⟨hl, hr⟩

/-- By induction down the right side, each node on the way being made anew. -/
theorem cached_joinRight (hl : Cached aug tl) (hr : Cached aug tr) :
    Cached aug (joinRight aug k v tr tl) := by
  induction tl with
  | absent => exact cached_assemble.2 ⟨hl, hr⟩
  | node l d r _ ih =>
    rw [joinRight]
    split
    · exact cached_assemble.2 ⟨hl, hr⟩
    · exact cached_mendRight hl.2.1 (ih hl.2.2)

theorem cached_joinLeft (hl : Cached aug tl) (hr : Cached aug tr) :
    Cached aug (joinLeft aug k v tl tr) := by
  induction tr with
  | absent => exact cached_assemble.2 ⟨hl, hr⟩
  | node l d r ih _ =>
    rw [joinLeft]
    split
    · exact cached_assemble.2 ⟨hl, hr⟩
    · exact cached_mendLeft (ih hr.2.1) hr.2.2

/-- Whichever way a join goes, the nodes on the way are new. -/
theorem cached_join (hl : Cached aug tl) (hr : Cached aug tr) :
    Cached aug (join aug tl k v tr) := by
  have hright := cached_joinRight (k := k) (v := v) hl hr
  have hleft := cached_joinLeft (k := k) (v := v) hl hr
  unfold join
  split
  · dsimp only
    split
    · exact cached_paint hright
    · exact hright
  · split
    · dsimp only
      split
      · exact cached_paint hleft
      · exact hleft
    · exact cached_assemble.2 ⟨hl, hr⟩

/-- Taking the last entry out is joining again what is left. -/
theorem cached_splitLast (hl : Cached aug l) (hr : Cached aug r) :
    Cached aug (splitLast aug l d r).1 := by
  induction r generalizing l d with
  | absent => exact hl
  | node rl e rr _ ih => exact cached_join hl (ih hr.2.1 hr.2.2)

/-- An append is a join over the last entry. -/
theorem cached_append (hl : Cached aug l) (hr : Cached aug r) : Cached aug (append aug l r) := by
  cases l with
  | absent => exact hr
  | node ll d lr => exact cached_join (cached_splitLast hl.2.1 hl.2.2) hr

/-- Both parts of a split are put together by joins. -/
theorem cached_split (order : K → Ordering) (ht : Cached aug t) :
    Cached aug (split aug order t).below ∧ Cached aug (split aug order t).above := by
  induction t with
  | absent => exact ⟨ht, ht⟩
  | node l d r ihl ihr =>
    obtain ⟨-, hl, hr⟩ := ht
    rw [split]
    cases order d.key with
    | lt => exact ⟨(ihl hl).1, cached_join (ihl hl).2 hr⟩
    | gt => exact ⟨cached_join hl (ihr hr).1, (ihr hr).2⟩
    | eq => exact ⟨hl, hr⟩

/-- So is a union, whatever the keys and the values that come of it. -/
theorem cached_union [Ord K] (merge : K → V → V → γ → V × γ) (g : γ) (hl : Cached aug l)
    (hr : Cached aug r) : Cached aug (union aug merge l r g).1 := by
  induction r generalizing l g with
  | absent =>
    rw [union]
    exact hl
  | node rl d rr ihl ihr =>
    cases l with
    | absent =>
      rw [union]
      exact hr
    | node ll e lr =>
      rw [union]
      have hparts := cached_split (sought d.key) hl
      exact cached_join (ihl _ hparts.1 hr.2.1) (ihr _ hparts.2 hr.2.2)

/-- By strong induction on the number of entries taken. -/
theorem cached_buildLevel (redDepth : Nat) (items : List (K × V)) (n depth : Nat) :
    Cached aug (buildLevel aug redDepth items n depth).1 := by
  induction n using Nat.strongRecOn generalizing items depth with
  | ind n ih =>
    rw [buildLevel]
    by_cases h0 : n = 0
    · rw [if_pos h0]
      exact cached_absent
    · have hleft := ih ((n - 1) / 2) (by omega) items (depth + 1)
      rw [if_neg h0]
      dsimp only
      cases (buildLevel aug redDepth items ((n - 1) / 2) (depth + 1)).2 with
      | nil => exact hleft
      | cons e rest => exact cached_assemble.2 ⟨hleft, ih _ (by omega) rest (depth + 1)⟩

/-- The cached size is the number of nodes, modulo the width of a word. -/
theorem size_eq_count (ht : Cached aug t) : t.size = UInt32.ofNat t.count := by
  induction t with
  | absent => rfl
  | node l d r ihl ihr =>
    have hsize : (node l d r).size = 1 + l.size + r.size := congrArg Node.size ht.1
    rw [hsize, ihl ht.2.1, ihr ht.2.2, count, UInt32.ofNat_add, UInt32.ofNat_add]
    rw [UInt32.add_comm 1]
    rfl

/-! ## Levels -/

/-- No red node has a red child, and there are `h` black nodes on every way down. -/
inductive Level : NodeTree K V T → Nat → Prop
  | absent : Level .absent 0
  | red {l r : NodeTree K V T} {d : Node K V T} {h : Nat} (hc : d.color = .red)
      (hl : Level l h) (hr : Level r h) (hlb : l.isRed = false) (hrb : r.isRed = false) :
      Level (.node l d r) h
  | black {l r : NodeTree K V T} {d : Node K V T} {h : Nat} (hc : d.color = .black)
      (hl : Level l h) (hr : Level r h) : Level (.node l d r) (h + 1)

@[simp] theorem isRed_absent : (absent : NodeTree K V T).isRed = false := rfl

theorem isRed_node_of_red (hc : d.color = .red) : (node l d r).isRed = true := by
  simp [isRed, data?, hc]

theorem isRed_node_of_black (hc : d.color = .black) : (node l d r).isRed = false := by
  simp [isRed, data?, hc]

/-- A red node is as high as its children, which have to be black. -/
theorem level_assemble_red (hl : Level l h) (hr : Level r h) (hlb : l.isRed = false)
    (hrb : r.isRed = false) : Level (assemble aug l k v .red r) h :=
  .red rfl hl hr hlb hrb

/-- A black node is one higher than its children. -/
theorem level_assemble_black (hl : Level l h) (hr : Level r h) :
    Level (assemble aug l k v .black r) (h + 1) :=
  .black rfl hl hr

/-- A tree has one level only. -/
theorem Level.unique (ha : Level t a) (hb : Level t b) : a = b := by
  -- The color of the root leaves one rule on each side.
  induction ha generalizing b with
  | absent =>
    cases hb
    rfl
  | red hc _ _ _ _ ihl _ =>
    cases hb with
    | red _ hl _ _ _ => exact ihl hl
    | black hc' _ _ =>
      rw [hc] at hc'
      cases hc'
  | black hc _ _ ihl _ =>
    cases hb with
    | red hc' _ _ _ _ =>
      rw [hc] at hc'
      cases hc'
    | black _ hl _ => rw [ihl hl]

/-- The cached height is the level, modulo the width of a word. -/
theorem height_eq_level (ht : Cached aug t) (hlev : Level t h) : t.height = UInt32.ofNat h := by
  induction hlev with
  | absent => rfl
  | @red l r d h hc _ _ _ _ ihl _ =>
    have hheight : (node l d r).height = l.height + d.color.weight := congrArg Node.height ht.1
    rw [hheight, ihl ht.2.1, hc]
    exact UInt32.add_zero _
  | @black l r d h hc _ _ ihl _ =>
    have hheight : (node l d r).height = l.height + d.color.weight := congrArg Node.height ht.1
    rw [hheight, ihl ht.2.1, hc, UInt32.ofNat_add]
    rfl

/-- No way down has more black nodes than nodes. -/
theorem level_le_depth (hlev : Level t h) : h ≤ t.depth := by
  induction hlev with
  | absent => exact Nat.le_refl _
  | red _ _ _ _ _ ihl _ =>
    simp only [depth]
    omega
  | black _ _ _ ihl _ =>
    simp only [depth]
    omega

/-- At most every other node on a way down is red. -/
theorem depth_le_level (hlev : Level t h) :
    t.depth ≤ 2 * h + 1 ∧ (t.isRed = false → t.depth ≤ 2 * h) := by
  induction hlev with
  | absent => exact ⟨Nat.zero_le _, fun _ => Nat.zero_le _⟩
  | red hc _ _ hlb hrb ihl ihr =>
    have hl := ihl.2 hlb
    have hr := ihr.2 hrb
    refine ⟨?_, fun hb => absurd hb (by simp [isRed_node_of_red hc])⟩
    simp only [depth]
    omega
  | black hc _ _ ihl ihr =>
    have hl := ihl.1
    have hr := ihr.1
    simp only [depth]
    omega

/-- Black nodes alone make up a full tree. -/
theorem two_pow_level_le (hlev : Level t h) : 2 ^ h ≤ t.count + 1 := by
  induction hlev with
  | absent => exact Nat.le_refl _
  | red _ _ _ _ _ ihl _ =>
    simp only [count]
    omega
  | black _ _ _ ihl ihr =>
    simp only [count]
    rw [pow_succ]
    omega

/-- A tree has no more nodes than a full one of its depth. -/
theorem count_lt_two_pow_depth (t : NodeTree K V T) : t.count < 2 ^ t.depth := by
  induction t with
  | absent => exact Nat.one_pos
  | node l d r ihl ihr =>
    have hl := Nat.lt_of_lt_of_le ihl
      (Nat.pow_le_pow_right Nat.two_pos (Nat.le_max_left l.depth r.depth))
    have hr := Nat.lt_of_lt_of_le ihr
      (Nat.pow_le_pow_right Nat.two_pos (Nat.le_max_right l.depth r.depth))
    rw [count, depth, pow_succ]
    omega

/-- Painting a red root black makes up for a red child of it. -/
theorem level_blacken (aug : Augment K V T) (hc : d.color = .red) (hl : Level l h)
    (hr : Level r h) :
    Level (blacken aug (node l d r)) (h + 1) ∧ (blacken aug (node l d r)).isRed = false := by
  rw [blacken, paint, if_neg (by simp [hc])]
  exact ⟨level_assemble_black hl hr, rfl⟩

/-! ## Joining -/

/-- A red root over a right child that may be red too. -/
def Near (t : NodeTree K V T) (h : Nat) : Prop :=
  ∃ l d r, t = node l d r ∧ d.color = .red ∧ Level l h ∧ l.isRed = false ∧ Level r h

/-- A red root over such a tree to its right. -/
def Nearer (t : NodeTree K V T) (h : Nat) : Prop :=
  ∃ l d r, t = node l d r ∧ d.color = .red ∧ Level l h ∧ l.isRed = false ∧ Near r h

/-- What may come back from the right below a black node. -/
def Hung (t : NodeTree K V T) (h : Nat) : Prop := Level t h ∨ Near t h ∨ Nearer t h

/-- A tree that came back is in order below a black node, or has two red nodes in a row at its
top and is in order as soon as the second one is painted black. -/
theorem Hung.cases (aug : Augment K V T) (ht : Hung t h) :
    Level t h ∧ (t.isRed = true → t.right.isRed = false) ∨
      ∃ m e x, t = node m e x ∧ e.color = .red ∧ Level m h ∧ m.isRed = false ∧
        x.isRed = true ∧ Level (blacken aug x) (h + 1) := by
  rcases ht with hlev | ⟨m, e, x, rfl, he, hm, hmb, hx⟩ | ⟨m, e, x, rfl, he, hm, hmb, hx⟩
  · refine .inl ⟨hlev, fun hred => ?_⟩
    cases hlev with
    | absent => cases hred
    | red _ _ _ _ hrb => exact hrb
    | black hc _ _ => rw [isRed_node_of_black hc] at hred; cases hred
  · cases hx with
    | absent => exact .inl ⟨.red he hm .absent hmb rfl, fun _ => rfl⟩
    | red hc hl hr hlb hrb =>
      exact .inr ⟨m, e, _, rfl, he, hm, hmb, isRed_node_of_red hc, (level_blacken aug hc hl hr).1⟩
    | black hc hl hr =>
      exact .inl ⟨.red he hm (.black hc hl hr) hmb (isRed_node_of_black hc),
        fun _ => isRed_node_of_black hc⟩
  · obtain ⟨l, d, r, rfl, hd, hl, -, hr⟩ := hx
    exact .inr ⟨m, e, _, rfl, he, hm, hmb, isRed_node_of_red hd, (level_blacken aug hd hl hr).1⟩

/-- A black node puts right whatever came back from the right. -/
theorem level_mendRight (hd : d.color = .black) (hl : Level l h) (hr : Hung r h) :
    Level (mendRight aug l d r) (h + 1) := by
  rcases hr.cases aug with ⟨hlev, hpair⟩ | ⟨m, e, x, rfl, he, hm, hmb, hx, hblack⟩
  · cases r with
    | absent =>
      rw [mendRight, hd]
      exact level_assemble_black hl hlev
    | node m e x =>
      have hno : ¬ (d.color = .black ∧ e.color = .red ∧ x.isRed) := by
        rintro ⟨-, he, hx⟩
        have hxb : x.isRed = false := hpair (isRed_node_of_red he)
        rw [hxb] at hx
        cases hx
      rw [mendRight, if_neg hno, hd]
      exact level_assemble_black hl hlev
  · rw [mendRight, if_pos ⟨hd, he, hx⟩]
    refine level_assemble_red (level_assemble_black hl hm) hblack rfl ?_
    cases x with
    | absent => rfl
    | node xl xd xr =>
      rw [blacken, paint]
      split
      · exact isRed_node_of_black ‹_›
      · rfl

/-- Below a red node nothing is put right. -/
theorem mendRight_of_red (hd : d.color = .red) :
    mendRight aug l d r = assemble aug l d.key d.value .red r := by
  cases r with
  | absent => rw [mendRight, hd]
  | node m e x => rw [mendRight, if_neg (by simp [hd]), hd]

/-- Two black nodes have the same cached height exactly if they have the same level. -/
theorem height_eq_iff (hta : Cached aug l) (htb : Cached aug r) (ha : Level l a) (hb : Level r b)
    (ha' : a < 4294967296) (hb' : b < 4294967296) : l.height = r.height ↔ a = b := by
  rw [height_eq_level hta ha, height_eq_level htb hb, ← UInt32.toNat_inj,
    UInt32.toNat_ofNat_of_lt' ha', UInt32.toNat_ofNat_of_lt' hb']

/-- Comparing cached heights is comparing true ones, as long as these fit into words. -/
theorem height_lt_iff (hta : Cached aug l) (htb : Cached aug r) (ha : Level l a) (hb : Level r b)
    (ha' : a < 4294967296) (hb' : b < 4294967296) : l.height < r.height ↔ a < b := by
  rw [height_eq_level hta ha, height_eq_level htb hb, UInt32.lt_iff_toNat_lt,
    UInt32.toNat_ofNat_of_lt' ha', UInt32.toNat_ofNat_of_lt' hb']

/-- What hanging a tree of level `b` on the right spine of one of level `a` leaves: all in order
below a black root, unless the root is where it was hung. -/
theorem level_joinRight (hcl : Cached aug tl) (hcr : Cached aug tr) (hl : Level tl a)
    (hr : Level tr b) (hba : b ≤ a) (ha : a < 4294967296) :
    (tl.isRed = false → if b < a then Level (joinRight aug k v tr tl) a
      else Near (joinRight aug k v tr tl) a) ∧
    (tl.isRed = true → if b < a then Near (joinRight aug k v tr tl) a
      else Nearer (joinRight aug k v tr tl) a) := by
  induction hl with
  | absent =>
    obtain rfl : b = 0 := by omega
    refine ⟨fun _ => ?_, fun hred => by cases hred⟩
    exact ⟨_, _, _, rfl, rfl, .absent, rfl, hr⟩
  | @red l r d a hc hl' hr' hlb hrb _ ih =>
    -- The node is neither black nor mends anything, so it is put on top of what comes back.
    refine ⟨fun hred => by simp [isRed_node_of_red hc] at hred, fun _ => ?_⟩
    have hstep : joinRight aug k v tr (node l d r)
        = assemble aug l d.key d.value .red (joinRight aug k v tr r) := by
      rw [joinRight, if_neg (by simp [hc]), mendRight_of_red hc]
    have hback := (ih hcl.2.2 hba ha).1 hrb
    rw [hstep]
    by_cases hlt : b < a
    · rw [if_pos hlt] at hback ⊢
      exact ⟨_, _, _, rfl, rfl, hl', hlb, hback⟩
    · rw [if_neg hlt] at hback ⊢
      exact ⟨_, _, _, rfl, rfl, hl', hlb, hback⟩
  | @black l r d a hc hl' hr' _ ih =>
    refine ⟨fun _ => ?_, fun hred => by simp [isRed_node_of_black hc] at hred⟩
    have hnode : Level (node l d r) (a + 1) := .black hc hl' hr'
    have hheight : d.height = tr.height ↔ a + 1 = b :=
      height_eq_iff hcl hcr hnode hr ha (by omega)
    by_cases hhere : a + 1 = b
    -- The spine has come down to the height of the other tree, and a red node goes over both.
    · rw [if_neg (by omega), joinRight, if_pos ⟨hc, hheight.2 hhere⟩]
      refine ⟨_, _, _, rfl, rfl, hnode, isRed_node_of_black hc, ?_⟩
      rw [hhere]
      exact hr
    -- Further down: whatever comes back, one of the three kinds, this black node puts it right.
    · rw [if_pos (by omega), joinRight, if_neg (fun h => hhere (hheight.1 h.2))]
      refine level_mendRight hc hl' ?_
      obtain ⟨hblack, hred⟩ := ih hcl.2.2 (by omega) (by omega)
      rcases Bool.eq_false_or_eq_true r.isRed with hrr | hrr
      · have hback := hred hrr
        by_cases hlt : b < a
        · rw [if_pos hlt] at hback
          exact .inr (.inl hback)
        · rw [if_neg hlt] at hback
          exact .inr (.inr hback)
      · have hback := hblack hrr
        by_cases hlt : b < a
        · rw [if_pos hlt] at hback
          exact .inl hback
        · rw [if_neg hlt] at hback
          exact .inr (.inl hback)

/-! ### The other side

What comes back from the left is what came back from the right, seen in a mirror.  The
nodes of a mirrored tree keep their caches, which are wrong then, but only colors are
looked at. -/

/-- Left and right exchanged. -/
def mirror : NodeTree K V T → NodeTree K V T
  | absent => absent
  | node l d r => node (mirror r) d (mirror l)

/-- A tree is the mirror image of its mirror image. -/
@[simp] theorem mirror_mirror (t : NodeTree K V T) : t.mirror.mirror = t := by
  induction t with
  | absent => rfl
  | node l d r ihl ihr => rw [mirror, mirror, ihl, ihr]

/-- The root keeps its color. -/
@[simp] theorem isRed_mirror (t : NodeTree K V T) : t.mirror.isRed = t.isRed := by
  cases t <;> rfl

/-- Levels are the same in a mirror. -/
theorem Level.mirror (ht : Level t h) : Level t.mirror h := by
  induction ht with
  | absent => exact .absent
  | red hc _ _ hlb hrb ihl ihr =>
    exact .red hc ihr ihl (by rw [isRed_mirror, hrb]) (by rw [isRed_mirror, hlb])
  | black hc _ _ ihl ihr => exact .black hc ihr ihl

/-- A black node puts the left side right again; by the mirror image of `level_mendRight`. -/
theorem level_mendLeft (hd : d.color = .black) (hl : Hung l.mirror h) (hr : Level r h) :
    Level (mendLeft aug l d r) (h + 1) := by
  rcases hl.cases aug with ⟨hlev, hpair⟩ | ⟨m, e, x, hm', he, hm, hmb, hx, hblack⟩
  -- `Hung` is said of the mirror, so the tree itself is what is seen in it.
  · have hlev' := hlev.mirror
    rw [mirror_mirror] at hlev'
    cases l with
    | absent =>
      rw [mendLeft, hd]
      exact level_assemble_black hlev' hr
    | node x e m =>
      have hno : ¬ (d.color = .black ∧ e.color = .red ∧ x.isRed) := by
        rintro ⟨-, he, hx⟩
        have hxb : x.mirror.isRed = false := hpair (isRed_node_of_red he)
        rw [isRed_mirror, hx] at hxb
        cases hxb
      rw [mendLeft, if_neg hno, hd]
      exact level_assemble_black hlev' hr
  · have hl' : l = node x.mirror e m.mirror := by
      rw [← mirror_mirror l, hm']
      rfl
    have hxr : x.mirror.isRed = true := by rw [isRed_mirror, hx]
    rw [hl', mendLeft, if_pos ⟨hd, he, hxr⟩]
    have hmb' : Level m.mirror h := hm.mirror
    cases x with
    | absent => cases hx
    | node xl xd xr =>
      have hxd : xd.color = .red := by simpa [isRed, data?] using hx
      rw [blacken, paint, if_neg (by simp [hxd])] at hblack
      have hkids : Level xl h ∧ Level xr h := by
        cases hblack with
        | red hc _ _ _ _ => cases hc
        | black _ hl hr => exact ⟨hl, hr⟩
      obtain ⟨hout, hb⟩ := level_blacken aug hxd hkids.2.mirror hkids.1.mirror
      exact level_assemble_red hout (level_assemble_black hmb' hr) hb rfl

/-- Under a red node nothing is put right. -/
theorem mendLeft_of_red (hd : d.color = .red) :
    mendLeft aug l d r = assemble aug l d.key d.value .red r := by
  cases l with
  | absent => rw [mendLeft, hd]
  | node x e m => rw [mendLeft, if_neg (by simp [hd]), hd]

/-- What `level_joinRight` says, in the mirror. -/
theorem level_joinLeft (hcl : Cached aug tl) (hcr : Cached aug tr) (hl : Level tl a)
    (hr : Level tr b) (hab : a ≤ b) (hb : b < 4294967296) :
    (tr.isRed = false → if a < b then Level (joinLeft aug k v tl tr) b
      else Near (joinLeft aug k v tl tr).mirror b) ∧
    (tr.isRed = true → if a < b then Near (joinLeft aug k v tl tr).mirror b
      else Nearer (joinLeft aug k v tl tr).mirror b) := by
  induction hr with
  | absent =>
    obtain rfl : a = 0 := by omega
    refine ⟨fun _ => ?_, fun hred => by cases hred⟩
    exact ⟨_, _, _, rfl, rfl, .absent, rfl, hl.mirror⟩
  | @red l r d b hc hl' hr' hlb hrb ih _ =>
    refine ⟨fun hred => by simp [isRed_node_of_red hc] at hred, fun _ => ?_⟩
    -- A red root is never the place for the other tree, so the way goes on below it.
    have hstep : joinLeft aug k v tl (node l d r)
        = assemble aug (joinLeft aug k v tl l) d.key d.value .red r := by
      rw [joinLeft, if_neg (by simp [hc]), mendLeft_of_red hc]
    have hback := (ih hcr.2.1 hab hb).1 hlb
    have hrb' : r.mirror.isRed = false := by rw [isRed_mirror, hrb]
    rw [hstep]
    by_cases hlt : a < b
    · rw [if_pos hlt] at hback ⊢
      exact ⟨_, _, _, rfl, rfl, hr'.mirror, hrb', hback.mirror⟩
    · rw [if_neg hlt] at hback ⊢
      exact ⟨_, _, _, rfl, rfl, hr'.mirror, hrb', hback⟩
  | @black l r d b hc hl' hr' ih _ =>
    refine ⟨fun _ => ?_, fun hred => by simp [isRed_node_of_black hc] at hred⟩
    have hnode : Level (node l d r) (b + 1) := .black hc hl' hr'
    have hheight : d.height = tl.height ↔ b + 1 = a :=
      height_eq_iff hcr hcl hnode hl hb (by omega)
    -- At a black root the heights decide whether the tree is hung in here or further down.
    by_cases hhere : b + 1 = a
    · rw [if_neg (by omega), joinLeft, if_pos ⟨hc, hheight.2 hhere⟩]
      have hblack : (node l d r).mirror.isRed = false := by
        rw [isRed_mirror, isRed_node_of_black hc]
      refine ⟨_, _, _, rfl, rfl, hnode.mirror, hblack, ?_⟩
      rw [hhere]
      exact hl.mirror
    · rw [if_pos (by omega), joinLeft, if_neg (fun h => hhere (hheight.1 h.2))]
      refine level_mendLeft hc ?_ hr'
      obtain ⟨hblack, hred⟩ := ih hcr.2.1 (by omega) (by omega)
      rcases Bool.eq_false_or_eq_true l.isRed with hll | hll
      · have hback := hred hll
        by_cases hlt : a < b
        · rw [if_pos hlt] at hback
          exact .inr (.inl hback)
        · rw [if_neg hlt] at hback
          exact .inr (.inr hback)
      · have hback := hblack hll
        by_cases hlt : a < b
        · rw [if_pos hlt] at hback
          exact .inl hback.mirror
        · rw [if_neg hlt] at hback
          exact .inr (.inl hback)

/-! ### Either way -/

/-- Painting a red root puts right a red child of it. -/
theorem level_mendRoot (aug : Augment K V T) (pair : Bool) (hd : d.color = .red)
    (hl : Level l h) (hr : Level r h)
    (hpair : pair = false → l.isRed = false ∧ r.isRed = false) :
    ∃ m, Level (if pair then paint aug .black (node l d r) else node l d r) m ∧
      (m = h ∨ m = h + 1 ∧
        (if pair then paint aug .black (node l d r) else node l d r).isRed = false) := by
  cases pair with
  | false =>
    obtain ⟨hlb, hrb⟩ := hpair rfl
    exact ⟨h, .red hd hl hr hlb hrb, .inl rfl⟩
  | true =>
    obtain ⟨hlev, hb⟩ := level_blacken aug hd hl hr
    exact ⟨h + 1, hlev, .inr ⟨rfl, hb⟩⟩

/-- No red node over a red child at the root. -/
theorem Level.no_pair (ht : Level t h) :
    (t.isRed && t.right.isRed) = false ∧ (t.isRed && t.left.isRed) = false := by
  cases ht with
  | absent => exact ⟨rfl, rfl⟩
  | red _ _ _ hlb hrb => simp [left, right, hlb, hrb]
  | black hc _ _ => simp [isRed_node_of_black hc]

/-- A join has the level of the higher operand or one more, and one more only with a black root.
It has that of the higher operand where no operand of that level has a red root. -/
theorem level_join (hcl : Cached aug tl) (hcr : Cached aug tr) (hl : Level tl a) (hr : Level tr b)
    (ha : a < 4294967296) (hb : b < 4294967296) :
    ∃ h, Level (join aug tl k v tr) h ∧
      (h = max a b ∨ h = max a b + 1 ∧ (join aug tl k v tr).isRed = false) ∧
      ((b ≤ a → tl.isRed = false) → (a ≤ b → tr.isRed = false) → h = max a b) := by
  have hright : tr.height < tl.height ↔ b < a := height_lt_iff hcr hcl hr hl hb ha
  have hleft : tl.height < tr.height ↔ a < b := height_lt_iff hcl hcr hl hr ha hb
  by_cases hba : b < a
  -- The left one is higher: on its right spine, and a red pair at the root is painted.
  · rw [join, if_pos (hright.2 hba), Nat.max_eq_left (Nat.le_of_lt hba)]
    dsimp only
    obtain ⟨hblack, hred⟩ := level_joinRight (k := k) (v := v) hcl hcr hl hr (Nat.le_of_lt hba) ha
    rw [if_pos hba] at hblack hred
    rcases Bool.eq_false_or_eq_true tl.isRed with htl | htl
    · obtain ⟨l, d, r, ht, hd, hl', hlb, hr'⟩ := hred htl
      rw [ht]
      obtain ⟨h, hlev, hh⟩ := level_mendRoot aug
        ((node l d r).isRed && (node l d r).right.isRed) hd hl' hr'
        (fun hpair => ⟨hlb, by simpa [isRed_node_of_red hd] using hpair⟩)
      refine ⟨h, hlev, hh, fun hb _ => ?_⟩
      rw [hb (Nat.le_of_lt hba)] at htl
      cases htl
    · have hlev := hblack htl
      rw [if_neg (by simp [hlev.no_pair.1])]
      exact ⟨a, hlev, .inl rfl, fun _ _ => rfl⟩
  by_cases hab : a < b
  -- The right one is higher: the same in a mirror.
  · rw [join, if_neg (fun h => hba (hright.1 h)), if_pos (hleft.2 hab),
      Nat.max_eq_right (Nat.le_of_lt hab)]
    dsimp only
    obtain ⟨hblack, hred⟩ := level_joinLeft (k := k) (v := v) hcl hcr hl hr (Nat.le_of_lt hab) hb
    rw [if_pos hab] at hblack hred
    rcases Bool.eq_false_or_eq_true tr.isRed with htr | htr
    · obtain ⟨l, d, r, ht, hd, hl', hlb, hr'⟩ := hred htr
      have ht' : joinLeft aug k v tl tr = node r.mirror d l.mirror := by
        rw [← mirror_mirror (joinLeft aug k v tl tr), ht]
        rfl
      rw [ht']
      obtain ⟨h, hlev, hh⟩ := level_mendRoot aug
        ((node r.mirror d l.mirror).isRed && (node r.mirror d l.mirror).left.isRed) hd
        hr'.mirror hl'.mirror
        (fun hpair => ⟨by simpa [isRed_node_of_red hd] using hpair, by rw [isRed_mirror, hlb]⟩)
      refine ⟨h, hlev, hh, fun _ hb => ?_⟩
      rw [hb (Nat.le_of_lt hab)] at htr
      cases htr
    · have hlev := hblack htr
      rw [if_neg (by simp [hlev.no_pair.2])]
      exact ⟨b, hlev, .inl rfl, fun _ _ => rfl⟩
  -- Of one height: one node over both, and it is red if neither root is.
  · obtain rfl : a = b := by omega
    rw [join, if_neg (fun h => hba (hright.1 h)), if_neg (fun h => hab (hleft.1 h)), Nat.max_self]
    by_cases hroots : tl.isRed = false ∧ tr.isRed = false
    · rw [if_neg (by simp [hroots])]
      exact ⟨a, level_assemble_red hl hr hroots.1 hroots.2, .inl rfl, fun _ _ => rfl⟩
    · have hroots' : (tl.isRed || tr.isRed) = true := by
        rw [← Bool.not_eq_false, Bool.or_eq_false_iff]
        exact hroots
      rw [if_pos hroots']
      refine ⟨a + 1, level_assemble_black hl hr, .inr ⟨rfl, rfl⟩, fun htl htr => ?_⟩
      exact absurd ⟨htl (Nat.le_refl _), htr (Nat.le_refl _)⟩ hroots

/-! ## Two sizes -/

/-- The caches are right, and the tree has at most height `h`. -/
def Below (aug : Augment K V T) (t : NodeTree K V T) (h : Nat) : Prop :=
  Cached aug t ∧ ∃ a, Level t a ∧ a ≤ h

/-- The same, and a tree of height `h` has a black root. -/
def Fits (aug : Augment K V T) (t : NodeTree K V T) (h : Nat) : Prop :=
  Cached aug t ∧ ∃ a, Level t a ∧ a ≤ h ∧ (a = h → t.isRed = false)

/-- A bound may be raised. -/
theorem Below.mono (ht : Below aug t a) (hab : a ≤ b) : Below aug t b := by
  obtain ⟨hc, m, hlev, hm⟩ := ht
  exact ⟨hc, m, hlev, Nat.le_trans hm hab⟩

/-- What could be a child of a red node at a height is no higher. -/
theorem Fits.below (ht : Fits aug t h) : Below aug t h := by
  obtain ⟨hc, m, hlev, hm, -⟩ := ht
  exact ⟨hc, m, hlev, hm⟩

/-- Below a black node of height `h + 1` there are trees below `h`. -/
theorem fits_join (hl : Below aug l h) (hr : Below aug r h) (hh : h < 4294967296) :
    Fits aug (join aug l k v r) (h + 1) := by
  obtain ⟨hcl, a, hal, ha⟩ := hl
  obtain ⟨hcr, b, hbr, hb⟩ := hr
  obtain ⟨m, hlev, hm, -⟩ := level_join (k := k) (v := v) hcl hcr hal hbr (by omega) (by omega)
  refine ⟨cached_join hcl hcr, m, hlev, ?_, ?_⟩
  · rcases hm with hm | ⟨hm, -⟩ <;> omega
  · intro hmax
    rcases hm with hm | ⟨hm, hb⟩
    · omega
    · exact hb

/-- Below a red node of height `h` there are trees that fit `h`. -/
theorem below_join (hl : Fits aug l h) (hr : Fits aug r h) (hh : h < 4294967296) :
    Below aug (join aug l k v r) h := by
  obtain ⟨hcl, a, hal, ha, hlb⟩ := hl
  obtain ⟨hcr, b, hbr, hb, hrb⟩ := hr
  obtain ⟨m, hlev, hm, hexact⟩ := level_join (k := k) (v := v) hcl hcr hal hbr
    (by omega) (by omega)
  refine ⟨cached_join hcl hcr, m, hlev, ?_⟩
  -- A join grows only by a red root of the full height, and a tree that fits has none.
  by_cases hmax : max a b = h
  · have := hexact (fun hba => hlb (by omega)) (fun hab => hrb (by omega))
    omega
  · rcases hm with hm | ⟨hm, -⟩ <;> omega

/-- The children of a tree, by the color of its root. -/
theorem kids_of_level (hc : Cached aug (node l d r)) (ht : Level (node l d r) h) :
    (∃ m, h = m + 1 ∧ (node l d r).isRed = false ∧ Below aug l m ∧ Below aug r m) ∨
      (node l d r).isRed = true ∧ Fits aug l h ∧ Fits aug r h := by
  cases ht with
  | red hd hl hr hlb hrb =>
    exact .inr ⟨isRed_node_of_red hd, ⟨hc.2.1, h, hl, Nat.le_refl _, fun _ => hlb⟩,
      ⟨hc.2.2, h, hr, Nat.le_refl _, fun _ => hrb⟩⟩
  | @black _ _ _ m hd hl hr =>
    exact .inl ⟨m, rfl, isRed_node_of_black hd, ⟨hc.2.1, m, hl, Nat.le_refl _⟩,
      ⟨hc.2.2, m, hr, Nat.le_refl _⟩⟩

/-! ## Taking apart and putting together

A part of a tree is no larger than the tree, in both senses at once, and stays so when
it is joined with what hung next to it. -/

/-- What fits at a height fits at every greater one. -/
theorem Fits.mono (ht : Fits aug t a) (hab : a ≤ b) : Fits aug t b := by
  obtain ⟨hc, m, hlev, hm, hb⟩ := ht
  exact ⟨hc, m, hlev, by omega, fun h => hb (by omega)⟩

/-- At a greater height the color of the root does not matter. -/
theorem Below.fits (ht : Below aug t a) (hab : a < b) : Fits aug t b := by
  obtain ⟨hc, m, hlev, hm⟩ := ht
  exact ⟨hc, m, hlev, by omega, fun h => by omega⟩

/-- Whatever size `t` has, `x` has it too. -/
def NoLarger (aug : Augment K V T) (x t : NodeTree K V T) : Prop :=
  ∀ h < 4294967296, (Below aug t h → Below aug x h) ∧ (Fits aug t h → Fits aug x h)

variable {x : NodeTree K V T}

/-- It is enough to look at the children. -/
theorem noLarger_node
    (hblack : ∀ m < 4294967296, Below aug l m → Below aug r m → Fits aug x (m + 1))
    (hred : ∀ m < 4294967296, Fits aug l m → Fits aug r m → Below aug x m) :
    NoLarger aug x (node l d r) := by
  intro h hh
  constructor
  · rintro ⟨hc, a, hlev, ha⟩
    rcases kids_of_level hc hlev with ⟨m, rfl, -, hl, hr⟩ | ⟨-, hl, hr⟩
    · exact (hblack m (by omega) hl hr).below.mono ha
    · exact (hred a (by omega) hl hr).mono ha
  · rintro ⟨hc, a, hlev, ha, hb⟩
    rcases kids_of_level hc hlev with ⟨m, rfl, -, hl, hr⟩ | ⟨hroot, hl, hr⟩
    · exact (hblack m (by omega) hl hr).mono ha
    · have hne : a ≠ h := by
        intro hah
        rw [hb hah] at hroot
        cases hroot
      exact (hred a (by omega) hl hr).fits (by omega)

theorem NoLarger.refl (t : NodeTree K V T) : NoLarger aug t t := fun _ _ => ⟨id, id⟩

/-- The left subtree is no larger than the tree, and so is nothing that is no larger than it. -/
theorem noLarger_left (hx : NoLarger aug x l) : NoLarger aug x (node l d r) := by
  refine noLarger_node ?_ ?_
  · intro m hm hl _
    exact ((hx m hm).1 hl).fits (Nat.lt_succ_self m)
  · intro m hm hl _
    exact ((hx m hm).2 hl).below

/-- The same on the right. -/
theorem noLarger_right (hx : NoLarger aug x r) : NoLarger aug x (node l d r) := by
  refine noLarger_node ?_ ?_
  · intro m hm _ hr
    exact ((hx m hm).1 hr).fits (Nat.lt_succ_self m)
  · intro m hm _ hr
    exact ((hx m hm).2 hr).below

/-- A part of the left subtree, joined with the right one. -/
theorem noLarger_join_left (hx : NoLarger aug x l) :
    NoLarger aug (join aug x k v r) (node l d r) := by
  refine noLarger_node ?_ ?_
  · intro m hm hl hr
    exact fits_join ((hx m hm).1 hl) hr hm
  · intro m hm hl hr
    exact below_join ((hx m hm).2 hl) hr hm

/-- A part of the right subtree, joined with the left one. -/
theorem noLarger_join_right (hx : NoLarger aug x r) :
    NoLarger aug (join aug l k v x) (node l d r) := by
  refine noLarger_node ?_ ?_
  · intro m hm hl hr
    exact fits_join hl ((hx m hm).1 hr) hm
  · intro m hm hl hr
    exact below_join hl ((hx m hm).2 hr) hm

/-- The parts of a split are no larger than the whole, however keys compare. -/
theorem noLarger_split (aug : Augment K V T) (order : K → Ordering) (t : NodeTree K V T) :
    NoLarger aug (split aug order t).below t ∧ NoLarger aug (split aug order t).above t := by
  induction t with
  | absent => exact ⟨.refl _, .refl _⟩
  | node l d r ihl ihr =>
    rw [split]
    cases order d.key with
    | lt => exact ⟨noLarger_left ihl.1, noLarger_join_left ihl.2⟩
    | gt => exact ⟨noLarger_join_right ihr.1, noLarger_right ihr.2⟩
    | eq => exact ⟨noLarger_left (.refl _), noLarger_right (.refl _)⟩

/-- Taking the last entry out makes no tree larger. -/
theorem noLarger_splitLast (l : NodeTree K V T) (d : Node K V T) (r : NodeTree K V T) :
    NoLarger aug (splitLast aug l d r).1 (node l d r) := by
  induction r generalizing l d with
  | absent => exact noLarger_left (.refl _)
  | node rl e rr _ ih => exact noLarger_join_right (ih rl e)

/-- What two trees below `h` are joined to. -/
theorem below_join_succ (hl : Below aug l h) (hr : Below aug r h) (hh : h < 4294967296) :
    Below aug (join aug l k v r) (h + 1) := (fits_join hl hr hh).below

/-- Two trees put side by side are one higher at most. -/
theorem below_append (hl : Below aug l h) (hr : Below aug r h) (hh : h < 4294967296) :
    Below aug (append aug l r) (h + 1) := by
  cases l with
  | absent => exact hr.mono (Nat.le_succ h)
  | node ll d lr => exact below_join_succ ((noLarger_splitLast ll d lr h hh).1 hl) hr hh

/-- A black root adds one to the height at most. -/
theorem below_paint (ht : Below aug t h) : Below aug (paint aug .black t) (h + 1) := by
  obtain ⟨hc, a, hlev, ha⟩ := ht
  refine ⟨cached_paint hc, ?_⟩
  cases hlev with
  | absent => exact ⟨0, .absent, Nat.zero_le _⟩
  | red hd hl hr _ _ => exact ⟨a + 1, (level_blacken aug hd hl hr).1, by omega⟩
  | black hd hl hr =>
    rw [paint, if_pos hd]
    exact ⟨_, .black hd hl hr, by omega⟩

/-- A root that was painted black is black. -/
theorem isRed_blacken (t : NodeTree K V T) : (blacken aug t).isRed = false := by
  cases t with
  | absent => rfl
  | node l d r =>
    rw [blacken, paint]
    split
    · exact isRed_node_of_black ‹_›
    · rfl

/-- A tree of so few nodes is low. -/
theorem level_lt_of_count {w : Nat} (hlev : Level t h) (hn : t.count + 1 < 2 ^ w) : h < w :=
  (Nat.pow_lt_pow_iff_right (by decide)).1 (Nat.lt_of_le_of_lt (two_pow_level_le hlev) hn)

/-- A union is level if the number of its entries keeps its height in a word. -/
theorem level_union [Ord K] (merge : K → V → V → γ → V × γ) (g : γ) {t₁ t₂ : NodeTree K V T}
    {w : Nat} (hw : w ≤ 4294967296) (hc₁ : Cached aug t₁) (h₁ : Level t₁ a) (hc₂ : Cached aug t₂)
    (h₂ : Level t₂ b) (hn : t₁.count + t₂.count + 1 < 2 ^ w) :
    ∃ m, Level (union aug merge t₁ t₂ g).1 m := by
  induction t₂ generalizing t₁ g a b with
  | absent =>
    rw [union]
    exact ⟨a, h₁⟩
  | node l d r ihl ihr =>
    cases t₁ with
    | absent =>
      rw [union]
      exact ⟨b, h₂⟩
    | node tl e tr =>
      rw [union]
      have hkids : (∃ m, Level l m) ∧ ∃ m, Level r m := by
        cases h₂ with
        | red _ hl hr _ _ => exact ⟨⟨_, hl⟩, _, hr⟩
        | black _ hl hr => exact ⟨⟨_, hl⟩, _, hr⟩
      obtain ⟨⟨al, hal⟩, ar, har⟩ := hkids
      -- Neither part of the first tree has more entries than it, nor than it needs to be level.
      have hcount := count_split_le aug (sought d.key) (node tl e tr)
      simp only [count] at hn hcount
      have ha : a < w := level_lt_of_count h₁ (by simp only [count]; omega)
      obtain ⟨hbelow, habove⟩ := noLarger_split aug (sought d.key) (node tl e tr)
      obtain ⟨hcb, mb, hmb, -⟩ := (hbelow a (by omega)).1 ⟨hc₁, a, h₁, Nat.le_refl a⟩
      obtain ⟨hca, ma, hma, -⟩ := (habove a (by omega)).1 ⟨hc₁, a, h₁, Nat.le_refl a⟩
      generalize split aug (sought d.key) (node tl e tr) = p at *
      obtain ⟨ml, hml⟩ := ihl (settle merge p.found d g).2 hcb hmb hc₂.2.1 hal (by omega)
      have hcl := cached_union merge (settle merge p.found d g).2 hcb hc₂.2.1
      have hnl := count_union_le aug merge p.below l (settle merge p.found d g).2
      generalize union aug merge p.below l (settle merge p.found d g).2 = u at *
      obtain ⟨mr, hmr⟩ := ihr u.2 hca hma hc₂.2.2 har (by omega)
      have hcr := cached_union merge u.2 hca hc₂.2.2
      have hnr := count_union_le aug merge p.above r u.2
      have hlow : ml < w := level_lt_of_count hml (by omega)
      have hrow : mr < w := level_lt_of_count hmr (by omega)
      obtain ⟨m, hlev, -, -⟩ := level_join (k := d.key) (v := (settle merge p.found d g).1) hcl hcr
        hml hmr (by omega) (by omega)
      exact ⟨m, hlev⟩

/-! ## Building

A level that is `j` steps above the deepest one takes at least `2 ^ j - 1` entries and
fewer than `2 ^ (j + 1)`, and both halves of the rest are again such numbers. -/

/-- By strong induction on the number of entries taken: if they fill the `j` levels above the red
one and do not go beyond it, the tree has height `j`, and its root is black unless it stands on
the red level itself. -/
theorem level_buildLevel (aug : Augment K V T) {redDepth : Nat} (hR : redDepth ≠ 0)
    (items : List (K × V)) (n depth j : Nat) (hj : redDepth = depth + j) (hlen : n ≤ items.length)
    (hlow : 2 ^ j ≤ n + 1) (hhigh : n < 2 ^ (j + 1)) :
    Level (buildLevel aug redDepth items n depth).1 j ∧
      (j ≠ 0 → (buildLevel aug redDepth items n depth).1.isRed = false) := by
  induction n using Nat.strongRecOn generalizing items depth j with
  | ind n ih =>
    rw [buildLevel]
    by_cases h0 : n = 0
    -- There are entries for all levels but the deepest, so here the deepest has been passed.
    · have hj0 : j = 0 := by
        by_contra hne
        obtain ⟨m, rfl⟩ := Nat.exists_eq_succ_of_ne_zero hne
        have := Nat.one_le_two_pow (n := m)
        rw [pow_succ] at hlow
        omega
      rw [if_pos h0, hj0]
      exact ⟨.absent, fun h => absurd rfl h⟩
    rw [if_neg h0]
    obtain ⟨⟨k, v⟩, rest, hrest, hlen', -⟩ := exists_middle h0 hlen
    dsimp only
    rw [buildLevel_rest aug redDepth items ((n - 1) / 2) (depth + 1) (by omega), hrest]
    dsimp only
    cases j with
    | zero =>
      -- The deepest level: a single red node.
      have hn : n = 1 := by omega
      have hlast : depth = redDepth ∧ depth ≠ 0 := by omega
      have hnone : ∀ items : List (K × V),
          buildLevel aug redDepth items 0 (depth + 1) = (absent, items) := by
        intro items
        rw [buildLevel, if_pos rfl]
      subst hn
      rw [if_pos hlast, hnone, hnone]
      exact ⟨level_assemble_red .absent .absent rfl rfl, fun h => absurd rfl h⟩
    | succ j =>
      have hnot : ¬ (depth = redDepth ∧ depth ≠ 0) := by omega
      rw [pow_succ] at hlow
      rw [pow_succ] at hhigh
      obtain ⟨hl, -⟩ := ih ((n - 1) / 2) (by omega) items (depth + 1) j
        (by omega) (by omega) (by omega) (by omega)
      obtain ⟨hr, -⟩ := ih (n - 1 - (n - 1) / 2) (by omega) rest (depth + 1) j
        (by omega) hlen' (by omega) (by omega)
      rw [if_neg hnot]
      exact ⟨level_assemble_black hl hr, fun _ => rfl⟩

/-! ## Trees in balance -/

/-- A red-black tree with right caches. -/
structure Balanced (aug : Augment K V T) (t : NodeTree K V T) : Prop where
  cached : Cached aug t
  black : t.isRed = false
  level : ∃ h, Level t h

/-- The absent tree is in balance. -/
theorem balanced_absent : Balanced aug absent := ⟨trivial, rfl, 0, .absent⟩

/-- A leveled tree with right caches lacks nothing but a black root. -/
theorem balanced_blacken (ht : Below aug t h) : Balanced aug (blacken aug t) := by
  obtain ⟨hc, a, hlev, -⟩ := below_paint ht
  exact ⟨hc, isRed_blacken t, a, hlev⟩

/-- A tree is no higher than it is deep. -/
theorem Balanced.below (ht : Balanced aug t) : Below aug t t.depth := by
  obtain ⟨h, hlev⟩ := ht.level
  exact ⟨ht.cached, h, hlev, level_le_depth hlev⟩

/-- A split, a join and a black root. -/
theorem balanced_insert [Ord K] (ht : Balanced aug t) (hd : t.depth < 4294967296) :
    Balanced aug (insert aug t k v) := by
  obtain ⟨hbelow, habove⟩ := noLarger_split aug (sought k) t
  exact balanced_blacken (below_join_succ ((hbelow _ hd).1 ht.below) ((habove _ hd).1 ht.below) hd)

/-- A split, an append and a black root. -/
theorem balanced_remove (order : K → Ordering) (ht : Balanced aug t)
    (hd : t.depth < 4294967296) : Balanced aug (remove aug order t).1 := by
  obtain ⟨hbelow, habove⟩ := noLarger_split aug order t
  exact balanced_blacken (below_append ((hbelow _ hd).1 ht.below) ((habove _ hd).1 ht.below) hd)

/-- Both parts, once their roots are black. -/
theorem balanced_split (order : K → Ordering) (ht : Balanced aug t)
    (hd : t.depth < 4294967296) :
    Balanced aug (blacken aug (split aug order t).below) ∧
      Balanced aug (blacken aug (split aug order t).above) := by
  obtain ⟨hbelow, habove⟩ := noLarger_split aug order t
  exact ⟨balanced_blacken ((hbelow _ hd).1 ht.below), balanced_blacken ((habove _ hd).1 ht.below)⟩

/-- The height of the join is right although the heights are compared as words. -/
theorem balanced_join (hl : Balanced aug l) (hr : Balanced aug r) (hdl : l.depth < 4294967296)
    (hdr : r.depth < 4294967296) : Balanced aug (blacken aug (join aug l k v r)) :=
  balanced_blacken (below_join_succ (hl.below.mono (Nat.le_max_left _ _))
    (hr.below.mono (Nat.le_max_right _ _)) (Nat.max_lt.2 ⟨hdl, hdr⟩))

theorem balanced_append (hl : Balanced aug l) (hr : Balanced aug r) (hdl : l.depth < 4294967296)
    (hdr : r.depth < 4294967296) : Balanced aug (blacken aug (append aug l r)) :=
  balanced_blacken (below_append (hl.below.mono (Nat.le_max_left _ _))
    (hr.below.mono (Nat.le_max_right _ _)) (Nat.max_lt.2 ⟨hdl, hdr⟩))

/-- Two trees of depth `m` have fewer entries than a tree of depth `m + 1` has room for, and so the
height of their union still fits into a word. -/
theorem balanced_union [Ord K] (merge : K → V → V → γ → V × γ) (g : γ) {m : Nat}
    (hm : m < 4294967296) (hl : Balanced aug l) (hr : Balanced aug r) (hdl : l.depth ≤ m)
    (hdr : r.depth ≤ m) : Balanced aug (blacken aug (union aug merge l r g).1) := by
  obtain ⟨a, hla⟩ := hl.level
  obtain ⟨b, hrb⟩ := hr.level
  have hcl := Nat.lt_of_lt_of_le (count_lt_two_pow_depth l)
    (Nat.pow_le_pow_right (by decide) hdl)
  have hcr := Nat.lt_of_lt_of_le (count_lt_two_pow_depth r)
    (Nat.pow_le_pow_right (by decide) hdr)
  obtain ⟨n, hlev⟩ := level_union merge g (w := m + 1) hm hl.cached hla hr.cached hrb
    (by rw [pow_succ]; omega)
  exact balanced_blacken ⟨cached_union merge g hl.cached hr.cached, n, hlev, Nat.le_refl n⟩

/-- A tree that is built in bulk is in balance, whatever the list. -/
theorem balanced_build (items : List (K × V)) {n : Nat} (hn : n ≤ items.length) :
    Balanced aug (build aug items n) := by
  by_cases hR : n.log2 = 0
  · -- At most one entry, and a single node is black.
    have hlt : n < 2 := by
      by_contra hge
      have := (Nat.le_log2 (by omega)).2 (show 2 ^ 1 ≤ n by omega)
      omega
    rw [build, hR]
    obtain rfl | rfl : n = 0 ∨ n = 1 := by omega
    · rw [buildLevel]
      exact balanced_absent
    · obtain ⟨e, rest, rfl⟩ := List.exists_cons_of_length_pos hn
      have hone : buildLevel aug 0 (e :: rest) 1 0
          = (assemble aug absent e.1 e.2 .black absent, rest) := by
        rw [buildLevel]
        simp [buildLevel]
      rw [hone]
      exact ⟨⟨rfl, trivial, trivial⟩, rfl, 1, level_assemble_black .absent .absent⟩
  · have hne : n ≠ 0 := by
      intro h0
      rw [h0] at hR
      exact hR Nat.log2_zero
    obtain ⟨hlev, hb⟩ := level_buildLevel aug hR items n 0 n.log2 (by omega) hn
      (Nat.le_succ_of_le (Nat.log2_self_le hne)) Nat.lt_log2_self
    exact ⟨cached_buildLevel _ items _ 0, hb hR, _, hlev⟩

end Tree

end SharedForest

/-
Joining subtrees of any heights.

Between two steps of an operation a subtree need not be a tree that a handle could be on: its
root may be red.  `WeaklyValid` is what it keeps even then, stated node by node as `Poised` is,
and a join of two such subtrees is again one, whatever the colors of their roots
(`weaklyValid_join`).  What has to be assumed of the sizes is that the sum still fits into a word,
for the size is cached in one; keys are not looked at.

A handle's tree has a black root, so joining two of them leaves a tree of the height of the higher
one whose root may be red, and painting it black adds at most one level.
-/
import SharedForest.Proofs.Unordered
import SharedForest.Proofs.Validity

set_option autoImplicit false

namespace SharedForest

open Tree Alarmed Store

variable {K Q V T δ : Type}

namespace Tree

/-- No way down has more nodes than the tree. -/
theorem depth_le_count (t : Tree δ) : t.depth ≤ t.count := by
  induction t with
  | absent => exact Nat.le_refl _
  | node l d r ihl ihr =>
    simp only [depth, count]
    omega

variable {aug : Augment K V T} {t l r : NodeTree K V T} {d : Node K V T} {k : K} {v : V} {h : Nat}

/-! ## Weakly valid subtrees -/

/-- The rules of a red-black tree but for the color of its root, and its caches, read as numbers;
nothing is said about keys. -/
structure WeaklyValid (aug : Augment K V T) (t : NodeTree K V T) : Prop where
  no_red_pair : t.Everywhere fun l d r => d.color = .red → l.isRed = false ∧ r.isRed = false
  even : ∀ a ∈ t.blackCounts, ∀ b ∈ t.blackCounts, a = b
  height_eq : t.Everywhere fun l d r => ∀ n ∈ (node l d r).blackCounts, d.height.toNat = n
  size_eq : t.Everywhere fun l d r => d.size.toNat = (node l d r).entries.length
  aggregate_eq : t.Everywhere fun l d r =>
    d.aggregate = aug.aggregate l.aggregate d.key d.value r.aggregate

namespace WeaklyValid

/-- The rules hold of both subtrees of a node. -/
theorem kids (ht : WeaklyValid aug (node l d r)) : WeaklyValid aug l ∧ WeaklyValid aug r := by
  obtain ⟨⟨-, hredl, hredr⟩, heven, ⟨-, hhl, hhr⟩, ⟨-, hsl, hsr⟩, -, hal, har⟩ := ht
  have hboth : ∀ a ∈ l.blackCounts ++ r.blackCounts, ∀ b ∈ l.blackCounts ++ r.blackCounts,
      a = b := fun a ha b hb => Nat.add_right_cancel
    (heven _ (List.mem_map_of_mem ha) _ (List.mem_map_of_mem hb))
  refine ⟨⟨hredl, fun a ha b hb => ?_, hhl, hsl, hal⟩,
    hredr, fun a ha b hb => ?_, hhr, hsr, har⟩
  · exact hboth a (List.mem_append_left _ ha) b (List.mem_append_left _ hb)
  · exact hboth a (List.mem_append_right _ ha) b (List.mem_append_right _ hb)

/-- The cached height is the number of black nodes on any way down. -/
theorem height_toNat (ht : WeaklyValid aug t) : ∀ n ∈ t.blackCounts, t.height.toNat = n := by
  cases t with
  | absent =>
    intro n hn
    rw [List.mem_singleton.1 hn]
    rfl
  | node l d r => exact ht.height_eq.1

/-- The cached size is the number of nodes. -/
theorem size_toNat (ht : WeaklyValid aug t) : t.size.toNat = t.count := by
  cases t with
  | absent => rfl
  | node l d r => exact ht.size_eq.1.trans (length_entries _)

/-- So there are no more nodes than a word can tell. -/
theorem count_lt (ht : WeaklyValid aug t) : t.count < 4294967296 := by
  rw [← ht.size_toNat]
  exact t.size.toNat_lt

/-- Caches that are right as numbers are the ones a node over these children gets. -/
theorem cached (ht : WeaklyValid aug t) : Cached aug t := by
  induction t with
  | absent => exact cached_absent
  | node l d r ihl ihr =>
    obtain ⟨hl, hr⟩ := ht.kids
    refine ⟨?_, ihl hl, ihr hr⟩
    have hheight : d.height = l.height + d.color.weight := by
      obtain ⟨n, hn⟩ := List.exists_mem_of_ne_nil _ (blackCounts_ne_nil l)
      have hd := ht.height_eq.1 _ (List.mem_map_of_mem (List.mem_append_left _ hn))
      rw [← UInt32.toNat_inj, UInt32.toNat_add, hl.height_toNat n hn, ← hd]
      exact (Nat.mod_eq_of_lt d.height.toNat_lt).symm
    have hsize : d.size = 1 + l.size + r.size := by
      have hd : d.size.toNat = 1 + l.count + r.count := by
        rw [ht.size_eq.1, length_entries, count]
        omega
      rw [← UInt32.toNat_inj, UInt32.toNat_add, UInt32.toNat_add, hl.size_toNat, hr.size_toNat,
        Nat.mod_add_mod, UInt32.toNat_one, ← hd]
      exact (Nat.mod_eq_of_lt d.size.toNat_lt).symm
    have haggregate := ht.aggregate_eq.1
    cases d
    rw [Node.ofChildren, Node.mk.injEq]
    exact ⟨rfl, rfl, rfl, hheight, hsize, haggregate⟩

/-- All ways down meet equally many black nodes, and none two red ones in a row. -/
theorem level (ht : WeaklyValid aug t) : Level t t.height.toNat := by
  have heven : t.Everywhere fun l _ r => ∀ a ∈ l.blackCounts, ∀ b ∈ r.blackCounts, a = b := by
    refine everywhere_of_inherited (R := WeaklyValid aug) (fun l d r h => ⟨?_, h.kids⟩) ht
    intro a ha b hb
    exact Nat.add_right_cancel (h.even _ (List.mem_map_of_mem (List.mem_append_left _ ha)) _
      (List.mem_map_of_mem (List.mem_append_right _ hb)))
  obtain ⟨h, hlev⟩ := exists_level ht.no_red_pair heven
  rwa [ht.height_toNat h hlev.mem_blackCounts]

end WeaklyValid

/-- The rules at each node in terms of the whole tree. -/
theorem weaklyValid_iff : WeaklyValid aug t ↔
    Cached aug t ∧ (∃ h, Level t h) ∧ t.count < 4294967296 := by
  constructor
  · intro ht
    exact ⟨ht.cached, ⟨_, ht.level⟩, ht.count_lt⟩
  · rintro ⟨hc, ⟨h, hlev⟩, hn⟩
    exact ⟨hlev.no_red_pair, hlev.even,
      hlev.heights_eq hc (Nat.lt_of_le_of_lt (depth_le_count t) hn), hc.sizes_eq hn,
      hc.aggregates_eq⟩

/-- A tree that a handle can be on is weakly valid, if its nodes are few enough. -/
theorem Balanced.weaklyValid (ht : Balanced aug t) (hn : t.count < 4294967296) :
    WeaklyValid aug t :=
  weaklyValid_iff.2 ⟨ht.cached, ht.level, hn⟩

/-- The height in the cache is the level. -/
theorem WeaklyValid.height_eq_level (ht : WeaklyValid aug t) (hlev : Level t h) :
    t.height.toNat = h := ht.level.unique hlev

/-! ## Joining -/

/-- A join is weakly valid, and no more than one black level higher than the higher tree. -/
theorem weaklyValid_join (k : K) (v : V) (hl : WeaklyValid aug l) (hr : WeaklyValid aug r)
    (hn : l.count + 1 + r.count < 4294967296) :
    WeaklyValid aug (join aug l k v r) ∧
      ((join aug l k v r).height.toNat = max l.height.toNat r.height.toNat ∨
        (join aug l k v r).height.toNat = max l.height.toNat r.height.toNat + 1) := by
  obtain ⟨m, hlev, hm, -⟩ := level_join (k := k) (v := v) hl.cached hr.cached hl.level hr.level
    l.height.toNat_lt r.height.toNat_lt
  have hvalid : WeaklyValid aug (join aug l k v r) :=
    weaklyValid_iff.2 ⟨cached_join hl.cached hr.cached, ⟨m, hlev⟩, by rwa [count_join]⟩
  rw [hvalid.height_eq_level hlev]
  exact ⟨hvalid, hm.imp_right And.left⟩

/-- What is left without the last entry of a weakly valid tree. -/
theorem weaklyValid_splitLast (ht : WeaklyValid aug (node l d r)) :
    WeaklyValid aug (splitLast aug l d r).1 := by
  obtain ⟨hc, m, hlev, -⟩ := (noLarger_splitLast l d r _ (node l d r).height.toNat_lt).1
    ⟨ht.cached, _, ht.level, Nat.le_refl _⟩
  have hlen := congrArg List.length (entries_splitLast aug (l := l) (d := d) (r := r))
  rw [← entries_node, length_entries, List.length_append, length_entries] at hlen
  have hn := ht.count_lt
  exact weaklyValid_iff.2 ⟨hc, ⟨m, hlev⟩, by omega⟩

theorem count_append (aug : Augment K V T) (l r : NodeTree K V T) :
    (append aug l r).count = l.count + r.count := by
  rw [← length_entries, entries_append, List.length_append, length_entries, length_entries]

/-- So are two trees that are put side by side without an entry between them. -/
theorem weaklyValid_append (hl : WeaklyValid aug l) (hr : WeaklyValid aug r)
    (hn : l.count + r.count < 4294967296) : WeaklyValid aug (append aug l r) := by
  cases l with
  | absent => exact hr
  | node ll d lr =>
    refine (weaklyValid_join _ _ (weaklyValid_splitLast hl) hr ?_).1
    rw [← count_append aug] at hn
    rwa [append, count_join] at hn

/-- Only absent trees make an absent one. -/
theorem root_append_eq_none_iff {p q x : Placed (Node K V T)}
    (hx : x.bare = append aug p.bare q.bare) : x.root = none ↔ p.root = none ∧ q.root = none := by
  have hcount : x.count = p.count + q.count := by
    rw [← count_bare, hx, count_append, count_bare, count_bare]
  have habsent : ∀ {y : Placed (Node K V T)}, y.root = none ↔ y.count = 0 := by
    intro y
    cases y <;> simp [count]
  rw [habsent, habsent, habsent]
  omega

/-- Two trees with black roots are joined to one of the height of the higher one, and the color of
its root decides whether painting it black adds a level. -/
theorem level_blacken_join (k : K) (v : V) (hl : Balanced aug l) (hr : Balanced aug r)
    {a b : Nat} (ha : Level l a) (hb : Level r b) (ha' : a < 4294967296) (hb' : b < 4294967296) :
    ∃ m, Level (blacken aug (join aug l k v r)) m ∧ max a b ≤ m ∧ m ≤ max a b + 1 := by
  obtain ⟨h, hlev, -, hexact⟩ := level_join (k := k) (v := v) hl.cached hr.cached ha hb ha' hb'
  obtain rfl : h = max a b := hexact (fun _ => hl.black) (fun _ => hr.black)
  generalize join aug l k v r = t at hlev
  generalize max a b = h at hlev
  cases hlev with
  | absent => exact ⟨0, .absent, Nat.le_refl _, Nat.zero_le _⟩
  | red hc hl hr _ _ => exact ⟨h + 1, (level_blacken aug hc hl hr).1, by omega, Nat.le_refl _⟩
  | black hc hl hr =>
    rw [blacken, paint, if_pos hc]
    exact ⟨_, .black hc hl hr, Nat.le_refl _, Nat.le_succ _⟩

/-- A node is red or black. -/
theorem color_of_not_red (h : (node l d r).isRed = false) : d.color = .black := by
  cases hc : d.color with
  | red => simp [isRed_node_of_red hc] at h
  | black => rfl

end Tree

/-! ## What is read off the root -/

namespace Forest

variable {f : Forest K V T} {t : Snapshot} {p : Placed (Node K V T)} {h : Nat}

/-- The height that a handle tells leaves its black root out. -/
theorem blackHeight_eq {aug : Augment K V T} (hp : f.store.Unfolds p) (ht : t.root = p.root)
    (hb : Balanced aug p.bare) (hlev : Level p.bare h) (hh : h < 4294967296) :
    f.blackHeight t = .ok (h - 1) := by
  have hheight := hlev.height_toNat hb.cached hh
  cases p with
  | absent =>
    cases hlev
    rw [blackHeight, ofRoot, ht]
    rfl
  | node l d r =>
    obtain ⟨i, d⟩ := d
    have hread := Store.read_of_unfolds hp
    have hcolor : d.color = .black := color_of_not_red hb.black
    -- The subtraction does not go below zero, as the root itself is black.
    have hpos : 1 ≤ d.height := by
      have hle : 1 ≤ h := by
        cases hlev with
        | red hc _ _ _ _ => simp [hcolor] at hc
        | black _ _ _ => omega
      rw [UInt32.le_iff_toNat_le]
      exact hle.trans_eq hheight.symm
    have hinner : d.innerHeight.toNat = h - 1 := by
      rw [Node.innerHeight, hcolor, Color.weight, UInt32.toNat_sub_of_le _ _ hpos]
      exact congrArg (· - 1) hheight
    rw [blackHeight, ofRoot, ht, root_node]
    dsimp only
    rw [hread]
    exact congrArg Except.ok hinner

/-- The result of a join has a black root, and a height that is the larger one of its operands' or
one more. -/
structure Tops (f : Forest K V T) (t u : Snapshot) (f' : Forest K V T) (w : Snapshot) : Prop where
  black : ∃ i cell, w.root = some i ∧ f'.store.read i = .ok cell ∧ cell.data.color = .black
  height : ∃ a b m, f.blackHeight t = .ok a ∧ f.blackHeight u = .ok b ∧ f'.blackHeight w = .ok m ∧
    max a b ≤ m ∧ m ≤ max a b + 1

/-- What a join of two handles makes of the heights of their trees. -/
theorem tops_of_join [Ord K] {c : Config} {F : Multiset (Placed (Node K V T))}
    {q : Placed (Node K V T)} {u w : Snapshot} {f' : Forest K V T} (k : K) (v : V)
    (hsound : f.store.Sound c F) (hall : ∀ p ∈ F, Balanced f.augment p.bare) (hp : p ∈ F)
    (ht : t.root = p.root) (hq : q ∈ F) (hu : u.root = q.root) (hown : u.forest = f.id)
    (hrun : join t k v u f = .ok w f') (hquiet : ¬ Rung f') : Tops f t u f' w := by
  have hspec := join_spec k v hsound hp ht hq hu hown
  rw [hrun] at hspec
  obtain ⟨-, -, -, x, hx, hbare, hholds⟩ := hspec hquiet
  have hxs : x ∈ F + {x} := by simp
  have hunf := hholds.sound.unfolds hxs
  have hkept : x.bare.Kept := kept_of_mem hholds.sound hxs
  -- The levels of the trees, which are small enough for the handles to tell them.
  obtain ⟨a, ha⟩ := (hall p hp).level
  obtain ⟨b, hb⟩ := (hall q hq).level
  have ha' : a < 4294967296 :=
    Nat.lt_of_le_of_lt (level_le_depth ha) (kept_of_mem hsound hp).depth_lt
  have hb' : b < 4294967296 :=
    Nat.lt_of_le_of_lt (level_le_depth hb) (kept_of_mem hsound hq).depth_lt
  obtain ⟨m, hm, hlow, hhigh⟩ := level_blacken_join k v (hall p hp) (hall q hq) ha hb ha' hb'
  have hbalanced := balanced_join (k := k) (v := v) (hall p hp) (hall q hq)
    (kept_of_mem hsound hp).depth_lt (kept_of_mem hsound hq).depth_lt
  rw [← hbare, ← hholds.augment] at hbalanced
  rw [← hbare] at hm
  refine ⟨?_, a - 1, b - 1, m - 1, blackHeight_eq (hsound.unfolds hp) ht (hall p hp) ha ha',
    blackHeight_eq (hsound.unfolds hq) hu (hall q hq) hb hb',
    blackHeight_eq hunf hx.symm hbalanced hm
      (Nat.lt_of_le_of_lt (level_le_depth hm) hkept.depth_lt), by omega, by omega⟩
  -- A tree that has been joined has a root, for the new entry at least.
  cases x with
  | absent =>
    have hentries := congrArg Tree.entries hbare
    simp at hentries
  | node l d r =>
    obtain ⟨i, d⟩ := d
    exact ⟨i, _, hx.symm, Store.read_of_unfolds hunf, color_of_not_red hbalanced.black⟩

end Forest

/-! ## The law -/

namespace Subtree

/-- A weakly valid tree with the entries `es` has been handed over. -/
def Handed (aug : Augment K V T) (c : Config) (F : Multiset (Placed (Node K V T)))
    (es : List (K × V)) (x : Placed (Node K V T)) (s : NodeStore K V T) : Prop :=
  s.Sound c (F + {x}) ∧ WeaklyValid aug x.bare ∧ x.bare.entries = es

/-- A join of weakly valid subtrees keeps their entries in sequence and is weakly valid, no higher
than the higher one and a level, whatever keys it is made of; so is what two subtrees are appended
to.  The only failure is that no place is left.  The join of two handles has a black root, and its
height is the larger of theirs or one more. -/
theorem join_keeps_balance [Ord K] [Ord Q] [KeyView K Q] (aug : Augment K V T) :
    (∀ (s : NodeStore K V T) (c : Config) (F : Multiset (Placed (Node K V T)))
      (l r : Placed (Node K V T)) (k : K) (v : V), s.Sound c (F + {l} + {r}) →
      WeaklyValid aug l.bare → WeaklyValid aug r.bare → l.count + 1 + r.count < 4294967296 →
      Ends (join aug l.root k v r.root s) (fun i s' => ∃ x, x.root = some i ∧
        Handed aug c F (l.bare.entries ++ (k, v) :: r.bare.entries) x s' ∧
        (x.bare.height.toNat = max l.bare.height.toNat r.bare.height.toNat ∨
          x.bare.height.toNat = max l.bare.height.toNat r.bare.height.toNat + 1)) (Short c F)) ∧
    (∀ (s : NodeStore K V T) (c : Config) (F : Multiset (Placed (Node K V T)))
      (l r : Placed (Node K V T)), s.Sound c (F + {l} + {r}) → WeaklyValid aug l.bare →
      WeaklyValid aug r.bare → l.count + r.count < 4294967296 →
      Ends (append aug l.root r.root s) (fun root s' => ∃ x, x.root = root ∧
        Handed aug c F (l.bare.entries ++ r.bare.entries) x s' ∧
        (root = none ↔ l.root = none ∧ r.root = none)) (Short c F)) ∧
    ∀ (configs : List Config) (sort : List (K × V) → List (K × V)) (s : Session K V T)
      (t u w : Snapshot) (f f' : Forest K V T) (k : K) (v : V), s.Reached Q sort aug configs →
      t ∈ s.handles → u ∈ s.handles → s.forests[t.forest]? = some f →
      f.join t k v u = .ok w f' → f'.store.alarms.countHigh = false → Forest.Tops f t u f' w := by
  refine ⟨?_, ?_, ?_⟩
  · intro s c F l r k v hsound hl hr hn
    obtain ⟨hvalid, hheight⟩ := weaklyValid_join k v hl hr (by simpa using hn)
    refine (join_spec aug k v hsound).weaken fun i s' hjoined => ?_
    obtain ⟨x, hx, hbare, h'⟩ := hjoined
    rw [← hbare] at hvalid hheight
    exact ⟨x, hx, ⟨h', hvalid, by rw [hbare, entries_join]⟩, hheight⟩
  · intro s c F l r hsound hl hr hn
    have hvalid := weaklyValid_append hl hr (by simpa using hn)
    refine (append_spec aug hsound).weaken fun root s' happended => ?_
    obtain ⟨x, rfl, hbare, h'⟩ := happended
    rw [← hbare] at hvalid
    exact ⟨x, rfl, ⟨h', hvalid, by rw [hbare, entries_append]⟩, root_append_eq_none_iff hbare⟩
  · intro configs sort s t u w f f' k v hreached ht hu hf hrun hquiet
    have htidy := hreached.tidy (closed_balanced (Q := Q) aug)
    -- Had the second handle been of another forest, there would be no result.
    have hown : u.forest = f.id := by
      by_contra hown
      rw [Forest.join_foreign k v hown] at hrun
      cases hrun
    obtain ⟨hid, rfl, c, F, -, hsound, hall, hF⟩ := htidy.exists_books hf
    obtain ⟨p, hp, hroot⟩ := Forest.exists_tree hF (t := t) (by simpa using ht)
    obtain ⟨q, hq, hroot'⟩ := Forest.exists_tree hF (t := u) (by simpa [hown, hid] using hu)
    exact Forest.tops_of_join k v hsound hall hp hroot hq hroot' hown hrun
      (by simpa [Rung] using hquiet)

open Session in
/-- A tree, and next to it an older version of it, at a key that is out of order. -/
theorem join_keeps_balance_shortRun : ∃ f c F l r, shortRun.forests[0]? = some f ∧
    f.store.Sound c (F + {l} + {r}) ∧ WeaklyValid .sum l.bare ∧ WeaklyValid .sum r.bare ∧
    l.root = some 3 ∧ r.root = some 1 ∧
    Ends (join .sum (some 3) 0 0 (some 1) f.store) (fun i s' => ∃ x, x.root = some i ∧
        Handed .sum c F (l.bare.entries ++ (0, 0) :: r.bare.entries) x s' ∧
        (x.bare.height.toNat = max l.bare.height.toNat r.bare.height.toNat ∨
          x.bare.height.toNat = max l.bare.height.toNat r.bare.height.toNat + 1)) (Short c F) ∧
    Ends (append .sum (some 3) (some 1) f.store) (fun root s' => ∃ x, x.root = root ∧
        Handed .sum c F (l.bare.entries ++ r.bare.entries) x s' ∧
        (root = none ↔ some 3 = none ∧ some 1 = none)) (Short c F) ∧
    ∃ w f', f.join ⟨0, some 3, 2⟩ 5 50 ⟨0, none, 0⟩ = .ok w f' ∧
      Forest.Tops f ⟨0, some 3, 2⟩ ⟨0, none, 0⟩ f' w := by
  have htidy := reached_shortRun.tidy (closed_valid (Q := Nat) .sum)
  obtain ⟨f, hf⟩ := Option.isSome_iff_exists.1
    (show (shortRun.forests[0]?).isSome by decide +kernel)
  obtain ⟨-, -, c, F, -, hsound, hall, hF⟩ := htidy.exists_books hf
  have hhandles : shortRun.handles.filter (·.forest = 0)
      = [⟨0, some 3, 2⟩, ⟨0, none, 0⟩, ⟨0, some 1, 1⟩] := by decide +kernel
  have hheld : (↑[(⟨0, some 3, 2⟩ : Snapshot), ⟨0, none, 0⟩, ⟨0, some 1, 1⟩] : Multiset Snapshot)
      = {⟨0, none, 0⟩} + {⟨0, some 3, 2⟩} + {⟨0, some 1, 1⟩} := by decide
  rw [hhandles, hheld] at hF
  obtain ⟨G, r, rfl, hr, hG⟩ := Forest.exists_rest hF
  obtain ⟨G, l, rfl, hl, -⟩ := Forest.exists_rest hG
  have hl : l.root = some 3 := hl
  have hr : r.root = some 1 := hr
  have hlive : ∀ f ∈ shortRun.forests[0]?, f.store.live = 4 := by decide +kernel
  have hsmall : ∀ p ∈ G + {l} + {r}, p.count ≤ 4 := fun p hp =>
    (Store.count_le_live hsound (hsound.unfolds hp) (hall p hp).increasing).trans_eq (hlive f hf)
  have hvalid : ∀ p ∈ G + {l} + {r}, WeaklyValid .sum p.bare := fun p hp =>
    (hall p hp).balanced.weaklyValid (by rw [count_bare]; exact (hsmall p hp).trans_lt (by decide))
  have hnl := hsmall l (by simp)
  have hnr := hsmall r (by simp)
  obtain ⟨hjoin, happend, htops⟩ := join_keeps_balance (Q := Nat) (K := Nat) (V := Int64) .sum
  have hjoined := hjoin f.store c G l r 0 0 hsound (hvalid l (by simp)) (hvalid r (by simp))
    (by omega)
  have happended := happend f.store c G l r hsound (hvalid l (by simp)) (hvalid r (by simp))
    (by omega)
  have hruns : ∀ f ∈ shortRun.forests[0]?, (match f.join ⟨0, some 3, 2⟩ 5 50 ⟨0, none, 0⟩ with
      | .ok _ f' => !f'.store.alarms.countHigh
      | .error _ _ => false) = true := by decide +kernel
  have hrun := hruns f hf
  rw [hl, hr] at hjoined happended
  refine ⟨f, c, G, l, r, hf, hsound, hvalid l (by simp), hvalid r (by simp), hl, hr, hjoined,
    happended, ?_⟩
  cases hres : f.join ⟨0, some 3, 2⟩ 5 50 ⟨0, none, 0⟩ with
  | ok w f' =>
    rw [hres] at hrun
    exact ⟨w, f', rfl, htops _ _ shortRun _ _ w f f' 5 50 reached_shortRun (by decide +kernel)
      (by decide +kernel) hf hres (by simpa using hrun)⟩
  | error e f' =>
    rw [hres] at hrun
    cases hrun

end Subtree

end SharedForest

/-
Balance in any order of keys.

Nothing that keeps a tree in balance looks at keys, so a comparison may be as unlawful as it
likes: keys may repeat, stand in any order, and a tree may even hang in itself twice.  What could
go wrong is a cached height that does not fit into its word, since joins compare heights.  It
never does: no kept tree is deeper than there are slots, however many entries it seems to have,
and so every operation keeps balanced trees balanced (`closed_balanced`).  Only the size of a tree
may come round to zero, and then it is wrong at that tree alone.

`Poised` says what balance comes to at each single node, with the words read as numbers.
-/
import SharedForest.Proofs.Balance
import SharedForest.Proofs.Run
import SharedForest.Forest.Reading
import SharedForest.Key.Cyclic

set_option autoImplicit false

namespace SharedForest

open Tree Alarmed

variable {K Q V T δ ε : Type}

/-! ## Node by node -/

namespace Tree

/-- Every node, with what hangs to its left and to its right, is as `P` says. -/
def Everywhere (P : Tree δ → δ → Tree δ → Prop) : Tree δ → Prop
  | absent => True
  | node l d r => P l d r ∧ l.Everywhere P ∧ r.Everywhere P

/-- What holds at the root and goes over to both children holds everywhere. -/
theorem everywhere_of_inherited {P : Tree δ → δ → Tree δ → Prop} {R : Tree δ → Prop}
    (hR : ∀ l d r, R (node l d r) → P l d r ∧ R l ∧ R r) {t : Tree δ} (h : R t) :
    t.Everywhere P := by
  induction t with
  | absent => trivial
  | node l d r ihl ihr =>
    obtain ⟨hP, hl, hr⟩ := hR l d r h
    exact ⟨hP, ihl hl, ihr hr⟩

/-- What holds everywhere may be weakened everywhere. -/
theorem Everywhere.imp {P P' : Tree δ → δ → Tree δ → Prop} {t : Tree δ}
    (hP : ∀ l d r, P l d r → P' l d r) (h : t.Everywhere P) : t.Everywhere P' := by
  induction t with
  | absent => trivial
  | node l d r ihl ihr => exact ⟨hP l d r h.1, ihl h.2.1, ihr h.2.2⟩

/-- Two things that hold everywhere hold together. -/
theorem Everywhere.and {P P' : Tree δ → δ → Tree δ → Prop} {t : Tree δ} (h : t.Everywhere P)
    (h' : t.Everywhere P') : t.Everywhere fun l d r => P l d r ∧ P' l d r := by
  induction t with
  | absent => trivial
  | node l d r ihl ihr => exact ⟨⟨h.1, h'.1⟩, ihl h.2.1 h'.2.1, ihr h.2.2 h'.2.2⟩

/-- Payloads do not change where nodes are. -/
@[simp] theorem depth_map (f : δ → ε) (t : Tree δ) : (t.map f).depth = t.depth := by
  induction t with
  | absent => rfl
  | node l d r ihl ihr => rw [map, depth, depth, ihl, ihr]

/-- The numbers of black nodes on all ways down to an absent child, from left to right. -/
def blackCounts : NodeTree K V T → List Nat
  | absent => [0]
  | node l d r => (l.blackCounts ++ r.blackCounts).map (· + d.color.weight.toNat)

/-- Every tree has a way down. -/
theorem blackCounts_ne_nil (t : NodeTree K V T) : t.blackCounts ≠ [] := by
  induction t with
  | absent => simp [blackCounts]
  | node l d r ihl ihr => simp [blackCounts, ihl]

/-- The rules of a red-black tree and of its caches, node by node; nothing is said about keys. -/
structure Poised (aug : Augment K V T) (t : NodeTree K V T) : Prop where
  black_root : t.isRed = false
  no_red_pair : t.Everywhere fun l d r => d.color = .red → l.isRed = false ∧ r.isRed = false
  even : ∀ a ∈ t.blackCounts, ∀ b ∈ t.blackCounts, a = b
  height_eq : t.Everywhere fun l d r => ∀ n ∈ (node l d r).blackCounts, d.height.toNat = n
  aggregate_eq : t.Everywhere fun l d r =>
    d.aggregate = aug.aggregate l.aggregate d.key d.value r.aggregate
  /-- A size is right as long as a word can tell it. -/
  size_eq : t.entries.length < 4294967296 →
    t.Everywhere fun l d r => d.size.toNat = (node l d r).entries.length

variable {aug : Augment K V T} {t l r : NodeTree K V T} {d : Node K V T} {h : Nat}

/-- The rules that a node has to keep, whatever its color. -/
theorem level_node : Level (node l d r) h ↔ ∃ m, Level l m ∧ Level r m ∧
    m + d.color.weight.toNat = h ∧ (d.color = .red → l.isRed = false ∧ r.isRed = false) := by
  constructor
  · intro ht
    cases ht with
    | red hc hl hr hlb hrb => exact ⟨h, hl, hr, by rw [hc]; rfl, fun _ => ⟨hlb, hrb⟩⟩
    | @black _ _ _ m hc hl hr => exact ⟨m, hl, hr, by rw [hc]; rfl, by simp [hc]⟩
  · rintro ⟨m, hl, hr, rfl, hred⟩
    cases hc : d.color with
    | red => exact .red hc hl hr (hred hc).1 (hred hc).2
    | black => exact .black hc hl hr

/-- Both subtrees of a leveled tree are leveled. -/
theorem Level.children (ht : Level (node l d r) h) : (∃ a, Level l a) ∧ ∃ b, Level r b := by
  obtain ⟨m, hl, hr, -, -⟩ := level_node.1 ht
  exact ⟨⟨m, hl⟩, m, hr⟩

/-- A level is what is counted on every way down. -/
theorem Level.blackCounts_eq (ht : Level t h) : ∀ n ∈ t.blackCounts, n = h := by
  have hnode : ∀ {l r : NodeTree K V T} {a : Nat} (w : Nat), (∀ n ∈ l.blackCounts, n = a) →
      (∀ n ∈ r.blackCounts, n = a) →
      ∀ n ∈ (l.blackCounts ++ r.blackCounts).map (· + w), n = a + w := by
    intro l r a w hl hr n hn
    obtain ⟨m, hm, rfl⟩ := List.mem_map.1 hn
    rcases List.mem_append.1 hm with hm | hm
    · rw [hl m hm]
    · rw [hr m hm]
  induction ht with
  | absent => exact fun n hn => List.mem_singleton.1 hn
  | red hc _ _ _ _ ihl ihr =>
    rw [blackCounts, hc]
    exact hnode 0 ihl ihr
  | black hc _ _ ihl ihr =>
    rw [blackCounts, hc]
    exact hnode 1 ihl ihr

/-- Some way down meets as many black nodes as the level says. -/
theorem Level.mem_blackCounts (ht : Level t h) : h ∈ t.blackCounts := by
  induction ht with
  | absent => exact List.mem_singleton_self 0
  | red hc _ _ _ _ ihl _ =>
    rw [blackCounts, hc]
    exact List.mem_map.2 ⟨_, List.mem_append_left _ ihl, rfl⟩
  | black hc _ _ ihl _ =>
    rw [blackCounts, hc]
    exact List.mem_map.2 ⟨_, List.mem_append_left _ ihl, rfl⟩

/-- Rules that hold at every node give the tree a level. -/
theorem exists_level {t : NodeTree K V T}
    (hred : t.Everywhere fun l d r => d.color = .red → l.isRed = false ∧ r.isRed = false)
    (heven : t.Everywhere fun l _ r => ∀ a ∈ l.blackCounts, ∀ b ∈ r.blackCounts, a = b) :
    ∃ h, Level t h := by
  induction t with
  | absent => exact ⟨0, .absent⟩
  | node l d r ihl ihr =>
    obtain ⟨a, ha⟩ := ihl hred.2.1 heven.2.1
    obtain ⟨b, hb⟩ := ihr hred.2.2 heven.2.2
    have hab := heven.1 a ha.mem_blackCounts b hb.mem_blackCounts
    exact ⟨_, level_node.2 ⟨a, ha, hab ▸ hb, rfl, hred.1⟩⟩

/-- A height that fits into its word is the level. -/
theorem Level.height_toNat (ht : Level t h) (hc : Cached aug t) (hh : h < 4294967296) :
    t.height.toNat = h := by
  rw [height_eq_level hc ht, UInt32.toNat_ofNat_of_lt' hh]

/-- A size that fits into its word is the number of entries. -/
theorem size_toNat (hc : Cached aug t) (hn : t.count < 4294967296) : t.size.toNat = t.count := by
  rw [size_eq_count hc, UInt32.toNat_ofNat_of_lt' hn]

/-! ### What levels and caches come to at each node -/

/-- Below a red node the roots are black. -/
theorem Level.no_red_pair (ht : Level t h) :
    t.Everywhere fun l d r => d.color = .red → l.isRed = false ∧ r.isRed = false := by
  refine everywhere_of_inherited (R := fun u => ∃ h, Level u h) ?_ ⟨h, ht⟩
  rintro l d r ⟨h, hlev⟩
  obtain ⟨m, hl, hr, -, hred⟩ := level_node.1 hlev
  exact ⟨hred, ⟨m, hl⟩, m, hr⟩

/-- All ways down meet equally many. -/
theorem Level.even (ht : Level t h) : ∀ a ∈ t.blackCounts, ∀ b ∈ t.blackCounts, a = b := by
  intro a ha b hb
  rw [ht.blackCounts_eq a ha, ht.blackCounts_eq b hb]

/-- With right caches the cached height is that number at every node. -/
theorem Level.heights_eq (ht : Level t h) (hc : Cached aug t) (hd : t.depth < 4294967296) :
    t.Everywhere fun l d r => ∀ n ∈ (node l d r).blackCounts, d.height.toNat = n := by
  refine everywhere_of_inherited
    (R := fun u => (∃ h, Level u h) ∧ Cached aug u ∧ u.depth < 4294967296) ?_ ⟨⟨h, ht⟩, hc, hd⟩
  rintro l d r ⟨⟨h, hlev⟩, hc, hd⟩
  obtain ⟨hl, hr⟩ := hlev.children
  have hle := level_le_depth hlev
  refine ⟨fun n hn => ?_, ⟨hl, hc.2.1, ?_⟩, hr, hc.2.2, ?_⟩
  · rw [hlev.blackCounts_eq n hn]
    exact hlev.height_toNat hc (Nat.lt_of_le_of_lt hle hd)
  · rw [depth] at hd
    omega
  · rw [depth] at hd
    omega

/-- The aggregate of each node is made of those below it. -/
theorem Cached.aggregates_eq (hc : Cached aug t) : t.Everywhere fun l d r =>
    d.aggregate = aug.aggregate l.aggregate d.key d.value r.aggregate := by
  refine everywhere_of_inherited (R := Cached aug) ?_ hc
  intro l d r hc
  exact ⟨congrArg Node.aggregate hc.1, hc.2⟩

/-- And so is the size, if all of them fit into a word. -/
theorem Cached.sizes_eq (hc : Cached aug t) (hn : t.count < 4294967296) :
    t.Everywhere fun l d r => d.size.toNat = (node l d r).entries.length := by
  refine everywhere_of_inherited (R := fun u => Cached aug u ∧ u.count < 4294967296) ?_ ⟨hc, hn⟩
  rintro l d r ⟨hc, hn⟩
  refine ⟨(size_toNat hc hn).trans (length_entries _).symm, ⟨hc.2.1, ?_⟩, hc.2.2, ?_⟩
  · rw [count] at hn
    omega
  · rw [count] at hn
    omega

/-- Balance, node by node.  Only the depth of the tree has to fit into a word. -/
theorem Balanced.poised (ht : Balanced aug t) (hd : t.depth < 4294967296) : Poised aug t := by
  obtain ⟨hcached, hblack, h, hlev⟩ := ht
  refine ⟨hblack, hlev.no_red_pair, hlev.even, hlev.heights_eq hcached hd, hcached.aggregates_eq,
    fun hn => ?_⟩
  rw [length_entries] at hn
  exact hcached.sizes_eq hn

end Tree

/-! ## Kept trees -/

/-- No kept tree is deeper than there are slots. -/
theorem Tree.Kept.depth_le {t : NodeTree K V T} (h : t.Kept) : t.depth ≤ maxPlaces := by
  obtain ⟨s, c, F, p, hsound, hp, rfl⟩ := h
  have hdepth := Store.depth_le_of_unfolds hp hsound.stocked.unused
  have hfresh := hsound.stocked.fresh_le
  have hlimit := hsound.stocked.limit_eq
  rw [bare, depth_map]
  omega

/-- No kept tree is deeper than there are slots. -/
theorem Tree.Kept.depth_lt {t : NodeTree K V T} (h : t.Kept) : t.depth < 4294967296 :=
  Nat.lt_of_le_of_lt h.depth_le (by decide)

/-- Every operation keeps balanced trees balanced, however keys compare. -/
theorem closed_balanced [Ord K] [Ord Q] [KeyView K Q] (aug : Augment K V T) :
    Closed Q aug (Balanced aug) where
  absent := balanced_absent
  build items _ := balanced_build items (Nat.le_refl _)
  insert _ _ _ ht hkept := balanced_insert ht hkept.depth_lt
  remove _ _ ht hkept := balanced_remove _ ht hkept.depth_lt
  below _ _ ht hkept := (balanced_split _ ht hkept.depth_lt).1
  above _ _ ht hkept := (balanced_split _ ht hkept.depth_lt).2
  join _ _ _ _ hl hkeptl hr hkeptr _ _ := balanced_join hl hr hkeptl.depth_lt hkeptr.depth_lt
  append _ _ hl hkeptl hr hkeptr _ := balanced_append hl hr hkeptl.depth_lt hkeptr.depth_lt
  union merge _ _ g hl hkeptl hr hkeptr :=
    balanced_union merge g (m := maxPlaces) (by decide) hl hr hkeptl.depth_le hkeptr.depth_le

/-! ## What is not there cannot be removed -/

namespace Forest

variable [Ord Q] [KeyView K Q] {f : Forest K V T} {c : Config}
  {F : Multiset (Placed (Node K V T))} {p : Placed (Node K V T)} {t : Snapshot}

/-- Whether a key is contained is whether the search in the tree finds it. -/
theorem containsKey_eq (key : Q) (h : f.store.Sound c F) (hp : p ∈ F) (ht : t.root = p.root) :
    f.containsKey t key = .ok (p.seek (sought key)).isSome := by
  rw [containsKey, ht, Subtree.find_spec key h (h.unfolds hp)]
  cases p.seek (sought key) <;> rfl

/-- Removing a key is refused for want of it exactly if it is not contained. -/
theorem tryRemove_missing_iff (key : Q) (h : f.store.Sound c F) (hp : p ∈ F)
    (ht : t.root = p.root) (hquiet : ¬ Rung (final (tryRemove t key f))) :
    (∃ f', tryRemove t key f = .error (.refused .keyNotFound) f') ↔
      f.containsKey t key = .ok false := by
  have hcontains := containsKey_eq key h hp ht
  constructor
  · rintro ⟨f', hrun⟩
    have hspec := tryRemove_spec key h hp ht
    rw [hrun] at hspec hquiet
    rcases (hspec hquiet).1 with hfull | ⟨hnone, -⟩
    · cases hfull
    · rw [removed_eq, Option.map_eq_none_iff] at hnone
      rw [hcontains, hnone]
      rfl
  · intro hfalse
    rw [hcontains] at hfalse
    have hnone : p.seek (sought key) = none := by simpa using hfalse
    refine ⟨f, ?_⟩
    rw [tryRemove, bind_of_ok (find_eq key h hp ht), hnone]
    rfl

end Forest

/-! ## The law -/

namespace Session

/-- In every session that a run reaches every handle is on a balanced tree with right caches, and
removing a key from it is refused for want of the key exactly if it is not contained. -/
theorem balanced_in_any_order [Ord K] [Ord Q] [KeyView K Q] {aug : Augment K V T}
    {configs : List Config} {sort : List (K × V) → List (K × V)} {s : Session K V T} {t : Snapshot}
    (h : s.Reached Q sort aug configs) (ht : t ∈ s.handles) :
    ∃ f p, s.forests[t.forest]? = some f ∧ p.root = t.root ∧ f.store.Unfolds p ∧
      Poised aug p.bare ∧
      ∀ key : Q, ¬ Rung (final (Forest.tryRemove t key f)) →
        ((∃ f', Forest.tryRemove t key f = .error (.refused .keyNotFound) f') ↔
          f.containsKey t key = .ok false) := by
  have htidy := h.tidy (closed_balanced (Q := Q) aug)
  obtain ⟨f, hf, hmem⟩ := has_of_mem_handles htidy ht
  obtain ⟨c, hc⟩ := htidy.exists_config hf
  obtain ⟨-, -, htended⟩ := htidy.tended t.forest f c hf hc
  obtain ⟨F, hF, hsound, hbalanced⟩ := htended.backs
  obtain ⟨p, hp, hroot⟩ := Forest.exists_tree hF hmem
  refine ⟨f, p, hf, hroot.symm, hsound.unfolds hp, ?_, fun key hquiet => ?_⟩
  · exact (hbalanced p hp).poised (Forest.kept_of_mem hsound hp).depth_lt
  · exact Forest.tryRemove_missing_iff key hsound hp hroot hquiet

/-- Keys that are in no order, in a tree that has been joined with itself. -/
def circle : Session Cyclic Int64 Int64 :=
  execAllBy Forest.sortByKey
    [.empty 0 "a", .insert "a" ⟨1⟩ 10 "a", .insert "a" ⟨3⟩ 30 "a", .join "a" ⟨5⟩ 50 "a" "b"]
    (new .levels [{}])

theorem balanced_in_any_order_circle : ∃ f p, circle.forests[0]? = some f ∧ p.root = some 0 ∧
    f.store.Unfolds p ∧ Poised .levels p.bare ∧
    ((∃ f', Forest.tryRemove ⟨0, some 0, 3⟩ (⟨4⟩ : Cyclic) f = .error (.refused .keyNotFound) f') ↔
      f.containsKey ⟨0, some 0, 3⟩ (⟨4⟩ : Cyclic) = .ok false) := by
  obtain ⟨f, p, hf, hroot, hp, hpoised, hmissing⟩ :=
    balanced_in_any_order (Q := Cyclic) (s := circle) (t := ⟨0, some 0, 3⟩)
      ⟨by decide +kernel, _, rfl⟩ (by decide +kernel)
  have hall : ∀ f ∈ circle.forests[0]?, (final (Forest.tryRemove ⟨0, some 0, 3⟩ (⟨4⟩ : Cyclic)
      f)).store.alarms.countHigh ≠ true := by decide +kernel
  have hquiet : ¬ Rung (final (Forest.tryRemove ⟨0, some 0, 3⟩ (⟨4⟩ : Cyclic) f)) := hall f hf
  exact ⟨f, p, hf, hroot, hp, hpoised, hmissing ⟨4⟩ hquiet⟩

end Session

end SharedForest

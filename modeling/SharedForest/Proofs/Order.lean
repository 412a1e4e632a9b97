/-
Keys in order.

Here, at last, comparisons are lawful: entries whose keys increase strictly are a sorted
association list, and the functions on trees are what one would write down for such
lists.  What a split needs of a sought key is `Cut`, that it divides the keys into those
below it and those above it with at most one between; a key does, and so does whatever
stands for keys in a lawful way.

Two things follow that have nothing to do with look-ups.  A kept tree whose keys increase
has all its nodes at different slots, so its size is bounded by the number of slots
(`count_lt_of_unfolds`); a tree that shares a node with itself would have the same key
twice.  And uniting invents no keys, so it cannot spoil the order
(`increasing_union`).
-/
import SharedForest.Proofs.Content
import SharedForest.Proofs.Lookup
import SharedForest.Forest

set_option autoImplicit false

namespace SharedForest

open Tree Std

variable {γ K Q V T δ : Type}

/-- What stands for a key compares as the key does. -/
class LawfulView (K Q : Type) [Ord K] [Ord Q] [KeyView K Q] : Prop where
  compare_view : ∀ a b : K, compare (KeyView.view a : Q) (KeyView.view b) = compare a b

instance [Ord K] : LawfulView K K := ⟨fun _ _ => rfl⟩

/-- Keys increase strictly. -/
def Increasing [Ord K] (es : List (K × V)) : Prop :=
  es.Pairwise fun a b => compare a.1 b.1 = .lt

/-- Whatever is sought lies between keys that are below it and keys that are above it. -/
structure Cut [Ord K] (order : K → Ordering) : Prop where
  lt : ∀ a b, compare a b = .lt → order a ≠ .gt → order b = .lt
  gt : ∀ a b, compare a b = .lt → order b ≠ .lt → order a = .gt

/-- The entries with `v` at `k`, where they have their place. -/
def put [Ord K] (k : K) (v : V) : List (K × V) → List (K × V)
  | [] => [(k, v)]
  | e :: es =>
    match compare k e.1 with
    | .lt => (k, v) :: e :: es
    | .eq => (k, v) :: es
    | .gt => e :: put k v es

/-! ## What is below, at and above a key -/

section

variable [Ord Q] [KeyView K Q]

/-- The entries whose keys are below `key`. -/
def entriesBelow (key : Q) (es : List (K × V)) : List (K × V) :=
  es.filter fun e => stored e.1 key == .lt

/-- The entries whose keys are above `key`. -/
def entriesAbove (key : Q) (es : List (K × V)) : List (K × V) :=
  es.filter fun e => stored e.1 key == .gt

/-- All entries but those at `key`. -/
def entriesWithout (key : Q) (es : List (K × V)) : List (K × V) :=
  es.filter fun e => stored e.1 key != .eq

/-- The value at `key`. -/
def valueAt (key : Q) (es : List (K × V)) : Option V :=
  (es.find? fun e => stored e.1 key == .eq).map (·.2)

/-- A key without a value has no entry to take out. -/
theorem entriesWithout_eq_self {key : Q} {es : List (K × V)} (h : valueAt key es = none) :
    entriesWithout key es = es := by
  rw [valueAt, Option.map_eq_none_iff, List.find?_eq_none] at h
  refine List.filter_eq_self.2 fun e he => bne_iff_ne.2 fun heq => h e he ?_
  rw [heq]
  rfl

variable [OrientedOrd Q]

/-- To seek a key is to compare it from the other side. -/
theorem sought_eq_swap (key : Q) (k : K) : sought key k = (stored k key).swap :=
  OrientedCmp.eq_swap

/-- What lies below a stored key that is sought lies above what is sought, and so on. -/
theorem beq_sought (key : Q) (k : K) (o : Ordering) :
    (sought key k == o) = (stored k key == o.swap) := by
  rw [sought_eq_swap]
  cases stored k key <;> cases o <;> rfl

/-- What a split puts below is what is below the key. -/
theorem filter_sought_gt (key : Q) (es : List (K × V)) :
    es.filter (sought key ·.1 == .gt) = entriesBelow key es :=
  List.filter_congr fun e _ => beq_sought key e.1 .gt

/-- What it puts above is what is above the key. -/
theorem filter_sought_lt (key : Q) (es : List (K × V)) :
    es.filter (sought key ·.1 == .lt) = entriesAbove key es :=
  List.filter_congr fun e _ => beq_sought key e.1 .lt

/-- What a removal leaves is all but what is at the key. -/
theorem filter_sought_ne (key : Q) (es : List (K × V)) :
    es.filter (sought key ·.1 != .eq) = entriesWithout key es :=
  List.filter_congr fun e _ => congrArg not (beq_sought key e.1 .eq)

/-- What a search finds is the value at the key. -/
theorem find?_sought (key : Q) (es : List (K × V)) :
    (es.find? (sought key ·.1 == .eq)).map (·.2) = valueAt key es := by
  have hpred : (fun e : K × V => sought key e.1 == .eq) = fun e => stored e.1 key == .eq :=
    funext fun e => beq_sought key e.1 .eq
  rw [hpred, valueAt]

end

/-! ## Lists -/

section

variable {es : List (K × V)} {order : K → Ordering} {o : Ordering}

/-- Entries that all lie on one side are found on that side only. -/
theorem filter_of_forall (order : K → Ordering) (h : ∀ e ∈ es, order e.1 = o) (o' : Ordering) :
    es.filter (order ·.1 == o') = if o = o' then es else [] := by
  split
  · rename_i ho
    exact List.filter_eq_self.2 fun e he => by rw [h e he, ho, beq_self_eq_true]
  · rename_i ho
    refine List.filter_eq_nil_iff.2 fun e he => ?_
    rw [h e he, beq_iff_eq]
    exact ho

/-- Nothing is found where all keys lie to one side. -/
theorem find?_of_forall (h : ∀ e ∈ es, order e.1 = o) (ho : o ≠ .eq) :
    es.find? (order ·.1 == .eq) = none := by
  refine List.find?_eq_none.2 fun e he => ?_
  rw [h e he, beq_iff_eq]
  exact ho

end

section

variable [Ord K] {es l r : List (K × V)} {e : K × V} {k : K} {order : K → Ordering}

/-- A key that is sought divides the others, by the laws of the order. -/
theorem cut_sought [Ord Q] [KeyView K Q] [TransOrd Q] [LawfulView K Q] (key : Q) :
    Cut (sought key : K → Ordering) := by
  -- Stored keys compare as their views do, so this is transitivity of the order on views.
  constructor
  · intro a b hab hne
    have hview : compare (KeyView.view a : Q) (KeyView.view b) = .lt :=
      (LawfulView.compare_view a b).trans hab
    exact TransCmp.lt_of_isLE_of_lt (Ordering.isLE_iff_ne_gt.2 hne) hview
  · intro a b hab hne
    have hview : compare (KeyView.view b : Q) (KeyView.view a) = .gt :=
      OrientedCmp.gt_of_lt ((LawfulView.compare_view a b).trans hab)
    exact TransCmp.gt_of_isGE_of_gt (Ordering.isGE_iff_ne_lt.2 hne) hview

theorem increasing_nil : Increasing ([] : List (K × V)) := List.Pairwise.nil

/-- Some of a sorted list, in the same order, is sorted. -/
theorem Increasing.sublist (h : Increasing es) (hsub : List.Sublist l es) : Increasing l :=
  List.Pairwise.sublist hsub h

/-- One entry between two parts. -/
theorem increasing_middle [TransOrd K] : Increasing (l ++ e :: r) ↔
    Increasing l ∧ Increasing r ∧ (∀ a ∈ l, compare a.1 e.1 = .lt) ∧
      ∀ b ∈ r, compare e.1 b.1 = .lt := by
  constructor
  · intro h
    obtain ⟨hl, her, hcross⟩ := List.pairwise_append.1 h
    obtain ⟨he, hr⟩ := List.pairwise_cons.1 her
    exact ⟨hl, hr, fun a ha => hcross a ha e (by simp), he⟩
  · rintro ⟨hl, hr, hle, her⟩
    refine List.pairwise_append.2 ⟨hl, List.pairwise_cons.2 ⟨her, hr⟩, ?_⟩
    intro a ha b hb
    rcases List.mem_cons.1 hb with rfl | hb
    · exact hle a ha
    · exact TransCmp.lt_trans (hle a ha) (her b hb)

/-- It is enough to compare neighbors. -/
theorem increasing_of_firstDisorder [TransOrd K] {n : Nat}
    (h : Forest.firstDisorder es n = none) : Increasing es := by
  induction es generalizing n with
  | nil => exact increasing_nil
  | cons a es ih =>
    cases es with
    | nil => exact List.pairwise_singleton _ _
    | cons b es =>
      rw [Forest.firstDisorder] at h
      split at h
      · rename_i hab
        -- The first is below the second, which is below all others.
        have htail := ih h
        refine List.pairwise_cons.2 ⟨fun x hx => ?_, htail⟩
        rcases List.mem_cons.1 hx with rfl | hx
        · exact hab
        · exact TransCmp.lt_trans hab ((List.pairwise_cons.1 htail).1 x hx)
      · cases h

/-- Without what is sought, the entries above come right after those below. -/
theorem filter_sides (hcut : Cut order) (h : Increasing es) :
    es.filter (order ·.1 == .gt) ++ es.filter (order ·.1 == .lt)
      = es.filter (order ·.1 != .eq) := by
  induction es with
  | nil => rfl
  | cons e es ih =>
    obtain ⟨he, hes⟩ := List.pairwise_cons.1 h
    have habove : order e.1 ≠ .gt → ∀ x ∈ es, order x.1 = .lt :=
      fun hne x hx => hcut.lt e.1 x.1 (he x hx) hne
    have hkeep : (∀ x ∈ es, order x.1 = .lt) → es.filter (order ·.1 != .eq) = es := by
      intro hall
      exact List.filter_eq_self.2 fun x hx => by rw [hall x hx]; rfl
    simp only [List.filter_cons]
    -- As soon as an entry is not below what is sought, all that follow are above it.
    cases hord : order e.1 with
    | lt =>
      have hall := habove (by rw [hord]; decide)
      rw [filter_of_forall order hall, filter_of_forall order hall, hkeep hall]
      rfl
    | eq =>
      have hall := habove (by rw [hord]; decide)
      rw [filter_of_forall order hall, filter_of_forall order hall, hkeep hall]
      rfl
    | gt => exact congrArg (e :: ·) (ih hes)

/-- Putting an entry in its place replaces the one between the entries below and above. -/
theorem put_eq [TransOrd K] (h : Increasing es) (k : K) (v : V) :
    put k v es = es.filter (compare k ·.1 == .gt) ++ (k, v) :: es.filter (compare k ·.1 == .lt) := by
  induction es with
  | nil => rfl
  | cons e es ih =>
    obtain ⟨he, hes⟩ := List.pairwise_cons.1 h
    -- Everything behind the place lies above.
    have habove : compare k e.1 ≠ .gt → ∀ x ∈ es, compare k x.1 = .lt := by
      intro hne x hx
      exact TransCmp.lt_of_isLE_of_lt (Ordering.isLE_iff_ne_gt.2 hne) (he x hx)
    rw [put]
    cases hcmp : compare k e.1 with
    | lt =>
      have hall := habove (by rw [hcmp]; decide)
      simp only [List.filter_cons, hcmp]
      rw [filter_of_forall (compare k) hall, filter_of_forall (compare k) hall]
      rfl
    | eq =>
      have hall := habove (by rw [hcmp]; decide)
      simp only [List.filter_cons, hcmp]
      rw [filter_of_forall (compare k) hall, filter_of_forall (compare k) hall]
      rfl
    | gt =>
      simp only [List.filter_cons, hcmp, ih hes]
      rfl

/-- A list with an entry put in its place is sorted. -/
theorem increasing_put [TransOrd K] (h : Increasing es) (k : K) (v : V) :
    Increasing (put k v es) := by
  rw [put_eq h]
  refine increasing_middle.2
    ⟨h.sublist List.filter_sublist, h.sublist List.filter_sublist, ?_, ?_⟩
  · intro a ha
    exact OrientedCmp.lt_of_gt (by simpa using (List.mem_filter.1 ha).2)
  · intro b hb
    simpa using (List.mem_filter.1 hb).2

end

/-! ## Trees -/

namespace Tree

variable [Ord K] (aug : Augment K V T) {t t₁ t₂ l r : NodeTree K V T} {d : Node K V T}
  {order : K → Ordering} {k : K} {v : V}

/-- A tree is in order if its subtrees are and its root stands between them. -/
theorem increasing_node [TransOrd K] : Increasing (node l d r).entries ↔
    Increasing l.entries ∧ Increasing r.entries ∧
      (∀ a ∈ l.entries, compare a.1 d.key = .lt) ∧ ∀ b ∈ r.entries, compare d.key b.1 = .lt := by
  rw [entries_node]
  exact increasing_middle

/-- A split of a tree in order is a split of its entries. -/
theorem split_of_increasing [TransOrd K] (hcut : Cut order) (h : Increasing t.entries) :
    (split aug order t).below.entries = t.entries.filter (order ·.1 == .gt) ∧
      (split aug order t).found = t.entries.find? (order ·.1 == .eq) ∧
      (split aug order t).above.entries = t.entries.filter (order ·.1 == .lt) := by
  induction t with
  | absent => exact ⟨rfl, rfl, rfl⟩
  | node l d r ihl ihr =>
    obtain ⟨hl, hr, hld, hdr⟩ := increasing_node.1 h
    have habove : order d.key ≠ .gt → ∀ e ∈ r.entries, order e.1 = .lt :=
      fun hne e he => hcut.lt d.key e.1 (hdr e he) hne
    have hbelow : order d.key ≠ .lt → ∀ e ∈ l.entries, order e.1 = .gt :=
      fun hne e he => hcut.gt e.1 d.key (hld e he) hne
    -- One side of the root is cut by the induction; the other lies on one side as a whole.
    rw [split, entries_node, List.filter_append, List.filter_append, List.find?_append]
    simp only [List.filter_cons, List.find?_cons, Node.entry]
    cases hord : order d.key with
    | lt =>
      obtain ⟨hb, hf, ha⟩ := ihl hl
      have hall := habove (by rw [hord]; decide)
      rw [filter_of_forall order hall, filter_of_forall order hall, find?_of_forall hall (by decide)]
      refine ⟨?_, ?_, ?_⟩
      · rw [hb]
        exact (List.append_nil _).symm
      · rw [hf]
        exact (Option.or_none).symm
      · rw [entries_join, ha]
        rfl
    | gt =>
      obtain ⟨hb, hf, ha⟩ := ihr hr
      have hall := hbelow (by rw [hord]; decide)
      rw [filter_of_forall order hall, filter_of_forall order hall, find?_of_forall hall (by decide)]
      refine ⟨?_, ?_, ?_⟩
      · rw [entries_join, hb]
        rfl
      · rw [hf]
        rfl
      · rw [ha]
        rfl
    | eq =>
      have hall := habove (by rw [hord]; decide)
      have hall' := hbelow (by rw [hord]; decide)
      rw [filter_of_forall order hall, filter_of_forall order hall, filter_of_forall order hall',
        filter_of_forall order hall', find?_of_forall hall' (by decide)]
      refine ⟨?_, rfl, rfl⟩
      exact (List.append_nil _).symm

/-- An insertion into a tree in order puts the entry in its place in the list. -/
theorem entries_insert [TransOrd K] (h : Increasing t.entries) :
    (insert aug t k v).entries = put k v t.entries := by
  obtain ⟨hbelow, -, habove⟩ := split_of_increasing aug (cut_sought k) h
  rw [insert, entries_paint, entries_join, hbelow, habove, put_eq h]
  rfl

/-- So the tree is in order again. -/
theorem increasing_insert [TransOrd K] (h : Increasing t.entries) :
    Increasing (insert aug t k v).entries := by
  rw [entries_insert aug h]
  exact increasing_put h k v

/-- A removal leaves out what is at the key, and answers with its value. -/
theorem entries_remove [TransOrd K] (hcut : Cut order) (h : Increasing t.entries) :
    (remove aug order t).1.entries = t.entries.filter (order ·.1 != .eq) ∧
      (remove aug order t).2 = (t.entries.find? (order ·.1 == .eq)).map (·.2) := by
  obtain ⟨hbelow, hfound, habove⟩ := split_of_increasing aug hcut h
  refine ⟨?_, ?_⟩
  · rw [remove, entries_blacken, entries_append, hbelow, habove]
    exact filter_sides hcut h
  · rw [remove, hfound]

/-- Whatever a tree in order is split by, the parts are in order, and so is what is left of it
without what was found. -/
theorem increasing_parts (order : K → Ordering) (h : Increasing t.entries) :
    Increasing (split aug order t).below.entries ∧ Increasing (split aug order t).above.entries ∧
      Increasing (remove aug order t).1.entries := by
  rw [← entries_split aug order] at h
  refine ⟨h.sublist ?_, h.sublist ?_, ?_⟩
  · rw [List.append_assoc]
    exact List.sublist_append_left _ _
  · exact List.sublist_append_right _ _
  · rw [remove, entries_blacken, entries_append]
    refine h.sublist (List.Sublist.append_right ?_ _)
    exact List.sublist_append_left _ _

/-- There is an entry with the same key. -/
def SharesKey (es : List (K × V)) (e : K × V) : Prop := ∃ e' ∈ es, e'.1 = e.1

/-- Uniting keeps the order, and all keys come from the two trees. -/
theorem union_of_increasing [TransOrd K] (merge : K → V → V → γ → V × γ) (g : γ)
    (h₁ : Increasing t₁.entries) (h₂ : Increasing t₂.entries) :
    Increasing (union aug merge t₁ t₂ g).1.entries ∧
      ∀ e ∈ (union aug merge t₁ t₂ g).1.entries, SharesKey (t₁.entries ++ t₂.entries) e := by
  induction t₂ generalizing t₁ g with
  | absent =>
    rw [union]
    exact ⟨h₁, fun e he => ⟨e, by simp [he], rfl⟩⟩
  | node l d r ihl ihr =>
    cases t₁ with
    | absent =>
      rw [union]
      exact ⟨h₂, fun e he => ⟨e, by simpa using he, rfl⟩⟩
    | node tl e tr =>
      obtain ⟨hl, hr, hld, hdr⟩ := increasing_node.1 h₂
      obtain ⟨hbelow, -, habove⟩ := split_of_increasing aug (cut_sought d.key) h₁
      rw [union]
      dsimp only
      set p := split aug (sought d.key) (node tl e tr) with hp
      obtain ⟨hincl, hkeysl⟩ := ihl (settle merge p.found d g).2
        (by rw [hbelow]; exact h₁.sublist List.filter_sublist) hl
      obtain ⟨hincr, hkeysr⟩ := ihr (union aug merge p.below l (settle merge p.found d g).2).2
        (by rw [habove]; exact h₁.sublist List.filter_sublist) hr
      rw [entries_join]
      -- An entry on the left has its key from below the split or from `l`, and both are below `d`;
      -- the same on the right.
      refine ⟨increasing_middle.2 ⟨hincl, hincr, ?_, ?_⟩, ?_⟩
      · intro a ha
        obtain ⟨a', ha', hkey⟩ := hkeysl a ha
        rw [← hkey]
        rcases List.mem_append.1 ha' with ha' | ha'
        · rw [hbelow, List.mem_filter, beq_iff_eq] at ha'
          exact OrientedCmp.lt_of_gt ha'.2
        · exact hld a' ha'
      · intro b hb
        obtain ⟨b', hb', hkey⟩ := hkeysr b hb
        rw [← hkey]
        rcases List.mem_append.1 hb' with hb' | hb'
        · rw [habove, List.mem_filter, beq_iff_eq] at hb'
          exact hb'.2
        · exact hdr b' hb'
      · intro x hx
        rcases List.mem_append.1 hx with hx | hx
        · obtain ⟨x', hx', hkey⟩ := hkeysl x hx
          refine ⟨x', ?_, hkey⟩
          rcases List.mem_append.1 hx' with hx' | hx'
          · rw [hbelow] at hx'
            exact List.mem_append_left _ (List.mem_filter.1 hx').1
          · simp [hx']
        · rcases List.mem_cons.1 hx with rfl | hx
          · exact ⟨d.entry, by simp, rfl⟩
          · obtain ⟨x', hx', hkey⟩ := hkeysr x hx
            refine ⟨x', ?_, hkey⟩
            rcases List.mem_append.1 hx' with hx' | hx'
            · rw [habove] at hx'
              exact List.mem_append_left _ (List.mem_filter.1 hx').1
            · simp [hx']

end Tree

/-! ## Slots -/

namespace Store

variable [Ord K] [TransOrd K] {s : NodeStore K V T} {c : Config}
  {F : Multiset (Placed (Node K V T))} {p : Placed (Node K V T)}

/-- At one slot one cell is read, so a slot that occurred twice would hold the same key twice. -/
theorem nodup_of_read {L : List (Nat × Node K V T)}
    (hread : ∀ x ∈ L, ∃ cell, s.cell? x.1 = some cell ∧ cell.data = x.2)
    (hkeys : L.Pairwise fun x y => compare x.2.key y.2.key = .lt) : (L.map (·.1)).Nodup := by
  refine List.pairwise_map.2 (hkeys.imp_of_mem ?_)
  intro x y hx hy hlt heq
  obtain ⟨a, ha, hax⟩ := hread x hx
  obtain ⟨b, hb, hby⟩ := hread y hy
  rw [heq, hb] at ha
  obtain rfl : b = a := by simpa using ha
  rw [← hax, ← hby, ReflOrd.compare_self] at hlt
  cases hlt

omit [TransOrd K] in
/-- Entries in order are nodes in order. -/
theorem pairwise_of_increasing {L : List (Nat × Node K V T)}
    (h : Increasing (L.map fun x => x.2.entry)) :
    L.Pairwise fun x y => compare x.2.key y.2.key = .lt := List.pairwise_map.1 h

omit [Ord K] [TransOrd K] in
/-- Entries have nothing to do with slots. -/
theorem entries_bare (p : Placed (Node K V T)) :
    p.bare.entries = p.toList.map fun x => x.2.entry := by
  rw [entries, bare, toList_map, List.map_map]
  rfl

/-- A tree with increasing keys has no node twice, for it would have its key twice. -/
theorem nodup_slots (hp : s.Unfolds p) (h : Increasing p.bare.entries) : p.slots.Nodup := by
  rw [entries_bare] at h
  exact nodup_of_read (fun x hx => read_of_mem hp hx) (pairwise_of_increasing h)

omit [Ord K] [TransOrd K] in
/-- There are no more live slots than the store counts. -/
theorem length_le_live (hsound : s.Sound c F) {slots : List Nat} (hnodup : slots.Nodup)
    (hlive : ∀ i ∈ slots, s.contains i) : slots.length ≤ s.live := by
  have hsub : slots ⊆ (List.range s.fresh).filter s.contains := by
    intro i hi
    have hcontains := hlive i hi
    exact List.mem_filter.2 ⟨List.mem_range.2 (hsound.stocked.unused i hcontains), hcontains⟩
  have hle := (List.subperm_of_subset hnodup hsub).length_le
  rwa [← List.countP_eq_length_filter, ← hsound.stocked.live_eq_countP] at hle

/-- A kept tree in order has no more entries than there are live slots. -/
theorem count_le_live (hsound : s.Sound c F) (hp : s.Unfolds p)
    (h : Increasing p.bare.entries) : p.count ≤ s.live := by
  have hle := length_le_live hsound (nodup_slots hp h) fun i hi => contains_of_mem_slots hp hi
  rwa [slots, List.length_map, length_toList] at hle

/-- There are no more live slots than were handed out, and no more of those than the configuration
and the width of a slot number allow. -/
theorem Stocked.live_le {s : Store δ} (h : s.Stocked c) :
    s.live ≤ s.fresh ∧ s.fresh ≤ s.limit ∧ s.limit ≤ c.maxNodes ∧ s.limit ≤ 4294967294 := by
  have htotal := h.total
  have hfresh := h.fresh_le
  have hlimit := h.limit_eq
  have hmax : maxPlaces = 4294967294 := rfl
  omega

/-- So it has no more nodes than there are slots. -/
theorem count_lt_of_unfolds (hsound : s.Sound c F) (hp : s.Unfolds p)
    (h : Increasing p.bare.entries) : p.count < 4294967296 := by
  have hle := count_le_live hsound hp h
  have hlive := hsound.stocked.live_le
  omega

end Store

end SharedForest

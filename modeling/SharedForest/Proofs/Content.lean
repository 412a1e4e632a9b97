/-
What trees contain.

Whatever is done to a tree moves entries about without changing the order they stand in.
So the entries of every result are the entries of its parts one after another, and this
holds of any trees and any comparison of keys: a tree with wrong caches is put together
in an odd shape, but none of its entries is lost.  The laws are equations on lists, one
for each function.
-/
import SharedForest.Proofs.Plain

set_option autoImplicit false

namespace SharedForest

namespace Tree

variable {γ K V T : Type} (aug : Augment K V T)
  {t l r tl tr : NodeTree K V T} {d : Node K V T} {k : K} {v : V} {c : Color}

/-- An absent tree has none. -/
@[simp] theorem entries_absent : (absent : NodeTree K V T).entries = [] := rfl

/-- The entry of a node stands between those of its subtrees. -/
@[simp] theorem entries_node (l r : NodeTree K V T) (d : Node K V T) :
    (node l d r).entries = l.entries ++ d.entry :: r.entries := by
  simp [entries, toList]

/-- There is one entry for each node. -/
@[simp] theorem length_entries (t : NodeTree K V T) : t.entries.length = t.count := by
  rw [entries, List.length_map, length_toList]

/-- A node with the same key and value contributes the same. -/
@[simp] theorem entries_assemble :
    (assemble aug l k v c r).entries = l.entries ++ (k, v) :: r.entries :=
  entries_node l r _

/-- A color is no part of an entry. -/
@[simp] theorem entries_paint : (paint aug c t).entries = t.entries := by
  cases t with
  | absent => rfl
  | node l d r =>
    rw [paint]
    split
    · rfl
    · rw [entries_assemble, entries_node, Node.entry]

@[simp] theorem entries_blacken : (blacken aug t).entries = t.entries := entries_paint aug

/-! ## Joining -/

/-- A rotation to the left only moves the bracket. -/
theorem entries_mendRight :
    (mendRight aug l d r).entries = l.entries ++ d.entry :: r.entries := by
  cases r with
  | absent => rw [mendRight, entries_assemble, Node.entry]
  | node m e x =>
    rw [mendRight]
    split
    · -- The rotation only moves the bracket.
      simp only [entries_assemble, entries_blacken, entries_node, Node.entry, List.append_assoc,
        List.cons_append]
    · rw [entries_assemble, Node.entry]

/-- So does one to the right. -/
theorem entries_mendLeft :
    (mendLeft aug l d r).entries = l.entries ++ d.entry :: r.entries := by
  cases l with
  | absent => rw [mendLeft, entries_assemble, Node.entry]
  | node x e m =>
    rw [mendLeft]
    split
    · simp only [entries_assemble, entries_blacken, entries_node, Node.entry, List.append_assoc,
        List.cons_append]
    · rw [entries_assemble, Node.entry]

/-- By induction down the right side of the left tree. -/
theorem entries_joinRight :
    (joinRight aug k v tr tl).entries = tl.entries ++ (k, v) :: tr.entries := by
  induction tl with
  | absent => rw [joinRight, entries_assemble]
  | node l d r _ ih =>
    rw [joinRight]
    split
    · rw [entries_assemble]
    · rw [entries_mendRight, ih, entries_node, List.append_assoc, List.cons_append]

/-- By induction down the left side of the right tree. -/
theorem entries_joinLeft :
    (joinLeft aug k v tl tr).entries = tl.entries ++ (k, v) :: tr.entries := by
  induction tr with
  | absent => rw [joinLeft, entries_assemble]
  | node l d r ih _ =>
    rw [joinLeft]
    split
    · rw [entries_assemble]
    · rw [entries_mendLeft, ih, entries_node, List.append_assoc, List.cons_append]

/-- The new entry comes between those of the two trees, whichever of them is higher. -/
@[simp] theorem entries_join :
    (join aug tl k v tr).entries = tl.entries ++ (k, v) :: tr.entries := by
  rw [join]
  split
  · dsimp only
    split
    · rw [entries_paint, entries_joinRight]
    · rw [entries_joinRight]
  · split
    · dsimp only
      split
      · rw [entries_paint, entries_joinLeft]
      · rw [entries_joinLeft]
    · rw [entries_assemble]

/-- The last entry is taken off the end, and the others stay. -/
theorem entries_splitLast :
    (splitLast aug l d r).1.entries ++ [(splitLast aug l d r).2]
      = l.entries ++ d.entry :: r.entries := by
  induction r generalizing l d with
  | absent => rw [splitLast, Node.entry, entries_absent]
  | node m e x _ ih =>
    rw [splitLast]
    dsimp only
    rw [entries_join, List.append_assoc, List.cons_append, ih, entries_node]
    rfl

/-- One tree's entries and then the other's. -/
@[simp] theorem entries_append : (append aug tl tr).entries = tl.entries ++ tr.entries := by
  cases tl with
  | absent => rfl
  | node l d r =>
    have hlast := entries_splitLast aug (l := l) (d := d) (r := r)
    rw [append, entries_join, entries_node, ← hlast, List.append_assoc]
    rfl

/-! ## Splitting -/

/-- A split loses nothing: the entry that was found, if any, goes between the two parts. -/
theorem entries_split (order : K → Ordering) :
    (split aug order t).below.entries ++ (split aug order t).found.toList
      ++ (split aug order t).above.entries = t.entries := by
  induction t with
  | absent => rfl
  | node l d r ihl ihr =>
    rw [split, entries_node]
    cases order d.key with
    | lt =>
      dsimp only
      rw [entries_join, ← ihl, Node.entry]
      simp only [List.append_assoc]
    | gt =>
      dsimp only
      rw [entries_join, ← ihr, Node.entry]
      simp only [List.append_assoc, List.cons_append]
    | eq =>
      dsimp only
      rw [Option.toList_some, List.append_assoc, List.singleton_append, Node.entry]

/-! ## How much -/

/-- A join has one node more than its parts. -/
theorem count_join : (join aug tl k v tr).count = tl.count + 1 + tr.count := by
  rw [← length_entries, entries_join, List.length_append, List.length_cons, length_entries,
    length_entries]
  omega

/-- The two parts of a split have no more nodes than the tree. -/
theorem count_split_le (order : K → Ordering) (t : NodeTree K V T) :
    (split aug order t).below.count + (split aug order t).above.count ≤ t.count := by
  have hlen := congrArg List.length (entries_split aug (t := t) order)
  simp only [List.length_append, length_entries] at hlen
  omega

/-- A union has no more entries than both trees together, however keys compare. -/
theorem count_union_le [Ord K] (merge : K → V → V → γ → V × γ) (t₁ t₂ : NodeTree K V T) (g : γ) :
    (union aug merge t₁ t₂ g).1.count ≤ t₁.count + t₂.count := by
  induction t₂ generalizing t₁ g with
  | absent =>
    rw [union]
    exact Nat.le_refl _
  | node l d r ihl ihr =>
    cases t₁ with
    | absent =>
      rw [union]
      exact Nat.le_add_left _ _
    | node tl e tr =>
      rw [union]
      dsimp only
      -- Each half of the first tree goes to one child of the second.
      have hsplit := count_split_le aug (sought d.key) (node tl e tr)
      have hl := ihl (split aug (sought d.key) (node tl e tr)).below
        (settle merge (split aug (sought d.key) (node tl e tr)).found d g).2
      have hr := ihr (split aug (sought d.key) (node tl e tr)).above
        (union aug merge (split aug (sought d.key) (node tl e tr)).below l
          (settle merge (split aug (sought d.key) (node tl e tr)).found d g).2).2
      rw [count_join]
      simp only [count] at hsplit ⊢
      omega

/-! ## Building -/

/-- A level takes its entries off the front of the list, in order. -/
theorem entries_buildLevel (redDepth : Nat) (items : List (K × V)) (n depth : Nat)
    (hn : n ≤ items.length) :
    (buildLevel aug redDepth items n depth).1.entries = items.take n := by
  -- Both halves are smaller, but neither is the predecessor.
  induction n using Nat.strongRecOn generalizing items depth with
  | ind n ih =>
    rw [buildLevel]
    by_cases h0 : n = 0
    · rw [if_pos h0, h0, List.take_zero, entries_absent]
    · obtain ⟨⟨k, v⟩, rest, hrest, hlen, -⟩ := exists_middle h0 hn
      rw [if_neg h0]
      dsimp only
      rw [buildLevel_rest aug redDepth items ((n - 1) / 2) (depth + 1) (by omega), hrest]
      dsimp only
      rw [entries_assemble, ih ((n - 1) / 2) (by omega) items (depth + 1) (by omega),
        ih (n - 1 - (n - 1) / 2) (by omega) rest (depth + 1) hlen]
      -- What is to the left of the middle, the middle, and what is to its right.
      have hsplit : n = (n - 1) / 2 + (1 + (n - 1 - (n - 1) / 2)) := by omega
      conv_rhs => rw [hsplit, List.take_add, hrest, Nat.add_comm 1, List.take_succ_cons]

/-- A tree that is built from a list has the entries of the list. -/
theorem entries_build (items : List (K × V)) :
    (build aug items items.length).entries = items := by
  rw [build, entries_buildLevel aug _ items _ 0 (Nat.le_refl _), List.take_length]

end Tree

end SharedForest

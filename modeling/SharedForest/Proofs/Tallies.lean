/-
Sizes are exact wherever a node is made.

The size of a node is a word, and it is added up from the sizes that are kept at the two subtrees
below.  That the sum does not wrap is nothing local.  The keys of the two subtrees and of the new
entry increase, so no node occurs twice, neither in one of them nor in both, although subtrees are
shared freely; so together they have no more entries than there are live places, and a slot is a
word already.  That is `tallied_of_adjoining`.

So at every call of `assemble` there is one thing to be shown, that the operands and the entry stand
in order, `Adjoining`.  Each function below is given operands that do, and hands on such operands:
the entries of what it passes are part of the entries it was given, in the same order.
-/
import SharedForest.Proofs.Making
import SharedForest.Proofs.Fold

set_option autoImplicit false

namespace SharedForest

open Tree Store StoreM Std

variable {γ K Q V T : Type}

/-! ## Nodes that fit -/

/-- A node may be put over `p` and `q`: they have no slot in common and none twice, and the word
that is kept as its size is the number of its entries. -/
structure Tallies (s : NodeStore K V T) (p q : Placed (Node K V T)) : Prop where
  left : s.Unfolds p
  right : s.Unfolds q
  nodup : (p.slots ++ q.slots).Nodup
  fits : 1 + p.bare.size.toNat + q.bare.size.toNat ≤ 4294967295
  sum : (1 + p.bare.size + q.bare.size).toNat = p.count + 1 + q.count

/-- The same, of the trees at two slots. -/
def Tallied (s : NodeStore K V T) (l r : Option Nat) : Prop :=
  ∃ p q, p.root = l ∧ q.root = r ∧ Tallies s p q

/-- Two trees with right caches, and an entry that has its place between them. -/
structure Adjoining [Ord K] (aug : Augment K V T) (l : NodeTree K V T) (e : K × V)
    (r : NodeTree K V T) : Prop where
  left : Cached aug l
  right : Cached aug r
  increasing : Increasing (l.entries ++ e :: r.entries)

namespace Tree

variable {t l r : NodeTree K V T} {d : Node K V T}

/-- The entries of a subtree are some of those of the tree, in the same order. -/
theorem sublist_left : List.Sublist l.entries (node l d r).entries := by
  rw [entries_node]
  exact List.sublist_append_left _ _

theorem sublist_right : List.Sublist r.entries (node l d r).entries := by
  rw [entries_node]
  exact (List.sublist_cons_self _ _).trans (List.sublist_append_right _ _)

/-- What is left when the last entry is taken out has no other entries than before. -/
theorem sublist_splitLast (aug : Augment K V T) :
    List.Sublist (splitLast aug l d r).1.entries (node l d r).entries := by
  rw [entries_node, ← entries_splitLast aug]
  exact List.sublist_append_left _ _

variable (aug : Augment K V T) (order : K → Ordering) in
/-- Neither part of a split has an entry that the tree did not have. -/
theorem sublist_below : List.Sublist (split aug order t).below.entries t.entries := by
  rw [← entries_split aug order (t := t), List.append_assoc]
  exact List.sublist_append_left _ _

variable (aug : Augment K V T) (order : K → Ordering) in
theorem sublist_above : List.Sublist (split aug order t).above.entries t.entries := by
  rw [← entries_split aug order (t := t)]
  exact List.sublist_append_right _ _

end Tree

section

variable [Ord K] {aug : Augment K V T} {t l l' r r' : NodeTree K V T} {d : Node K V T} {e : K × V}

/-- The entry at the root of an orderly tree stands between the subtrees. -/
theorem Orderly.adjoining (h : Orderly aug (node l d r)) : Adjoining aug l d.entry r :=
  ⟨h.cached.2.1, h.cached.2.2, by simpa using h.increasing⟩

/-- Below a node of an orderly tree the trees are orderly. -/
theorem Orderly.left (h : Orderly aug (node l d r)) : Orderly aug l :=
  ⟨h.cached.2.1, h.increasing.sublist sublist_left⟩

theorem Orderly.right (h : Orderly aug (node l d r)) : Orderly aug r :=
  ⟨h.cached.2.2, h.increasing.sublist sublist_right⟩

/-- Both parts of a split are orderly. -/
theorem Orderly.split (h : Orderly aug t) (order : K → Ordering) :
    Orderly aug (Tree.split aug order t).below ∧ Orderly aug (Tree.split aug order t).above := by
  have hparts := cached_split order h.cached
  exact ⟨⟨hparts.1, h.increasing.sublist (sublist_below aug order)⟩,
    hparts.2, h.increasing.sublist (sublist_above aug order)⟩

namespace Adjoining

/-- A tree that has less on the left. -/
theorem shrink_left (h : Adjoining aug l e r) (hc : Cached aug l')
    (hsub : List.Sublist l'.entries l.entries) : Adjoining aug l' e r :=
  ⟨hc, h.right, h.increasing.sublist (hsub.append_right _)⟩

/-- A tree that has less on the right. -/
theorem shrink_right (h : Adjoining aug l e r) (hc : Cached aug r')
    (hsub : List.Sublist r'.entries r.entries) : Adjoining aug l e r' :=
  ⟨h.left, hc, h.increasing.sublist ((hsub.cons_cons e).append_left _)⟩

/-! The same entries, and right caches. -/

/-- The join that goes down the left tree, on its right side. -/
theorem joinRight (h : Adjoining aug l e r) : Orderly aug (Tree.joinRight aug e.1 e.2 r l) := by
  refine ⟨cached_joinRight h.left h.right, ?_⟩
  rw [entries_joinRight]
  exact h.increasing

/-- The join that goes down the right tree, on its left side. -/
theorem joinLeft (h : Adjoining aug l e r) : Orderly aug (Tree.joinLeft aug e.1 e.2 l r) := by
  refine ⟨cached_joinLeft h.left h.right, ?_⟩
  rw [entries_joinLeft]
  exact h.increasing

/-- Whichever way a join goes, the whole is orderly. -/
theorem join (h : Adjoining aug l e r) : Orderly aug (Tree.join aug l e.1 e.2 r) := by
  refine ⟨cached_join h.left h.right, ?_⟩
  rw [entries_join]
  exact h.increasing

end Adjoining

end

section

variable [Ord K] [TransOrd K] {aug : Augment K V T} {s : NodeStore K V T} {c : Config}
  {F : Multiset (Placed (Node K V T))} {p q : Placed (Node K V T)} {e : K × V}

/-- Each of two adjoining trees is orderly by itself. -/
theorem Adjoining.orderly_left {l r : NodeTree K V T} (h : Adjoining aug l e r) : Orderly aug l :=
  ⟨h.left, (increasing_middle.1 h.increasing).1⟩

theorem Adjoining.orderly_right {l r : NodeTree K V T} (h : Adjoining aug l e r) : Orderly aug r :=
  ⟨h.right, (increasing_middle.1 h.increasing).2.1⟩

/-- Kept trees with an entry between them have all their nodes at different places. -/
theorem Adjoining.nodup (h : Adjoining aug p.bare e q.bare) (hp : s.Unfolds p)
    (hq : s.Unfolds q) : (p.slots ++ q.slots).Nodup := by
  rw [slots, slots, ← List.map_append]
  refine nodup_of_read (s := s) (fun x hx => ?_) (pairwise_of_increasing ?_)
  · rcases List.mem_append.1 hx with hx | hx
    · exact read_of_mem hp hx
    · exact read_of_mem hq hx
  · rw [List.map_append, ← entries_bare, ← entries_bare]
    exact h.increasing.sublist ((List.sublist_cons_self _ _).append_left _)

/-- Adjoining trees may be put under one node. All their nodes are at different places and live, and
the live places are fewer than a word can count, so the sum of the sizes does not wrap. -/
theorem tallied_of_adjoining (hsound : s.Sound c F) (hp : s.Unfolds p) (hq : s.Unfolds q)
    (h : Adjoining aug p.bare e q.bare) : Tallied s p.root q.root := by
  have hnodup := h.nodup hp hq
  have hlive : (p.slots ++ q.slots).length ≤ s.live := by
    refine length_le_live hsound hnodup fun i hi => ?_
    rcases List.mem_append.1 hi with hi | hi
    · exact contains_of_mem_slots hp hi
    · exact contains_of_mem_slots hq hi
  rw [List.length_append, slots, slots, List.length_map, List.length_map, length_toList,
    length_toList] at hlive
  have hwidth := hsound.stocked.live_le
  have hsize := h.orderly_left.size_toNat hsound hp
  have hsize' := h.orderly_right.size_toNat hsound hq
  have hone : (1 : UInt32).toNat = 1 := rfl
  refine ⟨p, q, rfl, rfl, hp, hq, hnodup, by omega, ?_⟩
  rw [UInt32.toNat_add, UInt32.toNat_add, hsize, hsize', hone]
  omega

end

/-! ## Functions on subtrees -/

namespace Subtree

variable [Ord K] [TransOrd K] {s : NodeStore K V T} {c : Config}
  {F : Multiset (Placed (Node K V T))} {p l r : Placed (Node K V T)} {i : Nat} {d : Node K V T}
  (aug : Augment K V T)

/-- The one place where a node is made: its operands adjoin. -/
theorem builds_assemble (k : K) (v : V) (col : Color) (h : s.Sound c (F + {l} + {r}))
    (hadj : Adjoining aug l.bare (k, v) r.bare) :
    Builds Tallied (assemble aug l.root k v col r.root) s :=
  .of_makes (.assemble aug k v col
    (tallied_of_adjoining h (h.unfolds (by simp)) h.unfolds_last hadj))

/-- A node that gets another color is made anew, from what hung at the old one. -/
theorem builds_paint (col : Color) (h : s.Sound c (F + {p})) (hi : p.root = some i)
    (ho : Orderly aug p.bare) : Builds Tallied (paint aug i col) s := by
  obtain ⟨l, d, r, rfl⟩ := Tree.eq_node_of_root hi
  rw [paint]
  refine .look inferInstance (read_eq h.unfolds_last) ?_
  dsimp only
  by_cases hcol : d.color = col
  · rw [if_pos hcol]
    exact .leaves (.pure _)
  · rw [if_neg hcol]
    refine .bind (.of_makes (.expose i)) (expose_spec h) fun e s₁ h₁ => ?_
    obtain ⟨rfl, h₁⟩ := h₁
    exact builds_assemble aug _ _ _ h₁ ho.adjoining

/-- Only a red root is made anew. -/
theorem builds_blacken (h : s.Sound c (F + {p})) (ho : Orderly aug p.bare) :
    Builds Tallied (blacken aug p.root) s := by
  cases p with
  | absent => exact .leaves (.pure _)
  | node l d r => exact .map _ (builds_paint aug .black h rfl ho)

/-! ## Joining -/

/-- A rotation makes two nodes, and paints one.  The operands of both adjoin because all that
changes is where the brackets are. -/
theorem builds_mendRight (h : s.Sound c (F + {l} + {p})) (hi : p.root = some i)
    (right : Option Nat) (hadj : Adjoining aug l.bare d.entry p.bare) :
    Builds Tallied (mendRight aug ⟨l.root, d.key, d.value, d.color, right⟩ i) s := by
  have hplain : Builds Tallied (assemble aug l.root d.key d.value d.color (some i)) s := by
    rw [← hi]
    exact builds_assemble aug d.key d.value d.color h hadj
  obtain ⟨rl, e, rr, rfl⟩ := Tree.eq_node_of_root hi
  rw [mendRight]
  refine .look inferInstance (pairRight_eq h.unfolds_last d.color) ?_
  by_cases hcond : d.color = .black ∧ e.color = .red ∧ rr.bare.isRed
  · rw [if_pos (by simpa using hcond)]
    have hright : Orderly aug rr.bare := hadj.orderly_right.right
    refine .exposing h fun s₁ h₁ => ?_
    refine .bind (.guarding (builds_blacken aug h₁ hright))
      (.guarding_two rl l (blacken_spec aug (h₁.cast (by abel)))) fun root s₂ h₂ => ?_
    obtain ⟨x, rfl, hx, h₂⟩ := h₂
    have hinner : Adjoining aug l.bare d.entry rl.bare :=
      hadj.shrink_right hadj.right.2.1 sublist_left
    refine .bind (.guarding (builds_assemble aug _ _ .black
        (h₂.cast (by abel) : s₂.Sound c (F + {x} + {l} + {rl})) hinner))
      (.guarding_one x (assemble_spec aug _ _ _ (h₂.cast (by abel)))) fun top s₃ h₃ => ?_
    obtain ⟨y, hy, hy', h₃⟩ := h₃
    rw [← hy]
    refine builds_assemble aug _ _ _ (h₃.cast (by abel) : s₃.Sound c (F + {y} + {x})) ?_
    -- The rotation only moves the bracket.
    rw [hy', hx]
    refine ⟨cached_assemble.2 ⟨hinner.left, hinner.right⟩, cached_paint hright.cached, ?_⟩
    have hincr := hadj.increasing
    rw [entries_assemble, entries_blacken, List.append_assoc, List.cons_append]
    rwa [Tree.bare_node, entries_node] at hincr
  · rw [if_neg (by simpa using hcond)]
    exact hplain

/-- The mirror image of `builds_mendRight`. -/
theorem builds_mendLeft (h : s.Sound c (F + {r} + {p})) (hi : p.root = some i)
    (left : Option Nat) (hadj : Adjoining aug p.bare d.entry r.bare) :
    Builds Tallied (mendLeft aug ⟨left, d.key, d.value, d.color, r.root⟩ i) s := by
  have hplain : Builds Tallied (assemble aug (some i) d.key d.value d.color r.root) s := by
    rw [← hi]
    exact builds_assemble aug d.key d.value d.color (h.cast (by abel)) hadj
  obtain ⟨ll, e, lr, rfl⟩ := Tree.eq_node_of_root hi
  rw [mendLeft]
  refine .look inferInstance (pairLeft_eq h.unfolds_last d.color) ?_
  by_cases hcond : d.color = .black ∧ e.color = .red ∧ ll.bare.isRed
  · rw [if_pos (by simpa using hcond)]
    -- Two red nodes in a row: the left child is taken apart, and its left child is painted black.
    have hleft : Orderly aug ll.bare := hadj.orderly_left.left
    refine .exposing h fun s₁ h₁ => ?_
    refine .bind (.guarding (builds_blacken aug (F := F + {r} + {lr}) (h₁.cast (by abel)) hleft))
      (.guarding_two lr r (blacken_spec aug (h₁.cast (by abel)))) fun root s₂ h₂ => ?_
    obtain ⟨x, rfl, hx, h₂⟩ := h₂
    -- The right part of the child comes under the old root, and both under the child.
    have hinner : Adjoining aug lr.bare d.entry r.bare :=
      hadj.shrink_left hadj.left.2.2 sublist_right
    refine .bind (.guarding (builds_assemble aug _ _ .black
        (h₂.cast (by abel) : s₂.Sound c (F + {x} + {lr} + {r})) hinner))
      (.guarding_one x (assemble_spec aug _ _ _ (h₂.cast (by abel)))) fun top s₃ h₃ => ?_
    obtain ⟨y, hy, hy', h₃⟩ := h₃
    rw [← hy]
    refine builds_assemble aug _ _ _ h₃ ?_
    rw [hy', hx]
    refine ⟨cached_paint hleft.cached, cached_assemble.2 ⟨hinner.left, hinner.right⟩, ?_⟩
    have hincr := hadj.increasing
    rw [Tree.bare_node, entries_node, List.append_assoc, List.cons_append] at hincr
    rwa [entries_assemble, entries_blacken]
  · rw [if_neg (by simpa using hcond)]
    exact hplain

/-- By induction on the steps that are left: what the join below gives has the entries of the
subtree it replaces, then the new one and those of the right tree, and so it adjoins what is to the
left of it. -/
theorem builds_joinRight (k : K) (v : V) {n : Nat} {tl tr : Placed (Node K V T)}
    (hn : tl.depth < n) (h : s.Sound c (F + {tl} + {tr}))
    (hadj : Adjoining aug tl.bare (k, v) tr.bare) :
    Builds Tallied (joinRight aug n tl.root k v tr.root) s := by
  induction n generalizing tl s F with
  | zero => exact absurd hn (Nat.not_lt_zero _)
  | succ n ih =>
    have hhung := builds_assemble aug k v .red h hadj
    rw [joinRight]
    refine .look inferInstance (height_eq h.unfolds_last) ?_
    cases tl with
    | absent => exact hhung
    | node l d r =>
      obtain ⟨i, d⟩ := d
      have hnode : s.Unfolds (.node l (i, d) r) := h.unfolds (by simp)
      rw [Tree.root_node]
      dsimp only
      refine .look inferInstance (read_eq hnode) ?_
      by_cases hhere : d.color = .black ∧ d.height = tr.bare.height
      · rw [if_pos hhere]
        exact hhung
      · rw [if_neg hhere]
        have hr : r.depth < n := by
          simp only [Tree.depth] at hn
          omega
        -- The root is taken off, and the join goes on with its right child.
        refine .exposing (F := F + {tr}) (h.cast (by abel)) fun s₁ h₁ => ?_
        have hdeep : Adjoining aug r.bare (k, v) tr.bare :=
          hadj.shrink_left hadj.left.2.2 sublist_right
        have hown : s₁.Sound c (F + {l} + {r} + {tr}) := h₁.cast (by abel)
        refine .bind (.guarding (ih hr hown hdeep))
          (.guarding_one l (joinRight_spec aug k v hr hown)) fun i' s₂ h₂ => ?_
        obtain ⟨p, hi, hp, h₂⟩ := h₂
        refine builds_mendRight aug h₂ hi _ ?_
        rw [hp]
        refine ⟨hadj.left.2.1, cached_joinRight hdeep.left hdeep.right, ?_⟩
        have hincr := hadj.increasing
        rw [Tree.bare_node, entries_node, List.append_assoc, List.cons_append] at hincr
        -- The entries are the same list, in other brackets.
        rwa [entries_joinRight]

/-- The mirror image of `builds_joinRight`. -/
theorem builds_joinLeft (k : K) (v : V) {n : Nat} {tl tr : Placed (Node K V T)}
    (hn : tr.depth < n) (h : s.Sound c (F + {tl} + {tr}))
    (hadj : Adjoining aug tl.bare (k, v) tr.bare) :
    Builds Tallied (joinLeft aug n tl.root k v tr.root) s := by
  induction n generalizing tr s F with
  | zero => exact absurd hn (Nat.not_lt_zero _)
  | succ n ih =>
    have hhung := builds_assemble aug k v .red h hadj
    rw [joinLeft]
    refine .look inferInstance (height_eq (h.unfolds (by simp))) ?_
    cases tr with
    | absent => exact hhung
    | node l d r =>
      obtain ⟨i, d⟩ := d
      rw [Tree.root_node]
      dsimp only
      refine .look inferInstance (read_eq h.unfolds_last) ?_
      by_cases hhere : d.color = .black ∧ d.height = tl.bare.height
      · rw [if_pos hhere]
        exact hhung
      · rw [if_neg hhere]
        have hl : l.depth < n := by
          simp only [Tree.depth] at hn
          omega
        refine .exposing h fun s₁ h₁ => ?_
        have hdeep : Adjoining aug tl.bare (k, v) l.bare :=
          hadj.shrink_right hadj.right.2.1 sublist_left
        have hown : s₁.Sound c (F + {r} + {tl} + {l}) := h₁.cast (by abel)
        refine .bind (.guarding (ih hl hown hdeep))
          (.guarding_one r (joinLeft_spec aug k v hl hown)) fun i' s₂ h₂ => ?_
        obtain ⟨p, hi, hp, h₂⟩ := h₂
        refine builds_mendLeft aug h₂ hi _ ?_
        rw [hp]
        refine ⟨cached_joinLeft hdeep.left hdeep.right, hadj.right.2.2, ?_⟩
        have hincr := hadj.increasing
        rw [Tree.bare_node, entries_node] at hincr
        rwa [entries_joinLeft, List.append_assoc, List.cons_append]

/-- The last step of a join: if the root and a child of it are red, the root is painted. -/
theorem builds_mendRoot {pair : NodeM K V T Bool} {red : Bool} (h : s.Sound c (F + {p}))
    (hi : p.root = some i) (hlook : Leaves Stores.store pair) (hpair : pair s = .ok red s)
    (ho : Orderly aug p.bare) :
    Builds Tallied (do
      let redPair ← guarding [i] pair
      if redPair then paint aug i .black else pure i : NodeM K V T Nat) s := by
  refine .look hlook hpair ?_
  cases red
  · exact .leaves (.pure _)
  · exact builds_paint aug .black h hi ho

/-- All nodes that a join of adjoining trees makes are tallied, whichever of them is higher. -/
theorem builds_join (k : K) (v : V) {tl tr : Placed (Node K V T)}
    (h : s.Sound c (F + {tl} + {tr})) (hadj : Adjoining aug tl.bare (k, v) tr.bare) :
    Builds Tallied (join aug tl.root k v tr.root) s := by
  have hl : s.Unfolds tl := h.unfolds (by simp)
  have hr : s.Unfolds tr := h.unfolds (by simp)
  rw [join]
  refine .look inferInstance (heights_eq hl hr) ?_
  dsimp only
  by_cases hlt : tr.bare.height < tl.bare.height
  · rw [if_pos hlt]
    refine .step (.leaves inferInstance) depthBound_eq ?_
    have hn := h.depth_lt hl
    refine .bind (builds_joinRight aug k v hn h hadj) (joinRight_spec aug k v hn h)
      fun i s₁ h₁ => ?_
    obtain ⟨p, hi, hp, h₁⟩ := h₁
    refine builds_mendRoot aug h₁ hi inferInstance (redPairRight_eq h₁.unfolds_last hi) ?_
    rw [hp]
    exact hadj.joinRight
  rw [if_neg hlt]
  by_cases hgt : tl.bare.height < tr.bare.height
  · rw [if_pos hgt]
    refine .step (.leaves inferInstance) depthBound_eq ?_
    have hn := h.depth_lt hr
    refine .bind (builds_joinLeft aug k v hn h hadj) (joinLeft_spec aug k v hn h)
      fun i s₁ h₁ => ?_
    obtain ⟨p, hi, hp, h₁⟩ := h₁
    refine builds_mendRoot aug h₁ hi inferInstance (redPairLeft_eq h₁.unfolds_last hi) ?_
    rw [hp]
    exact hadj.joinLeft
  rw [if_neg hgt]
  refine .look inferInstance (eitherRed_eq hl hr) ?_
  exact builds_assemble aug k v _ h hadj

/-! ## Putting two trees side by side -/

/-- On the way back from the last entry each node is joined with what is left on its right, which is
less than there was. -/
theorem builds_splitLastFor {n : Nat} (hn : (Tree.node l (i, d) r).depth < n)
    (h : s.Sound c (F + {.node l (i, d) r})) (ho : Orderly aug (Tree.node l (i, d) r).bare) :
    Builds Tallied (splitLastFor aug n i) s := by
  induction n generalizing l i d r s F with
  | zero => exact absurd hn (Nat.not_lt_zero _)
  | succ n ih =>
    rw [splitLastFor]
    refine .bind_of_lasting (.of_makes (.expose i)) (expose_spec h) (fun e s₁ h₁ => ?_) fun e => ?_
    · obtain ⟨rfl, h₁⟩ := h₁
      cases r with
      | absent => exact .leaves (.pure _)
      | node rl e rr =>
        obtain ⟨j, e⟩ := e
        have hr : (Tree.node rl (j, e) rr).depth < n := by
          simp only [Tree.depth] at hn ⊢
          omega
        refine .bind (.guarding (ih hr h₁ ho.right))
          (.guarding_one l (splitLastFor_spec aug hr h₁)) fun res s₂ h₂ => ?_
        obtain ⟨root, k, v⟩ := res
        obtain ⟨-, p, rfl, hp, h₂⟩ := h₂
        -- What is left of the right subtree is less than all of it.
        have hadj : Adjoining aug l.bare (d.key, d.value) p.bare := by
          refine ho.adjoining.shrink_right ?_ ?_
          · rw [hp]
            exact cached_splitLast ho.right.cached.2.1 ho.right.cached.2.2
          · rw [hp]
            exact sublist_splitLast aug
        exact .finish (builds_join aug d.key d.value h₂ hadj) inferInstance
          fun top s₃ => .leaves (.pure _)
    · cases e.right with
      | none => infer_instance
      | some j =>
        refine .bind lasting_guarding fun res => ?_
        obtain ⟨r, k, v⟩ := res
        infer_instance

/-- Two trees without an entry between them are joined over the last entry of the first. -/
theorem builds_append {tl tr : Placed (Node K V T)} (h : s.Sound c (F + {tl} + {tr}))
    (hl : Cached aug tl.bare) (hr : Cached aug tr.bare)
    (hincr : Increasing (tl.bare.entries ++ tr.bare.entries)) :
    Builds Tallied (append aug tl.root tr.root) s := by
  cases tl with
  | absent => exact .leaves (.pure _)
  | node l d r =>
    obtain ⟨i, d⟩ := d
    have hdepth := h.depth_lt (h.unfolds (p := .node l (i, d) r) (by simp))
    have hown : s.Sound c (F + {tr} + {.node l (i, d) r}) := h.cast (by abel)
    have ho : Orderly aug (Tree.node l (i, d) r).bare :=
      ⟨hl, hincr.sublist (List.sublist_append_left _ _)⟩
    rw [Tree.root_node, append]
    refine .bind (.guarding ?_) (.guarding_one tr (splitLast_spec aug hown)) fun res s₁ h₁ => ?_
    · rw [splitLast]
      exact .step (.leaves inferInstance) depthBound_eq (builds_splitLastFor aug hdepth hown ho)
    · obtain ⟨root, k, v⟩ := res
      obtain ⟨hkv, p, rfl, hp, h₁⟩ := h₁
      refine .map _ (builds_join aug k v (h₁.cast (by abel)) ⟨?_, hr, ?_⟩)
      · rw [hp]
        exact cached_splitLast hl.2.1 hl.2.2
      · -- The last entry comes before all of the other tree.
        rw [Tree.bare_node, entries_node, ← entries_splitLast aug, ← hkv, ← hp,
          List.append_assoc] at hincr
        exact hincr

/-! ## Splitting -/

/-- On the way back from the key each node is joined with what is left on the side where the key
went. -/
theorem builds_splitFor [Ord Q] [KeyView K Q] (key : Q) {n : Nat} (hn : p.depth ≤ n)
    (h : s.Sound c (F + {p})) (ho : Orderly aug p.bare) :
    Builds Tallied (splitFor aug key n p.root) s := by
  induction n generalizing p s F with
  | zero =>
    cases p with
    | absent => exact .leaves (.pure _)
    | node l d r => exact absurd hn (Nat.not_succ_le_zero _)
  | succ n ih =>
    cases p with
    | absent => exact .leaves (.pure _)
    | node l d r =>
      obtain ⟨i, d⟩ := d
      have hdepth : l.depth ≤ n ∧ r.depth ≤ n := by
        simp only [Tree.depth] at hn
        omega
      have hadj : Adjoining aug l.bare d.entry r.bare := ho.adjoining
      rw [Tree.root_node, splitFor]
      refine .look inferInstance (read_eq h.unfolds_last) ?_
      dsimp only
      refine .bind_of_lasting (.of_makes (.expose i)) (expose_spec h) (fun e s₁ h₁ => ?_)
        fun e => ?_
      · obtain ⟨rfl, h₁⟩ := h₁
        cases sought key d.key with
        | eq => exact .leaves (.pure _)
        | lt =>
          have hown : s₁.Sound c (F + {r} + {l}) := h₁.cast (by abel)
          refine .bind (.guarding (ih hdepth.1 hown ho.left))
            (.guarding_one r (splitFor_spec aug key hdepth.1 hown)) fun res s₂ h₂ => ?_
          obtain ⟨p, q, rfl, -, hq, h₂⟩ := h₂
          have hparts : s₂.Sound c (F + {p} + {q} + {r}) := h₂.cast (by abel)
          -- What is above the key in the left child still comes before the root, and the right
          -- child after it.
          have hjoin : Adjoining aug q.bare (d.key, d.value) r.bare := by
            rw [hq]
            exact hadj.shrink_left (cached_split _ hadj.left).2 (sublist_above aug _)
          exact .finish (.guarding (builds_join aug d.key d.value hparts hjoin)) inferInstance
            fun top s₃ => .leaves (.pure _)
        | gt =>
          have hown : s₁.Sound c (F + {l} + {r}) := h₁.cast (by abel)
          refine .bind (.guarding (ih hdepth.2 hown ho.right))
            (.guarding_one l (splitFor_spec aug key hdepth.2 hown)) fun res s₂ h₂ => ?_
          obtain ⟨p, q, rfl, hp, -, h₂⟩ := h₂
          have hparts : s₂.Sound c (F + {q} + {l} + {p}) := h₂.cast (by abel)
          have hjoin : Adjoining aug l.bare (d.key, d.value) p.bare := by
            rw [hp]
            exact hadj.shrink_right (cached_split _ hadj.right).1 (sublist_below aug _)
          exact .finish (.guarding (builds_join aug d.key d.value hparts hjoin)) inferInstance
            fun top s₃ => .leaves (.pure _)
      · cases sought key d.key <;> infer_instance

/-- The bound on the steps is more than any held tree is deep. -/
theorem builds_split [Ord Q] [KeyView K Q] (key : Q) (h : s.Sound c (F + {p}))
    (ho : Orderly aug p.bare) : Builds Tallied (split aug p.root key) s := by
  have hdepth := Nat.le_of_lt (h.depth_lt h.unfolds_last)
  exact .step (.leaves inferInstance) depthBound_eq (builds_splitFor aug key hdepth h ho)

/-- What a split leaves on either side of the key adjoins over the new entry, since the result has
to be in order. -/
theorem builds_insert (k : K) (v : V) (h : s.Sound c (F + {p})) (ho : Orderly aug p.bare) :
    Builds Tallied (insert aug p.root k v) s := by
  have hincr := increasing_insert aug (k := k) (v := v) ho.increasing
  rw [Tree.insert, entries_paint, entries_join] at hincr
  refine .bind (builds_split aug k h ho) (split_spec aug k h) fun res s₁ h₁ => ?_
  obtain ⟨p₁, q₁, rfl, hp, hq, h₁⟩ := h₁
  rw [← hp, ← hq] at hincr
  have hparts := cached_split (sought k) ho.cached
  rw [← hp, ← hq] at hparts
  have hadj : Adjoining aug p₁.bare (k, v) q₁.bare := ⟨hparts.1, hparts.2, hincr⟩
  refine .bind (builds_join aug k v h₁ hadj) (join_spec aug k v h₁) fun i s₂ h₂ => ?_
  obtain ⟨p₂, hi, hp₂, h₂⟩ := h₂
  refine builds_paint aug .black h₂ hi ?_
  rw [hp₂]
  exact hadj.join

/-- The same without an entry between, and so with `append` for `join`. -/
theorem builds_remove [Ord Q] [KeyView K Q] (key : Q) (h : s.Sound c (F + {p}))
    (ho : Orderly aug p.bare) : Builds Tallied (remove aug p.root key) s := by
  have hincr := (increasing_parts aug (sought key) ho.increasing).2.2
  rw [Tree.remove, entries_blacken, entries_append] at hincr
  refine .bind (builds_split aug key h ho) (split_spec aug key h) fun res s₁ h₁ => ?_
  obtain ⟨p₁, q₁, rfl, hp, hq, h₁⟩ := h₁
  rw [← hp, ← hq] at hincr
  have hparts := cached_split (sought key) ho.cached
  rw [← hp, ← hq] at hparts
  refine .bind (builds_append aug h₁ hparts.1 hparts.2 hincr) (append_spec aug h₁)
    fun root s₂ h₂ => ?_
  obtain ⟨p₂, rfl, hp₂, h₂⟩ := h₂
  refine .finish (builds_blacken aug h₂ ?_) inferInstance fun root s₃ => .leaves (.pure _)
  rw [hp₂]
  refine ⟨cached_append hparts.1 hparts.2, ?_⟩
  rw [entries_append]
  exact hincr

/-! ## Uniting -/

/-- By induction on the steps that are left, along the tree whose nodes are taken apart.  The two
unions are parts of the whole, on either side of the root's entry, and the whole is in order by
`union_of_increasing`. -/
theorem builds_unionFor (merge : K → V → V → γ → V × γ) {n : Nat} {g : γ}
    {p q : Placed (Node K V T)} (hn : q.depth ≤ n) (h : s.Sound c (F + {p} + {q}))
    (hop : Orderly aug p.bare) (hoq : Orderly aug q.bare) :
    Builds Tallied (unionFor aug merge n p.root q.root) (s, g) := by
  induction n generalizing p q s F g with
  | zero =>
    cases q with
    | absent => exact .leaves (.pure _)
    | node l d r => exact absurd hn (Nat.not_succ_le_zero _)
  | succ n ih =>
    cases q with
    | absent => exact .leaves (.pure _)
    | node l d r =>
      obtain ⟨j, d⟩ := d
      cases p with
      | absent => exact .leaves (.pure _)
      | node tl e tr =>
        obtain ⟨i, e⟩ := e
        have hdepth : l.depth ≤ n ∧ r.depth ≤ n := by
          simp only [Tree.depth] at hn
          omega
        -- The entries of the whole union are in order, and the last join puts them together.
        have hincr := (union_of_increasing aug merge g hop.increasing hoq.increasing).1
        rw [Tree.bare_node, Tree.bare_node, Tree.union, entries_join] at hincr
        obtain ⟨hox, hoy⟩ := hop.split (sought d.key)
        simp only [Tree.root_node]
        rw [unionFor]
        refine .bind (.guardingCarrying (.lift (.of_makes (.expose j))))
          (.guarding_carrying_never (c := c) (F := F) (expose_spec h)) fun ex sg₁ h₁ => ?_
        obtain ⟨s₁, rfl, rfl, h₁⟩ := h₁
        have hown : s₁.Sound c (F + {l} + {r} + {.node tl (i, e) tr}) := h₁.cast (by abel)
        have hsplit := split_spec aug d.key hown
        rw [Tree.bare_node] at hsplit
        refine .bind (.guardingCarrying (.lift (builds_split aug d.key hown hop)))
          (.guarding_carrying_two l r (.lift hsplit)) fun res sg₂ h₂ => ?_
        obtain ⟨s₂, rfl, x, y, rfl, hx, hy, h₂⟩ := h₂
        refine .step (.leaves (leaves_settle _ _ _)) (settle_eq merge _) ?_
        rw [← hx, ← hy] at hincr
        rw [Tree.bare_node, ← hx] at hox
        rw [Tree.bare_node, ← hy] at hoy
        have hown₂ : s₂.Sound c (F + {y} + {r} + {x} + {l}) := h₂.cast (by abel)
        refine .bind (.guardingCarrying (ih hdepth.1 hown₂ hox hoq.left))
          (.guarding_carrying_two y r (unionFor_spec aug merge hdepth.1 hown₂))
          fun root sg₃ h₃ => ?_
        obtain ⟨s₃, rfl, below, rfl, hbelow, h₃⟩ := h₃
        have hown₃ : s₃.Sound c (F + {below} + {y} + {r}) := h₃.cast (by abel)
        refine .bind (.guardingCarrying (ih hdepth.2 hown₃ hoy hoq.right))
          (.guarding_carrying_one below (unionFor_spec aug merge hdepth.2 hown₃))
          fun root sg₄ h₄ => ?_
        obtain ⟨s₄, rfl, above, rfl, habove, h₄⟩ := h₄
        rw [← hbelow, ← habove] at hincr
        refine .map _ (.lift (builds_join aug d.key _ h₄ ⟨?_, ?_, hincr⟩))
        · rw [hbelow]
          exact cached_union merge _ hox.cached hoq.left.cached
        · rw [habove]
          exact cached_union merge _ hoy.cached hoq.right.cached

/-- A union of orderly trees starts with steps enough for the second of them. -/
theorem builds_union (merge : K → V → V → γ → V × γ) {g : γ} {p q : Placed (Node K V T)}
    (h : s.Sound c (F + {p} + {q})) (hop : Orderly aug p.bare) (hoq : Orderly aug q.bare) :
    Builds Tallied (union aug merge p.root q.root) (s, g) := by
  have hdepth := Nat.le_of_lt (h.depth_lt h.unfolds_last)
  exact .step (.lift (.leaves leaves_depthBound)) (CarryM.lift_of_ok depthBound_eq)
    (builds_unionFor aug merge hdepth h hop hoq)

/-! ## Building -/

/-- By strong induction on the number of entries taken: the first half, the one behind it and the
rest stand in the list as they will in the tree. -/
theorem builds_buildLevel (redDepth : Nat) (items : List (K × V)) {n : Nat} (depth : Nat)
    (hn : n ≤ items.length) (h : s.Sound c F) (hincr : Increasing items) :
    Builds Tallied (buildLevel aug redDepth items n depth) s := by
  induction n using Nat.strongRecOn generalizing items depth s F with
  | ind n ih =>
    -- The entries of the tree that is to come increase, as they are the first `n` of the list.
    have hall := hincr.sublist (List.take_sublist n items)
    rw [← entries_buildLevel aug redDepth items n depth hn, Tree.buildLevel] at hall
    rw [buildLevel]
    by_cases h0 : n = 0
    · rw [if_pos h0]
      exact .leaves (.pure _)
    · rw [if_neg h0] at hall ⊢
      obtain ⟨⟨k, v⟩, rest, hrest, hlen, hleft⟩ := Tree.exists_middle h0 hn
      have hhalf : (n - 1) / 2 ≤ items.length := by omega
      refine .bind_of_lasting (ih ((n - 1) / 2) (by omega) items (depth + 1) hhalf h hincr)
        (buildLevel_spec aug redDepth items (depth + 1) hhalf h) (fun res s₁ h₁ => ?_) fun res => ?_
      · obtain ⟨root, items'⟩ := res
        obtain ⟨rfl, l, rfl, hl, h₁⟩ := h₁
        dsimp only at hall ⊢
        rw [Tree.buildLevel_rest aug _ _ _ _ hhalf, hrest] at hall
        rw [hrest]
        dsimp only at hall ⊢
        have hrest' : Increasing rest := by
          refine hincr.sublist ((List.sublist_cons_self (k, v) rest).trans ?_)
          rw [← hrest]
          exact List.drop_sublist _ _
        have hrec := ih (n - 1 - (n - 1) / 2) (by omega) rest (depth + 1) hlen h₁ hrest'
        refine .bind (.guarding hrec)
          (.guarding_one l (buildLevel_spec aug redDepth rest (depth + 1) hlen h₁))
          fun res s₂ h₂ => ?_
        obtain ⟨root, items'⟩ := res
        obtain ⟨-, r, rfl, hr, h₂⟩ := h₂
        rw [entries_assemble, ← hl, ← hr] at hall
        refine .finish (builds_assemble aug k v _ h₂ ⟨?_, ?_, hall⟩) inferInstance
          fun i s₃ => .leaves (.pure _)
        · rw [hl]
          exact cached_buildLevel ..
        · rw [hr]
          exact cached_buildLevel ..
      · obtain ⟨l, items⟩ := res
        cases items with
        | nil => exact lasting_guarding
        | cons e rest =>
          refine .bind lasting_guarding fun res => ?_
          obtain ⟨r, items⟩ := res
          infer_instance

/-- A tree that is built from a list in order. -/
theorem builds_build {items : List (K × V)} (h : s.Sound c F) (hincr : Increasing items) :
    Builds Tallied (build aug items items.length) s :=
  .finish (builds_buildLevel aug _ items 0 (Nat.le_refl _) h hincr) inferInstance
    fun _ _ => .leaves (.pure _)

end Subtree

end SharedForest

/-
Trees as mathematical objects, and where a store keeps them.

A `Tree` is plain data.  Beside each tree in a store stand two of them: the *placed*
tree, whose nodes know their slots, and the *bare* one, which has forgotten them.
`Store.Unfolds s p` says that the store `s` holds `p` exactly where `p` says, so it
fixes slots, links and payloads at once, and is what "the structure reachable from
this root" means in every statement that follows.

What is proved: a root determines the tree that is kept there (`unfolds_unique`); a
tree is kept as long as its own slots are left alone (`unfolds_congr`); and no slot
occurs twice on one way down, hence a tree is at most as deep as there are slots
(`depth_le_of_unfolds`).  The last one is what makes the step counts of all descents
large enough, in any order of keys and also where one slot occurs in many places.
-/
import SharedForest.Store.Basic
import Mathlib.Data.List.Nodup
import Mathlib.Data.Multiset.Count

set_option autoImplicit false

namespace SharedForest

/-- A binary tree with a payload at every node. -/
inductive Tree (δ : Type) where
  | absent
  | node (left : Tree δ) (data : δ) (right : Tree δ)

namespace Tree

variable {δ ε ν : Type}

/-- The payload of the root. -/
def data? : Tree δ → Option δ
  | absent => none
  | node _ d _ => some d

/-- Change every payload. -/
def map (f : δ → ε) : Tree δ → Tree ε
  | absent => absent
  | node l d r => node (l.map f) (f d) (r.map f)

/-- All payloads, in order. -/
def toList : Tree δ → List δ
  | absent => []
  | node l d r => l.toList ++ d :: r.toList

/-- The number of nodes. -/
def count : Tree δ → Nat
  | absent => 0
  | node l _ r => l.count + 1 + r.count

/-- The number of nodes on the longest way down. -/
def depth : Tree δ → Nat
  | absent => 0
  | node l _ r => max l.depth r.depth + 1

/-- There is one payload for each node. -/
@[simp] theorem length_toList (t : Tree δ) : t.toList.length = t.count := by
  induction t with
  | absent => rfl
  | node l d r ihl ihr =>
    simp only [toList, count, List.length_append, List.length_cons, ihl, ihr]
    omega

/-- Payloads change where they stand. -/
@[simp] theorem toList_map (f : δ → ε) (t : Tree δ) : (t.map f).toList = t.toList.map f := by
  induction t with
  | absent => rfl
  | node l d r ihl ihr => simp [map, toList, ihl, ihr]

/-- No node is lost by a change of payloads. -/
@[simp] theorem count_map (f : δ → ε) (t : Tree δ) : (t.map f).count = t.count := by
  rw [← length_toList, toList_map, List.length_map, length_toList]

/-- The payload of the root is changed with the others. -/
@[simp] theorem data?_map (f : δ → ε) (t : Tree δ) : (t.map f).data? = t.data?.map f := by
  cases t <;> rfl

end Tree

/-- A tree whose nodes know their slots. -/
abbrev Placed (ν : Type) := Tree (Nat × ν)

namespace Tree

variable {ν : Type}

/-- The slot of the root. -/
def root : Placed ν → Option Nat
  | absent => none
  | node _ (i, _) _ => some i

/-- The tree without its slots. -/
def bare (p : Placed ν) : Tree ν := p.map (·.2)

/-- The slots of a placed tree, in order. -/
def slots (p : Placed ν) : List Nat := p.toList.map (·.1)

@[simp] theorem root_absent : (absent : Placed ν).root = none := rfl

@[simp] theorem root_node (l r : Placed ν) (i : Nat) (d : ν) :
    (node l (i, d) r).root = some i := rfl

@[simp] theorem bare_absent : (absent : Placed ν).bare = absent := rfl

@[simp] theorem bare_node (l r : Placed ν) (i : Nat) (d : ν) :
    (node l (i, d) r).bare = node l.bare d r.bare := rfl

/-- A tree has as many nodes when their slots are forgotten. -/
@[simp] theorem count_bare (p : Placed ν) : p.bare.count = p.count := count_map _ p

/-- Only an absent tree has no root. -/
@[simp] theorem root_eq_none_iff {p : Placed ν} : p.root = none ↔ p = absent := by
  cases p <;> simp [root]

/-- A placed tree with a root is a node at that slot. -/
theorem eq_node_of_root {p : Placed ν} {i : Nat} (h : p.root = some i) :
    ∃ l d r, p = node l (i, d) r := by
  match p, h with
  | node l (_, d) r, rfl => exact ⟨l, d, r, rfl⟩

@[simp] theorem slots_absent : (absent : Placed ν).slots = [] := rfl

/-- A slot of a tree is at the root or below it. -/
@[simp] theorem mem_slots_node {l r : Placed ν} {i j : Nat} {d : ν} :
    j ∈ (node l (i, d) r).slots ↔ j ∈ l.slots ∨ j = i ∨ j ∈ r.slots := by
  simp [slots, toList]

/-- The slot of the root is one of them. -/
theorem mem_slots_of_root {p : Placed ν} {i : Nat} (h : p.root = some i) : i ∈ p.slots := by
  obtain ⟨l, d, r, rfl⟩ := eq_node_of_root h
  simp

end Tree

namespace Store

open Tree

variable {ν : Type} {s s' : Store ν}

/-- The store keeps the tree where the tree says. -/
def Unfolds (s : Store ν) : Placed ν → Prop
  | .absent => True
  | .node l (i, d) r => s.cell? i = some ⟨l.root, r.root, d⟩ ∧ s.Unfolds l ∧ s.Unfolds r

@[simp] theorem unfolds_absent : s.Unfolds .absent := trivial

/-- What is read at the root are the roots of both subtrees, and the payload. -/
theorem read_of_unfolds {l r : Placed ν} {i : Nat} {d : ν} (h : s.Unfolds (.node l (i, d) r)) :
    s.read i = .ok ⟨l.root, r.root, d⟩ := by
  rw [read, h.1]

/-- A root determines the tree that is kept there. -/
theorem unfolds_unique {p q : Placed ν} (hp : s.Unfolds p) (hq : s.Unfolds q)
    (h : p.root = q.root) : p = q := by
  induction p generalizing q with
  | absent => exact (root_eq_none_iff.1 h.symm).symm
  | node l d r ihl ihr =>
    obtain ⟨i, d⟩ := d
    obtain ⟨l', d', r', rfl⟩ := eq_node_of_root h.symm
    obtain ⟨hcell, hl, hr⟩ := hp
    obtain ⟨hcell', hl', hr'⟩ := hq
    rw [hcell] at hcell'
    -- One cell has one pair of links, so the subtrees have the same roots.
    injection hcell' with hc
    injection hc with hleft hright hdata
    rw [ihl hl hl' hleft, ihr hr hr' hright, hdata]

/-- A tree is kept as long as its own slots are left alone. -/
theorem unfolds_congr {p : Placed ν} (h : ∀ i ∈ p.slots, s'.cell? i = s.cell? i)
    (hp : s.Unfolds p) : s'.Unfolds p := by
  induction p with
  | absent => trivial
  | node l d r ihl ihr =>
    obtain ⟨i, d⟩ := d
    obtain ⟨hcell, hl, hr⟩ := hp
    refine ⟨?_, ihl (fun j hj => h j (by simp [hj])) hl, ihr (fun j hj => h j (by simp [hj])) hr⟩
    rw [h i (by simp), hcell]

/-- Below each of its slots a kept tree keeps a part of it. -/
theorem exists_unfolds_of_mem {p : Placed ν} {i : Nat} (hp : s.Unfolds p) (hi : i ∈ p.slots) :
    ∃ q, q.root = some i ∧ s.Unfolds q ∧ q.count ≤ p.count ∧ q.slots ⊆ p.slots := by
  induction p with
  | absent => simp at hi
  | node l d r ihl ihr =>
    obtain ⟨k, d⟩ := d
    obtain ⟨_, hl, hr⟩ := id hp
    rcases mem_slots_node.1 hi with hi | rfl | hi
    · obtain ⟨q, hroot, hq, hle, hsub⟩ := ihl hl hi
      refine ⟨q, hroot, hq, by simp only [count]; omega, fun j hj => ?_⟩
      exact mem_slots_node.2 (.inl (hsub hj))
    · exact ⟨_, rfl, hp, Nat.le_refl _, fun _ hj => hj⟩
    · obtain ⟨q, hroot, hq, hle, hsub⟩ := ihr hr hi
      refine ⟨q, hroot, hq, by simp only [count]; omega, fun j hj => ?_⟩
      exact mem_slots_node.2 (.inr (.inr (hsub hj)))

/-- Every slot of a kept tree is live. -/
theorem contains_of_mem_slots {p : Placed ν} {i : Nat} (hp : s.Unfolds p) (hi : i ∈ p.slots) :
    s.contains i := by
  obtain ⟨q, hroot, hq, _⟩ := exists_unfolds_of_mem hp hi
  obtain ⟨l, d, r, rfl⟩ := eq_node_of_root hroot
  simp [contains, hq.1]

/-- No slot is below itself. -/
theorem not_mem_slots_children {l r : Placed ν} {i : Nat} {d : ν}
    (h : s.Unfolds (.node l (i, d) r)) : i ∉ l.slots ∧ i ∉ r.slots := by
  -- A tree below with the same root would be the same tree, and it is smaller.
  have hself : ∀ q : Placed ν, s.Unfolds q → q.count < (node l (i, d) r).count → i ∉ q.slots := by
    intro q hq hlt hi
    obtain ⟨q', hroot, hq', hle, -⟩ := exists_unfolds_of_mem hq hi
    have := unfolds_unique hq' h hroot
    subst this
    omega
  exact ⟨hself l h.2.1 (by simp only [count]; omega), hself r h.2.2 (by simp only [count]; omega)⟩

/-- The slots of a longest way down, which are all different. -/
theorem exists_longest_way {p : Placed ν} (hp : s.Unfolds p) :
    ∃ way : List Nat, way.length = p.depth ∧ way.Nodup ∧ ∀ i ∈ way, i ∈ p.slots := by
  induction p with
  | absent => exact ⟨[], rfl, List.nodup_nil, by simp⟩
  | node l d r ihl ihr =>
    obtain ⟨i, d⟩ := d
    obtain ⟨hnl, hnr⟩ := not_mem_slots_children hp
    obtain ⟨wl, hwl, hnodl, hsubl⟩ := ihl hp.2.1
    obtain ⟨wr, hwr, hnodr, hsubr⟩ := ihr hp.2.2
    -- The root goes on top of the way through the deeper child.
    rcases Nat.le_total l.depth r.depth with hle | hle
    · refine ⟨i :: wr, by simp [depth, hwr, Nat.max_eq_right hle], ?_, ?_⟩
      · exact List.nodup_cons.2 ⟨fun h => hnr (hsubr i h), hnodr⟩
      · intro j hj
        rcases List.mem_cons.1 hj with rfl | hj
        · simp
        · simp [hsubr j hj]
    · refine ⟨i :: wl, by simp [depth, hwl, Nat.max_eq_left hle], ?_, ?_⟩
      · exact List.nodup_cons.2 ⟨fun h => hnl (hsubl i h), hnodl⟩
      · intro j hj
        rcases List.mem_cons.1 hj with rfl | hj
        · simp
        · simp [hsubl j hj]

/-- Where all live slots are below `n`, no kept tree is deeper than `n`. -/
theorem depth_le_of_unfolds {p : Placed ν} {n : Nat} (hp : s.Unfolds p)
    (hn : ∀ i, s.contains i → i < n) : p.depth ≤ n := by
  -- Different slots below `n`: there are at most `n` of them.
  obtain ⟨way, hlen, hnodup, hsub⟩ := exists_longest_way hp
  have hrange : way ⊆ List.range n := by
    intro i hi
    exact List.mem_range.2 (hn i (contains_of_mem_slots hp (hsub i hi)))
  have := (List.subperm_of_subset hnodup hrange).length_le
  rw [hlen, List.length_range] at this
  exact this

end Store

end SharedForest

/-
Building in bulk.

A tree of `n` entries is made by taking a place `n` times, and nothing is given back on the way.
So it is settled beforehand whether it can be made: there must be `n` entries, and room for as many
nodes, which is what waits in the queue and what was never handed out (`Store.headroom`).  This is
so in any store, in order or not (`Subtree.buildLevel_outcome`).  Where the books are right, they
are so afterwards; and if there is no tree, nothing is left of what was made for it.

The shape is settled as well.  The color of a node is chosen by its depth, before anything is known
of its children; that this makes just the deepest level red is due to the halving, which gives each
level that is `j` steps above the deepest at least `2 ^ j - 1` entries and fewer than `2 ^ (j + 1)`.
-/
import SharedForest.Proofs.Validity
import SharedForest.Proofs.Atomicity
import SharedForest.Proofs.Merging
import SharedForest.Proofs.Iteration
import Mathlib.Order.Bounds.Basic

set_option autoImplicit false

namespace SharedForest

open Tree Std Store

variable {K Q V T ν δ : Type}

/-! ## Levels of a tree -/

namespace Tree

/-- The nodes at a depth, from left to right. -/
def nodesAt : Nat → Tree δ → List δ
  | _, absent => []
  | 0, node _ d _ => [d]
  | n + 1, node l _ r => nodesAt n l ++ nodesAt n r

/-- All levels above depth `j` are full, there is nothing below it, and the red nodes are those at
depth `j`, if any are to be red at all. -/
structure Complete (j : Nat) (red : Prop) (t : NodeTree K V T) : Prop where
  full : ∀ d < j, (nodesAt d t).length = 2 ^ d
  deepest : ∀ d, j < d → nodesAt d t = []
  red_iff : ∀ d, ∀ x ∈ nodesAt d t, (x.color = .red ↔ d = j ∧ red)

variable {aug : Augment K V T} {l r : NodeTree K V T} {k : K} {v : V} {j : Nat} {red : Prop}

@[simp] theorem nodesAt_absent (n : Nat) : nodesAt n (absent : Tree δ) = [] := by
  cases n <;> rfl

theorem nodesAt_succ (n : Nat) (color : Color) :
    nodesAt (n + 1) (assemble aug l k v color r) = nodesAt n l ++ nodesAt n r := rfl

theorem complete_absent : Complete 0 red (absent : NodeTree K V T) :=
  ⟨fun d hd => absurd hd (Nat.not_lt_zero d), fun d _ => nodesAt_absent d,
    fun d x hx => by rw [nodesAt_absent] at hx; cases hx⟩

/-- A single node is on the deepest level. -/
theorem complete_single {color : Color} (hcolor : color = .red ↔ red) :
    Complete 0 red (assemble aug absent k v color absent) := by
  refine ⟨fun d hd => absurd hd (Nat.not_lt_zero d), fun d hd => ?_, fun d x hx => ?_⟩
  · obtain ⟨d, rfl⟩ := Nat.exists_eq_succ_of_ne_zero hd.ne'
    rw [nodesAt_succ, nodesAt_absent, List.append_nil]
  · cases d with
    | zero =>
      obtain rfl := List.mem_singleton.1 hx
      exact hcolor.trans (iff_and_self.2 fun _ => rfl)
    | succ d =>
      rw [nodesAt_succ, nodesAt_absent, List.append_nil] at hx
      cases hx

/-- A black node over two subtrees. -/
theorem complete_black (hl : Complete j red l) (hr : Complete j red r) :
    Complete (j + 1) red (assemble aug l k v .black r) := by
  refine ⟨fun d hd => ?_, fun d hd => ?_, fun d x hx => ?_⟩
  · cases d with
    | zero => rfl
    | succ d =>
      rw [nodesAt_succ, List.length_append, hl.full d (by omega), hr.full d (by omega), pow_succ]
      omega
  · obtain ⟨d, rfl⟩ := Nat.exists_eq_succ_of_ne_zero (show d ≠ 0 by omega)
    rw [nodesAt_succ, hl.deepest d (by omega), hr.deepest d (by omega), List.append_nil]
  · cases d with
    | zero =>
      obtain rfl := List.mem_singleton.1 hx
      exact iff_of_false nofun (by omega)
    | succ d =>
      rw [nodesAt_succ] at hx
      rw [Nat.succ_inj]
      rcases List.mem_append.1 hx with hx | hx
      · exact hl.red_iff d x hx
      · exact hr.red_iff d x hx

theorem complete_buildLevel (aug : Augment K V T) {redDepth : Nat} (items : List (K × V))
    (n depth j : Nat) (hj : redDepth = depth + j) (hlen : n ≤ items.length)
    (hlow : 2 ^ j ≤ n + 1) (hhigh : n < 2 ^ (j + 1)) :
    Complete j (redDepth ≠ 0) (buildLevel aug redDepth items n depth).1 := by
  induction n using Nat.strongRecOn generalizing items depth j with
  | ind n ih =>
    rw [buildLevel]
    by_cases h0 : n = 0
    -- Without entries there is no level to fill.
    · have hj0 : j = 0 := by
        by_contra hne
        obtain ⟨m, rfl⟩ := Nat.exists_eq_succ_of_ne_zero hne
        have := Nat.one_le_two_pow (n := m)
        rw [pow_succ] at hlow
        omega
      rw [if_pos h0, hj0]
      exact complete_absent
    rw [if_neg h0]
    obtain ⟨⟨k, v⟩, rest, hrest, hlen', -⟩ := exists_middle h0 hlen
    dsimp only
    rw [buildLevel_rest aug redDepth items ((n - 1) / 2) (depth + 1) (by omega), hrest]
    dsimp only
    cases j with
    | zero =>
      obtain rfl : n = 1 := by omega
      have hnone : ∀ items : List (K × V),
          buildLevel aug redDepth items 0 (depth + 1) = (absent, items) := by
        intro items
        rw [buildLevel, if_pos rfl]
      rw [hnone, hnone]
      refine complete_single ?_
      split
      · exact iff_of_true rfl (by omega)
      · exact iff_of_false (by decide) (by omega)
    | succ j =>
      rw [pow_succ] at hlow
      rw [pow_succ] at hhigh
      -- Both halves hold between `2 ^ j - 1` and `2 ^ (j + 1) - 1` entries, so each reaches as
      -- deep.
      have hl := ih ((n - 1) / 2) (by omega) items (depth + 1) j
        (by omega) (by omega) (by omega) (by omega)
      have hr := ih (n - 1 - (n - 1) / 2) (by omega) rest (depth + 1) j
        (by omega) hlen' (by omega) (by omega)
      rw [if_neg (by omega)]
      exact complete_black hl hr

/-- In a tree that is built the deepest level is red, unless it is the only one. -/
theorem complete_build (items : List (K × V)) {n : Nat} (hn : n ≤ items.length) :
    Complete n.log2 (n ≠ 1) (build aug items n) := by
  rcases Nat.eq_zero_or_pos n with rfl | hpos
  · rw [build, Nat.log2_zero, buildLevel, if_pos rfl]
    exact complete_absent
  · have hcomplete := complete_buildLevel aug items n 0 n.log2 (Nat.zero_add _).symm hn
      (Nat.le_succ_of_le (Nat.log2_self_le hpos.ne')) Nat.lt_log2_self
    have hone : n.log2 ≠ 0 ↔ n ≠ 1 := by
      rw [← Nat.pos_iff_ne_zero, ← Nat.succ_le_iff, Nat.le_log2 hpos.ne']
      omega
    rwa [hone] at hcomplete

end Tree

/-! ## Room -/

namespace Store

variable {s s' s'' : Store ν} {m n : Nat} {root root' : Option Nat}

/-- For how many more cells there is a place. -/
def headroom (s : Store ν) : Nat := s.free.size + (s.limit - s.fresh)

/-- There is room for what is not live. -/
theorem Stocked.headroom_add_live {c : Config} (h : s.Stocked c) :
    s.headroom + s.live = s.limit := by
  have htotal := h.total
  have hle := h.fresh_le
  rw [headroom]
  omega

/-- Cells have been stored in `n` places, the one at `root` among them, and nothing was given
back. -/
structure Grew (s s' : Store ν) (n : Nat) (root : Option Nat) : Prop where
  headroom : s'.headroom + n = s.headroom
  live : s'.live = s.live + n
  kept : ∀ i, s.contains i → s'.contains i
  root : ∀ i ∈ root, s'.contains i

theorem Grew.refl (s : Store ν) : s.Grew s 0 none := ⟨rfl, rfl, fun _ h => h, nofun⟩

theorem Grew.trans (h : s.Grew s' m root) (h' : s'.Grew s'' n root') :
    s.Grew s'' (m + n) root' := by
  refine ⟨?_, ?_, fun i hi => h'.kept i (h.kept i hi), h'.root⟩
  · have hroom := h.headroom
    have hroom' := h'.headroom
    omega
  · rw [h'.live, h.live, Nat.add_assoc]

theorem nextSlot?_cases (s : Store ν) :
    (∃ i s', StoreM.nextSlot? s = .ok (some i) s' ∧ s'.headroom + 1 = s.headroom ∧
      s'.table = s.table ∧ s'.live = s.live) ∨
    StoreM.nextSlot? s = .ok none s ∧ s.headroom = 0 := by
  cases hq : s.free.dequeue? with
  | some q =>
    obtain ⟨i, rest⟩ := q
    refine .inl ⟨i, { s with free := rest }, by simp only [StoreM.nextSlot?, hq], ?_, rfl, rfl⟩
    rw [headroom, headroom, ← Fifo.length_toList s.free, Fifo.dequeue?_eq_some hq, List.length_cons,
      Fifo.length_toList]
    dsimp only
    omega
  | none =>
    have hempty : s.free.size = 0 := by
      rw [← Fifo.length_toList, Fifo.dequeue?_eq_none_iff.1 hq, List.length_nil]
    by_cases hlt : s.fresh < s.limit
    · refine .inl ⟨s.fresh, { s with fresh := s.fresh + 1 },
        by simp only [StoreM.nextSlot?, hq, if_pos hlt], ?_, rfl, rfl⟩
      rw [headroom, headroom]
      dsimp only
      omega
    · refine .inr ⟨by simp only [StoreM.nextSlot?, hq, if_neg hlt], ?_⟩
      rw [headroom]
      omega

/-- A cell is stored if there is room for it. -/
theorem allocate_outcome (cell : Cell ν) (s : Store ν) :
    (∃ i s', StoreM.allocate cell s = .ok i s' ∧ s.Grew s' 1 (some i)) ∨
    ∃ e s', StoreM.allocate cell s = .error e s' ∧ s.headroom = 0 := by
  obtain ⟨i, s₁, hnext, hroom, htable, hlive⟩ | ⟨hnext, hroom⟩ := nextSlot?_cases s
  · refine .inl ⟨i, s₁.filled i cell, (bind_of_ok hnext).trans rfl, hroom, ?_, fun j hj => ?_,
      fun j hj => ?_⟩
    · exact congrArg (· + 1) hlive
    · by_cases hji : j = i
      · rw [hji]
        exact contains_filled_self
      · rw [contains_filled_other hji, contains, cell?, htable]
        exact hj
    · obtain rfl := Option.mem_some_iff.1 hj
      exact contains_filled_self
  · rw [StoreM.allocate, bind_of_ok hnext]
    cases hdrop : cell.links.forM StoreM.release s with
    | ok u s₁ => exact .inr ⟨_, s₁, bind_of_ok hdrop, hroom⟩
    | error e s₁ => exact .inr ⟨e, s₁, bind_of_error hdrop, hroom⟩

/-- If an action fails, what is held goes back; and if all is in order, so does the answer. -/
theorem guarding_of_error {α : Type} {action : StoreM ν α} {e : Failure} (held : List Nat)
    (h : action s = .error e s') : ∃ e' s'', StoreM.guarding held action s = .error e' s'' ∧
      ∀ c F (p : Placed ν), held = p.root.toList → s'.Sound c (F + {p}) →
        e' = e ∧ s''.Sound c F := by
  obtain ⟨e', s'', hback⟩ := StoreM.giveBack_fails (α := α) held e s'
  refine ⟨e', s'', by rw [StoreM.guarding, h, ← hback], fun c F p hheld hsound => ?_⟩
  obtain ⟨s₁, hspec, h₁⟩ := giveBack_spec (α := α) (e := e) (H := [p]) hsound
  have hroots : rootSlots [p] = held := by rw [hheld]; simp
  rw [hroots, hback] at hspec
  cases hspec
  exact ⟨rfl, h₁⟩

end Store

namespace Subtree

variable (aug : Augment K V T) {s : NodeStore K V T} {l r : Option Nat}

theorem peek_ok (h : ∀ i ∈ l, s.contains i) : ∃ d, peek l s = .ok d s := by
  cases l with
  | none => exact ⟨none, rfl⟩
  | some i =>
    obtain ⟨cell, hcell⟩ := contains_iff_exists.1 (h i rfl)
    have hread : StoreM.read i s = .ok cell s := by
      rw [StoreM.read, StoreM.view, Store.read, hcell]
    exact ⟨some cell.data, bind_of_ok hread⟩

/-- A node is made if there is room for it. -/
theorem assemble_outcome (k : K) (v : V) (col : Color) (hl : ∀ i ∈ l, s.contains i)
    (hr : ∀ i ∈ r, s.contains i) :
    (∃ i s', assemble aug l k v col r s = .ok i s' ∧ s.Grew s' 1 (some i)) ∨
    ∃ e s', assemble aug l k v col r s = .error e s' ∧ s.headroom = 0 := by
  obtain ⟨x, hx⟩ := peek_ok hl
  obtain ⟨y, hy⟩ := peek_ok hr
  have hpeeks : (do
      let left ← peek l
      let right ← peek r
      pure (left, right) : NodeM K V T _) s = .ok (x, y) s := by
    rw [bind_of_ok hx, bind_of_ok hy]
    rfl
  rw [assemble, bind_of_ok (guarding_of_ok hpeeks)]
  -- Noting the size changes nothing that is of account here.
  obtain ⟨i, s₁, hrun, h₁⟩ | ⟨e, s₁, hrun, hroom⟩ := allocate_outcome
    ⟨l, r, Node.ofChildren aug x k v col y⟩ { s with alarms := { s.alarms with
      sizeHigh := s.alarms.sizeHigh || decide (4294967295 < 1 + Node.entries x + Node.entries y) } }
  · exact .inl ⟨i, s₁, hrun, h₁.headroom, h₁.live, h₁.kept, h₁.root⟩
  · exact .inr ⟨e, s₁, hrun, hroom⟩

/-- From `s` to `s'` a tree was made of `n` new nodes, which is owned, where the books are right. -/
structure Raised (tree : NodeTree K V T) (n : Nat) (root : Option Nat) (s s' : NodeStore K V T) :
    Prop where
  grew : s.Grew s' n root
  owned : ∀ c F, s.Sound c F → Owned c F tree root s'

/-- The first `n` of `items` could not be built up, and all that had been made for it is given up
again. -/
structure Abandoned (items : List (K × V)) (n : Nat) (e : Failure) (s s' : NodeStore K V T) :
    Prop where
  reason : items.length < n ∨ s.headroom < n
  sound : ∀ c F, s.Sound c F → s'.Sound c F ∧
    (e = .refused (.capacityExceeded (min c.maxNodes maxPlaces)) ∨
      items.length < n ∧ e = .refused (.invariantViolation .endedEarly))

variable {s' s₁ s₂ : NodeStore K V T} {tl tr : NodeTree K V T} {items : List (K × V)} {m n : Nat}

/-- A node over two trees that were made one after the other. -/
theorem Raised.node (hl : Raised tl m l s s₁) (hr : Raised tr n r s₁ s₂) (k : K) (v : V)
    (col : Color) :
    (∃ i s₃, assemble aug l k v col r s₂ = .ok i s₃ ∧
      Raised (Tree.assemble aug tl k v col tr) (m + n + 1) (some i) s s₃) ∨
    ∃ e s₃, assemble aug l k v col r s₂ = .error e s₃ ∧ s.headroom < m + n + 1 ∧
      ∀ c F, s.Sound c F → Short c F e s₃ := by
  have hgrew := hl.grew.trans hr.grew
  have hroot : ∀ i ∈ l, s₂.contains i := fun i hi => hr.grew.kept i (hl.grew.root i hi)
  -- Where the books are right both trees are owned, and the node takes them over.
  have hcases : ∀ c F, s.Sound c F →
      (∃ i s₃, assemble aug l k v col r s₂ = .ok i s₃ ∧
        Owned c F (Tree.assemble aug tl k v col tr) (some i) s₃) ∨
      ∃ e s₃, assemble aug l k v col r s₂ = .error e s₃ ∧ Short c F e s₃ := by
    intro c F h
    obtain ⟨p, rfl, rfl, h₁⟩ := hl.owned c F h
    obtain ⟨q, rfl, rfl, h₂⟩ := hr.owned c (F + {p}) h₁
    exact assemble_cases aug k v col h₂
  obtain ⟨i, s₃, hrun, h₃⟩ | ⟨e, s₃, hrun, hfull⟩ := assemble_outcome aug k v col hroot hr.grew.root
  · refine .inl ⟨i, s₃, hrun, hgrew.trans h₃, fun c F h => ?_⟩
    obtain ⟨j, s₄, hrun', howned⟩ | ⟨e, s₄, hrun', -⟩ := hcases c F h
    · cases hrun.symm.trans hrun'
      exact howned
    · cases hrun.symm.trans hrun'
  · have hroom := hgrew.headroom
    refine .inr ⟨e, s₃, hrun, by omega, fun c F h => ?_⟩
    obtain ⟨j, s₄, hrun', -⟩ | ⟨e', s₄, hrun', hshort⟩ := hcases c F h
    · cases hrun.symm.trans hrun'
    · cases hrun.symm.trans hrun'
      exact hshort

/-- A failure passes on to a larger build that has the same entries before it. -/
theorem Abandoned.mono {e : Failure} (h : Abandoned items m e s s') (hle : m ≤ n) :
    Abandoned items n e s s' := by
  refine ⟨h.reason.imp (fun hlt => by omega) fun hlt => by omega, fun c F hsound => ?_⟩
  exact (h.sound c F hsound).imp_right (Or.imp_right (And.imp_left fun hlt => by omega))

/-- It also passes on to one that has used up `u` entries before, and the tree it made of `m` of
them is given up too. -/
theorem Abandoned.guarding {α : Type} {action : NodeM K V T α} {rest : List (K × V)} {e : Failure}
    {u : Nat} (h : Abandoned rest n e s₁ s₂) (hrun : action s₁ = .error e s₂)
    (htree : Raised tl m l s s₁) (hle : m ≤ u) (hlen : items.length ≤ rest.length + u) :
    ∃ e' s₃, StoreM.guarding l.toList action s₁ = .error e' s₃ ∧
      Abandoned items (n + u) e' s s₃ := by
  obtain ⟨e', s₃, hguard, hgiven⟩ := guarding_of_error l.toList hrun
  have hroom := htree.grew.headroom
  refine ⟨e', s₃, hguard, h.reason.imp (fun hlt => by omega) fun hlt => by omega,
    fun c F hsound => ?_⟩
  obtain ⟨p, rfl, -, h₁⟩ := htree.owned c F hsound
  obtain ⟨h₂, he⟩ := h.sound c (F + {p}) h₁
  obtain ⟨rfl, h₃⟩ := hgiven c F p rfl h₂
  exact ⟨h₃, he.imp_right (And.imp_left fun hlt => by omega)⟩

/-- Building comes to its end if there are enough entries, and room for as many nodes. -/
theorem buildLevel_outcome (redDepth : Nat) (items : List (K × V)) (n depth : Nat)
    (s : NodeStore K V T) :
    (∃ root s', buildLevel aug redDepth items n depth s = .ok (root, items.drop n) s' ∧
      n ≤ items.length ∧ Raised (Tree.buildLevel aug redDepth items n depth).1 n root s s') ∨
    ∃ e s', buildLevel aug redDepth items n depth s = .error e s' ∧ Abandoned items n e s s' := by
  induction n using Nat.strongRecOn generalizing items depth s with
  | ind n ih =>
    rw [buildLevel, Tree.buildLevel]
    by_cases h0 : n = 0
    · rw [if_pos h0, if_pos h0, h0]
      exact .inl ⟨none, s, rfl, Nat.zero_le _, .refl s,
        fun c F h => ⟨.absent, rfl, rfl, h.with_absent⟩⟩
    rw [if_neg h0, if_neg h0]
    obtain ⟨root, s₁, hleft, hlen, hl⟩ | ⟨e, s₁, hleft, hfail⟩ :=
      ih ((n - 1) / 2) (by omega) items (depth + 1) s
    · rw [bind_of_ok hleft]
      dsimp only
      rw [Tree.buildLevel_rest aug _ _ _ _ hlen]
      cases hitems : items.drop ((n - 1) / 2) with
      | nil =>
        -- The entries end here: what was built of them so far is given back.
        have hended : (StoreM.refuse (.invariantViolation .endedEarly) :
            NodeM K V T (Option Nat × List (K × V))) s₁ = .error _ s₁ := rfl
        have hfail : Abandoned ([] : List (K × V)) 1
            (.refused (.invariantViolation .endedEarly)) s₁ s₁ :=
          ⟨.inl Nat.one_pos, fun c F h => ⟨h, .inr ⟨Nat.one_pos, rfl⟩⟩⟩
        have hused : items.length ≤ ([] : List (K × V)).length + (n - 1) / 2 := by
          rw [List.length_nil, Nat.zero_add, ← List.drop_eq_nil_iff, hitems]
        obtain ⟨e, s₂, hguard, hgiven⟩ := hfail.guarding hended hl (Nat.le_refl _) hused
        exact .inr ⟨e, s₂, hguard, hgiven.mono (by omega)⟩
      | cons e rest =>
        obtain ⟨k, v⟩ := e
        have hrest : rest = items.drop ((n - 1) / 2 + 1) := by
          rw [← List.drop_drop, hitems]
          rfl
        have hlength : rest.length + ((n - 1) / 2 + 1) = items.length := by
          have hmore := congrArg List.length hitems
          rw [List.length_drop, List.length_cons] at hmore
          omega
        dsimp only
        obtain ⟨root', s₂, hright, hlen', hr⟩ | ⟨e, s₂, hright, hfail⟩ :=
          ih (n - 1 - (n - 1) / 2) (by omega) rest (depth + 1) s₁
        · rw [bind_of_ok (guarding_of_ok hright)]
          -- Both halves stand; it is left to find room for the node on top of them.
          have hnode := hl.node aug hr k v (if depth = redDepth ∧ depth ≠ 0 then .red else .black)
          rw [show (n - 1) / 2 + (n - 1 - (n - 1) / 2) + 1 = n by omega] at hnode
          obtain ⟨i, s₃, hroot, hraised⟩ | ⟨e, s₃, hroot, hroom, hshort⟩ := hnode
          · refine .inl ⟨some i, s₃, (bind_of_ok hroot).trans ?_, by omega, hraised⟩
            rw [hrest, List.drop_drop, show (n - 1) / 2 + 1 + (n - 1 - (n - 1) / 2) = n by omega]
            rfl
          · exact .inr ⟨e, s₃, bind_of_error hroot, .inr hroom,
              fun c F h => ⟨(hshort c F h).2, .inl (hshort c F h).1⟩⟩
        · obtain ⟨e', s₃, hguard, hgiven⟩ :=
            hfail.guarding hright hl (Nat.le_succ _) (Nat.le_of_eq hlength.symm)
          exact .inr ⟨e', s₃, bind_of_error hguard, hgiven.mono (by omega)⟩
    · exact .inr ⟨e, s₁, bind_of_error hleft, hfail.mono (by omega)⟩

/-- The whole of it, without the entries that are left. -/
theorem build_outcome (items : List (K × V)) (n : Nat) (s : NodeStore K V T) :
    (∃ root s', build aug items n s = .ok root s' ∧ n ≤ items.length ∧
      Raised (Tree.build aug items n) n root s s') ∨
    ∃ e s', build aug items n s = .error e s' ∧ Abandoned items n e s s' := by
  obtain ⟨root, s', hrun, h⟩ | ⟨e, s', hrun, h⟩ := buildLevel_outcome aug n.log2 items n 0 s
  · exact .inl ⟨root, s', bind_of_ok hrun, h⟩
  · exact .inr ⟨e, s', bind_of_error hrun, h⟩

end Subtree

/-! ## Trees that were built -/

/-- A tree of `es` has been built in `s`, which is now `s'`, and its root is `root`. -/
structure Built [Ord K] (aug : Augment K V T) (s s' : NodeStore K V T) (root : Option Nat)
    (es : List (K × V)) : Prop where
  live : s'.stats.live = s.stats.live + es.length
  occupied : s'.occupied = s.occupied + es.length
  entries : Subtree.entries s' root = .ok es
  tree : ∃ p, p.root = root ∧ s'.Unfolds p ∧ p.bare.entries = es ∧ Balanced aug p.bare ∧
    p.bare.Complete es.length.log2 (es.length ≠ 1)
  checked : ∀ [TransOrd K] [BEq T] [ReflBEq T], Increasing es → Subtree.check s' aug root = .ok ()

section

variable {aug : Augment K V T} {s s' : NodeStore K V T} {c : Config}
  {F : Multiset (Placed (Node K V T))} {root : Option Nat} {items : List (K × V)} {n : Nat}

theorem built_of_raised [Ord K] (hsound : s.Sound c F) (hn : n ≤ items.length)
    (hraised : Subtree.Raised (Tree.build aug items n) n root s s') :
    Built aug s s' root (items.take n) := by
  have hgrew := hraised.grew
  obtain ⟨p, rfl, hbare, h⟩ := hraised.owned c F hsound
  have hunf : s'.Unfolds p := h.unfolds (by simp)
  have hlen : (items.take n).length = n := by rw [List.length_take, Nat.min_eq_left hn]
  have hes : p.bare.entries = items.take n := by
    rw [hbare, Tree.build, entries_buildLevel aug _ items n 0 hn]
  have hbalanced : Balanced aug p.bare := hbare ▸ balanced_build items hn
  have hsize : p.bare.size.toNat = p.count := by
    -- As there was room for that many nodes, they are fewer than a word can tell.
    have hcount : p.bare.count = n := by rw [← length_entries, hes, hlen]
    have hroom := hgrew.headroom
    have hall := hsound.stocked.headroom_add_live
    have hlimit := hsound.stocked.limit_eq
    have hplaces : min c.maxNodes maxPlaces ≤ 4294967294 := Nat.min_le_right _ _
    have hlt : p.bare.count < 4294967296 := by omega
    rw [size_eq_count hbalanced.cached, UInt32.toNat_ofNat_of_lt' hlt, count_bare]
  refine ⟨?_, ?_, ?_, ⟨p, rfl, hunf, hes, hbalanced, ?_⟩, ?_⟩
  · rw [hlen]
    exact hgrew.live
  · rw [hlen, ← h.stocked.live_eq, ← hsound.stocked.live_eq]
    exact hgrew.live
  · rw [Subtree.entries_spec h hunf hsize, hes]
  · rw [hlen, hbare]
    exact complete_build items hn
  · intro _ _ _ hinc
    exact Subtree.check_spec h (by simp) ⟨hbalanced, hes ▸ hinc⟩

end

/-! ## Entries in disorder -/

namespace Forest

variable [Ord K] {items : List (K × V)} {f : Forest K V T}

/-- The key at position `p` is not above the one before it. -/
def DisorderAt (items : List (K × V)) (p : Nat) : Prop :=
  ∃ i a b, p = i + 1 ∧ items[i]? = some a ∧ items[i + 1]? = some b ∧ compare a.1 b.1 ≠ .lt

theorem disorderAt_cons_cons {a b : K × V} {rest : List (K × V)} {p : Nat} :
    DisorderAt (a :: b :: rest) p ↔
      p = 1 ∧ compare a.1 b.1 ≠ .lt ∨ ∃ q, p = q + 1 ∧ DisorderAt (b :: rest) q := by
  constructor
  · rintro ⟨i, x, y, rfl, hx, hy, hxy⟩
    cases i with
    | zero =>
      cases hx
      cases hy
      exact .inl ⟨rfl, hxy⟩
    | succ i => exact .inr ⟨i + 1, rfl, i, x, y, rfl, hx, hy, hxy⟩
  · rintro (⟨rfl, hab⟩ | ⟨q, rfl, i, x, y, rfl, hx, hy, hxy⟩)
    · exact ⟨0, a, b, rfl, rfl, rfl, hab⟩
    · exact ⟨i + 1, x, y, rfl, hx, hy, hxy⟩

/-- With nothing to compare there is no disorder. -/
theorem not_disorderAt_of_short (h : items.length ≤ 1) (p : Nat) : ¬ DisorderAt items p := by
  rintro ⟨i, a, b, rfl, -, hb, -⟩
  obtain ⟨hlt, -⟩ := List.getElem?_eq_some_iff.1 hb
  omega

/-- The search finds the first position, counted from where it is told to start. -/
theorem firstDisorder_spec (items : List (K × V)) (n : Nat) :
    match firstDisorder items n with
    | some p => ∃ q, p = n + q ∧ IsLeast {q | DisorderAt items q} q
    | none => ∀ q, ¬ DisorderAt items q := by
  induction items generalizing n with
  | nil => exact not_disorderAt_of_short (Nat.zero_le 1)
  | cons a items ih =>
    cases items with
    | nil => exact not_disorderAt_of_short (Nat.le_refl 1)
    | cons b rest =>
      rw [firstDisorder]
      by_cases hab : compare a.1 b.1 = .lt
      · have hrest := ih (n + 1)
        rw [if_pos hab]
        cases hfirst : firstDisorder (b :: rest) (n + 1) with
        | none =>
          rw [hfirst] at hrest
          intro p hp
          obtain ⟨-, hne⟩ | ⟨q, -, hq⟩ := disorderAt_cons_cons.1 hp
          · exact hne hab
          · exact hrest q hq
        | some p =>
          rw [hfirst] at hrest
          obtain ⟨q, rfl, hq, hleast⟩ := hrest
          refine ⟨q + 1, by omega, disorderAt_cons_cons.2 (.inr ⟨q, rfl, hq⟩), fun m hm => ?_⟩
          obtain ⟨-, hne⟩ | ⟨m, rfl, hm'⟩ := disorderAt_cons_cons.1 hm
          · exact absurd hab hne
          · exact Nat.succ_le_succ (hleast hm')
      · rw [if_neg hab]
        refine ⟨1, rfl, disorderAt_cons_cons.2 (.inl ⟨rfl, hab⟩), fun m hm => ?_⟩
        obtain ⟨i, -, -, rfl, -⟩ := hm
        exact Nat.le_add_left 1 i

theorem firstDisorder_of_isLeast {p : Nat} (h : IsLeast {p | DisorderAt items p} p) :
    firstDisorder items 0 = some p := by
  have hspec := firstDisorder_spec items 0
  cases hfirst : firstDisorder items 0 with
  | none =>
    rw [hfirst] at hspec
    exact absurd h.1 (hspec p)
  | some m =>
    rw [hfirst] at hspec
    obtain ⟨q, rfl, hq⟩ := hspec
    rw [Nat.zero_add, hq.unique h]

theorem firstDisorder_of_ordered (h : ∀ p, ¬ DisorderAt items p) :
    firstDisorder items 0 = none := by
  have hspec := firstDisorder_spec items 0
  cases hfirst : firstDisorder items 0 with
  | none => rfl
  | some m =>
    rw [hfirst] at hspec
    obtain ⟨q, -, hq, -⟩ := hspec
    exact absurd hq (h q)

theorem not_disorderAt_of_increasing (h : Increasing items) (p : Nat) : ¬ DisorderAt items p := by
  rintro ⟨i, a, b, rfl, ha, hb, hne⟩
  obtain ⟨hi, rfl⟩ := List.getElem?_eq_some_iff.1 ha
  obtain ⟨hi', rfl⟩ := List.getElem?_eq_some_iff.1 hb
  exact hne (List.pairwise_iff_getElem.1 h i (i + 1) hi hi' (Nat.lt_succ_self i))

/-- Entries in disorder are refused, and the forest is left alone. -/
theorem ofSorted_of_isLeast {p : Nat} (f : Forest K V T)
    (h : IsLeast {p | DisorderAt items p} p) :
    ofSorted items f = .error (.refused (.invariantViolation (.notIncreasing p))) f := by
  rw [ofSorted, firstDisorder_of_isLeast h]
  rfl

/-- Entries in order are built up. -/
theorem ofSorted_of_ordered (f : Forest K V T) (h : ∀ p, ¬ DisorderAt items p) :
    ofSorted items f =
      match Subtree.build f.augment items items.length f.store with
      | .ok root s => .ok ⟨f.id, root, UInt64.ofNat f.derived⟩
          { f with store := s, derived := f.derived + 1 }
      | .error e s => .error e { f with store := s } := by
  rw [ofSorted, firstDisorder_of_ordered h]
  dsimp only
  cases hrun : Subtree.build f.augment items items.length f.store with
  | ok root s =>
    have hstore : onStore (fun aug => Subtree.build aug items items.length) f
        = .ok root { f with store := s } := by
      rw [onStore, hrun]
    rw [bind_of_ok hstore]
    rfl
  | error e s =>
    have hstore : onStore (fun aug => Subtree.build aug items items.length) f
        = .error e { f with store := s } := by
      rw [onStore, hrun]
    rw [bind_of_error hstore]

/-- Entries in order can be built up if there is room for them. -/
theorem ofSorted_ok_iff (f : Forest K V T) (h : ∀ p, ¬ DisorderAt items p) :
    (∃ t f', ofSorted items f = .ok t f') ↔
      items.length ≤ f.stats.free + (f.store.limit - f.stats.highWater) := by
  rw [ofSorted_of_ordered f h]
  obtain ⟨root, s', hrun, -, hraised⟩ | ⟨e, s', hrun, hlt | hlt, -⟩ :=
    Subtree.build_outcome f.augment items items.length f.store
  · rw [hrun]
    exact iff_of_true ⟨_, _, rfl⟩ (Nat.le.intro ((Nat.add_comm _ _).trans hraised.grew.headroom))
  · exact absurd hlt (Nat.lt_irrefl _)
  · rw [hrun]
    refine iff_of_false ?_ (Nat.not_le.2 hlt)
    rintro ⟨t, f', hok⟩
    cases hok

end Forest

/-! ## In a session -/

namespace Session

variable [Ord K] [Ord Q] [KeyView K Q] {aug : Augment K V T} {configs : List Config}
  {sort : List (K × V) → List (K × V)} {s : Session K V T} {n : Nat} {f : Forest K V T} {c : Config}

/-- How a build of the first `m` entries ends in a session that a run reaches: with a tree, without
room for one, or with too few entries. -/
theorem build_ends (h : s.Reached Q sort aug configs) (hf : s.forests[n]? = some f)
    (hc : configs[n]? = some c) (items : List (K × V)) (m : Nat) :
    (m ≤ items.length → m ≤ f.store.headroom →
      ∃ root s', Subtree.build f.augment items m f.store = .ok root s' ∧
        Built f.augment f.store s' root (items.take m)) ∧
    (m ≤ items.length → f.store.headroom < m →
      ∃ s', Subtree.build f.augment items m f.store
          = .error (.refused (.capacityExceeded f.store.limit)) s' ∧
        Forest.Undone s.handles c f { f with store := s' }) ∧
    (items.length < m →
      ∃ e s', Subtree.build f.augment items m f.store = .error e s' ∧
        (e = .refused (.capacityExceeded f.store.limit) ∨
          e = .refused (.invariantViolation .endedEarly)) ∧
        Forest.Undone s.handles c f { f with store := s' }) := by
  have htidy := h.tidy (closed_true aug)
  obtain ⟨F, hsound, hF⟩ := htidy.exists_sound hf hc
  obtain ⟨root, s', hrun, hm, hraised⟩ | ⟨e, s', hrun, hreason, hgiven⟩ :=
    Subtree.build_outcome f.augment items m f.store
  -- It came to its end, so there was room enough and there were entries enough.
  · have hroom := hraised.grew.headroom
    refine ⟨fun _ _ => ?_, fun _ hfull => ?_, fun hshort => ?_⟩
    · exact ⟨root, s', hrun, built_of_raised hsound hm hraised⟩
    · omega
    · omega
  -- It failed, and both reasons are told apart by the numbers.
  · obtain ⟨hsound', he⟩ := hgiven c F hsound
    rw [← hsound.stocked.limit_eq] at he
    have hundone : Forest.Undone s.handles c f { f with store := s' } :=
      Forest.undone_of_holds hF hsound (fun t ht hown => by simpa using ⟨ht, hown⟩)
        ⟨rfl, rfl, rfl, hsound'⟩ rfl
    refine ⟨fun _ _ => ?_, fun hm _ => ?_, fun _ => ?_⟩
    · omega
    · rcases he with rfl | ⟨hshort, -⟩
      · exact ⟨s', hrun, hundone⟩
      · omega
    · exact ⟨e, s', hrun, he.imp_right And.right, hundone⟩

/-- Building in bulk is exact.  In any forest, entries are refused at the first position where keys
do not increase; if there is none, there is a tree of them exactly if there is room.  In a
session that a run reaches it is the tree it should be, or else nothing is left of it; and the same
goes for building from the first `m` entries, of which there may be too few. -/
theorem bulk_exact (h : s.Reached Q sort aug configs) (hf : s.forests[n]? = some f)
    (hc : configs[n]? = some c) (items : List (K × V)) :
    (∀ g : Forest K V T,
      (∀ p, IsLeast {p | Forest.DisorderAt items p} p → Forest.ofSorted items g
        = .error (.refused (.invariantViolation (.notIncreasing p))) g) ∧
      ((∀ p, ¬ Forest.DisorderAt items p) → ((∃ t g', Forest.ofSorted items g = .ok t g') ↔
        items.length ≤ g.stats.free + (g.store.limit - g.stats.highWater)))) ∧
    f.store.limit = min c.maxNodes maxPlaces ∧
    ((∀ p, ¬ Forest.DisorderAt items p) →
      (items.length ≤ f.stats.free + (f.store.limit - f.stats.highWater) →
        ∃ t f', Forest.ofSorted items f = .ok t f' ∧
          Built f.augment f.store f'.store t.root items ∧
          ∀ [TransOrd K] [BEq T] [ReflBEq T], f'.validate t = .ok ()) ∧
      (f.stats.free + (f.store.limit - f.stats.highWater) < items.length →
        ∃ f', Forest.ofSorted items f = .error (.refused (.capacityExceeded f.store.limit)) f' ∧
          Forest.Undone s.handles c f f')) ∧
    ∀ m,
      (m ≤ items.length → m ≤ f.stats.free + (f.store.limit - f.stats.highWater) →
        ∃ root s', Subtree.build f.augment items m f.store = .ok root s' ∧
          Built f.augment f.store s' root (items.take m)) ∧
      (m ≤ items.length → f.stats.free + (f.store.limit - f.stats.highWater) < m →
        ∃ s', Subtree.build f.augment items m f.store
            = .error (.refused (.capacityExceeded f.store.limit)) s' ∧
          Forest.Undone s.handles c f { f with store := s' }) ∧
      (items.length < m →
        ∃ e s', Subtree.build f.augment items m f.store = .error e s' ∧
          (e = .refused (.capacityExceeded f.store.limit) ∨
            e = .refused (.invariantViolation .endedEarly)) ∧
          Forest.Undone s.handles c f { f with store := s' }) := by
  obtain ⟨hbuilds, hfails, -⟩ := build_ends h hf hc items items.length
  refine ⟨fun g => ⟨fun p hp => Forest.ofSorted_of_isLeast g hp, Forest.ofSorted_ok_iff g⟩, ?_,
    fun hordered => ⟨fun hroom => ?_, fun hfull => ?_⟩, build_ends h hf hc items⟩
  · obtain ⟨F, hsound, -⟩ := (h.tidy (closed_true aug)).exists_sound hf hc
    exact hsound.stocked.limit_eq
  · obtain ⟨root, s', hrun, hbuilt⟩ := hbuilds (Nat.le_refl _) hroom
    rw [List.take_length] at hbuilt
    refine ⟨_, _, by rw [Forest.ofSorted_of_ordered f hordered, hrun], hbuilt, ?_⟩
    intro _ _ _
    exact hbuilt.checked (increasing_of_firstDisorder (Forest.firstDisorder_of_ordered hordered))
  · obtain ⟨s', hrun, hundone⟩ := hfails (Nat.le_refl _) hfull
    exact ⟨_, by rw [Forest.ofSorted_of_ordered f hordered, hrun], hundone⟩

/-- Three entries can be built up beside what is there; four cannot be had from them. -/
theorem bulk_exact_shortRun : ∃ f, shortRun.forests[0]? = some f ∧
    (∃ t f', Forest.ofSorted [(1, 10), (2, 20), (3, 30)] f = .ok t f' ∧
      Built f.augment f.store f'.store t.root [(1, 10), (2, 20), (3, 30)] ∧
      f'.validate t = .ok ()) ∧
    ∃ e s', Subtree.build f.augment [(1, 10), (2, 20), (3, 30)] 4 f.store = .error e s' ∧
      Forest.Undone shortRun.handles { reclamation := .deferred 2 } f { f with store := s' } := by
  obtain ⟨f, hf⟩ := Option.isSome_iff_exists.1
    (show (shortRun.forests[0]?).isSome by decide +kernel)
  have hroom : ∀ f ∈ shortRun.forests[0]?,
      3 ≤ f.stats.free + (f.store.limit - f.stats.highWater) := by decide +kernel
  have hordered : ∀ p, ¬ Forest.DisorderAt [((1 : Nat), (10 : Int64)), (2, 20), (3, 30)] p :=
    Forest.firstDisorder_spec [((1 : Nat), (10 : Int64)), (2, 20), (3, 30)] 0
  obtain ⟨-, -, hsorted, hfirst⟩ := bulk_exact reached_shortRun hf rfl
    [((1 : Nat), (10 : Int64)), (2, 20), (3, 30)]
  obtain ⟨t, f', hrun, hbuilt, hvalid⟩ := (hsorted hordered).1 (hroom f hf)
  obtain ⟨e, s', hrun', -, hundone⟩ := (hfirst 4).2.2 (by decide)
  exact ⟨f, hf, ⟨t, f', hrun, hbuilt, hvalid⟩, e, s', hrun', hundone⟩

end Session

end SharedForest

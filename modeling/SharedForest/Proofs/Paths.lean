/-
Where a cursor can be.

Nodes have no link to their parent, so a cursor is a list of slots, and nothing in it says
that they belong together.  They do: the list is empty, or it is a way from the root of the
tree down to one of its nodes (`Way`).  This is the invariant of all moves
(`Cursor.Toured.admits`).  Going down prolongs a way, climbing and seeking cut one off, and
what is left of a way is a way.

The invariant speaks of the tree and not of the store, so a cursor that was brought
somewhere in one store stands there in every store that keeps the tree.
-/
import SharedForest.Proofs.Iteration
import SharedForest.Cursor.Tour

set_option autoImplicit false

namespace SharedForest

open Tree

variable {K Q V T ν : Type}

/-! ## Ways -/

/-- The slots `c`, the last one first, lead from the root of `p` down to the subtree `q`. -/
inductive Way (p : Placed ν) : Cursor → Placed ν → Prop where
  | root {i : Nat} (h : p.root = some i) : Way p [i] p
  | child {l r : Placed ν} {i j : Nat} {d : ν} {c : Cursor} (side : Side)
      (up : Way p c (.node l (i, d) r)) (h : (side.pick l r).root = some j) :
      Way p (j :: c) (side.pick l r)

/-- A way to `q`, if there is anything in it, is one step longer than `c`. -/
def WayInto (p : Placed ν) (c : Cursor) (q : Placed ν) : Prop :=
  ∀ i, q.root = some i → Way p (i :: c) q

/-- The cursor is the ghost of the tree, or the way to one of its nodes. -/
def Tree.Admits (p : Placed ν) (c : Cursor) : Prop := c = [] ∨ ∃ q, Way p c q

section

variable {s : Store ν} {p q l r : Placed ν} {c : Cursor} {i j : Nat} {d : ν} {side : Side}

/-- The first slot of a way is the root of what it leads to. -/
theorem Way.current_eq (h : Way p c q) : c.current = q.root := by
  cases h with
  | root h => exact h.symm
  | child side up h => exact h.symm

/-- A way ends at a node. -/
theorem Way.exists_cons (h : Way p c q) :
    ∃ l i d r above, q = .node l (i, d) r ∧ c = i :: above := by
  have hroot : ∃ i above, c = i :: above ∧ q.root = some i := by
    cases h with
    | root h => exact ⟨_, _, rfl, h⟩
    | child side up h => exact ⟨_, _, rfl, h⟩
  obtain ⟨i, above, rfl, hroot⟩ := hroot
  obtain ⟨l, d, r, rfl⟩ := eq_node_of_root hroot
  exact ⟨l, i, d, r, above, rfl, rfl⟩

/-- The rest of a way is the way to the parent. -/
theorem Way.parent (h : Way p (j :: i :: c) q) : ∃ q', Way p (i :: c) q' := by
  cases h with
  | child side up h => exact ⟨_, up⟩

/-- What holds of a tree and passes from a node to both children holds all the way down. -/
theorem Way.inherits {P : Placed ν → Prop} (hP : ∀ l d r, P (.node l d r) → P l ∧ P r)
    (h : Way p c q) (hp : P p) : P q := by
  induction h with
  | root h => exact hp
  | child side up h ih =>
    obtain ⟨hl, hr⟩ := hP _ _ _ ih
    cases side
    · exact hl
    · exact hr

/-- A store that keeps a tree keeps what any way in it leads to. -/
theorem Way.unfolds (h : Way p c q) (hp : s.Unfolds p) : s.Unfolds q :=
  h.inherits (fun _ _ _ h => h.2) hp

/-- The empty cursor is where the way into the tree starts. -/
theorem wayInto_root : WayInto p [] p := fun _ h => .root h

theorem wayInto_absent : WayInto p c .absent := fun _ h => nomatch h

/-- From a node on either side. -/
theorem WayInto.pick (side : Side) (h : WayInto p c (.node l (i, d) r)) :
    WayInto p (i :: c) (side.pick l r) :=
  fun _ hj => .child side (h i rfl) hj

theorem Tree.admits_nil : p.Admits [] := .inl rfl

/-- A way is a place for a cursor to be. -/
theorem Way.admits (h : Way p c q) : p.Admits c := .inr ⟨q, h⟩

/-- What holds of a tree and all its parts holds of the part the cursor is at; at the ghost this is
the absent tree. -/
theorem Tree.Admits.exists_part {P : Placed ν → Prop} (habsent : P .absent)
    (hP : ∀ l d r, P (.node l d r) → P l ∧ P r) (h : p.Admits c) (hp : P p) :
    ∃ q, c.current = q.root ∧ P q := by
  rcases h with rfl | ⟨q, h⟩
  · exact ⟨.absent, rfl, habsent⟩
  · exact ⟨q, h.current_eq, h.inherits hP hp⟩

/-- So is one step more into a tree that is not absent. -/
theorem WayInto.admits (h : WayInto p c (.node l (i, d) r)) : p.Admits (i :: c) :=
  (h i rfl).admits

/-- Going down one side prolongs a way. -/
theorem WayInto.admits_spine (side : Side) (hq : WayInto p c q) (hc : p.Admits c) :
    p.Admits (q.spine side ++ c) := by
  have hnode : ∀ (l r : Placed ν) (i : Nat) (d : ν) (c : Cursor),
      (∀ c, WayInto p c (side.pick l r) → p.Admits c →
        p.Admits ((side.pick l r).spine side ++ c)) →
      WayInto p c (.node l (i, d) r) → p.Admits ((Tree.node l (i, d) r).spine side ++ c) := by
    intro l r i d c ih hq
    rw [spine_node, List.append_assoc]
    exact ih _ (hq.pick side) hq.admits
  induction q generalizing c with
  | absent => exact hc
  | node l d r ihl ihr =>
    obtain ⟨i, d⟩ := d
    refine hnode l r i d c (fun c hq hc => ?_) hq
    cases side
    · exact ihl hq hc
    · exact ihr hq hc

end

/-! ## Moves -/

namespace Cursor

variable {s : NodeStore K V T} {cfg : Config} {F : Multiset (Placed (Node K V T))}
  {p q : Placed (Node K V T)} {c : Cursor} {side : Side} {e : Option (K × V)}

/-- The root, or the ghost if there is none. -/
theorem admits_atRoot : p.Admits (atRoot p.root) := by
  cases hroot : p.root with
  | none => exact admits_nil
  | some i => exact (Way.root hroot).admits

/-- Climbing ends at a node that was passed on the way down, or at the ghost. -/
theorem climb_admits (near : Side) (hp : s.Unfolds p) (h : Way p c q) :
    ∃ c', climb s near c = .ok c' ∧ p.Admits c' := by
  -- On the way and not on the tree: one step up leaves the way to the parent.
  induction h with
  | root h => exact ⟨[], rfl, admits_nil⟩
  | @child l r i j d c side up h ih =>
    obtain ⟨_, _, _, _, above, heq, rfl⟩ := up.exists_cons
    obtain ⟨rfl, hid, rfl⟩ := heq
    have hread := Store.read_of_unfolds (up.unfolds hp)
    rw [climb, bind_of_eq_ok hread]
    split
    · exact ⟨_, rfl, up.admits⟩
    · exact ih

/-- The next entry in either direction is at the end of a way too, or there is none. -/
theorem advance_admits (side : Side) (hs : s.Sound cfg F) (hp : s.Unfolds p) (h : p.Admits c) :
    ∃ c', c.advance s p.root side = .ok c' ∧ p.Admits c' := by
  rcases h with rfl | ⟨q, h⟩
  · refine ⟨_, descend_spec side.flip hs hp [], ?_⟩
    exact wayInto_root.admits_spine _ admits_nil
  · obtain ⟨l, i, d, r, above, rfl, rfl⟩ := h.exists_cons
    have hq := h.unfolds hp
    rw [advance, bind_of_eq_ok (Store.read_of_unfolds hq), child_eq_root]
    cases hchild : (side.pick l r).root with
    | none => exact climb_admits _ hp h
    | some j =>
      have hinto : WayInto p (i :: above) (side.pick l r) := fun _ hj => .child side h hj
      refine ⟨_, ?_, hinto.admits_spine side.flip h.admits⟩
      have hfar : s.Unfolds (side.pick l r) := hq.2.1.pick hq.2.2
      have hdown := descend_spec side.flip hs hfar (i :: above)
      rwa [hchild] at hdown

/-- The parent of a node on the way is on the way. -/
theorem parent_admits {c' : Cursor} (h : p.Admits c) (hc : c.parent? = some c') :
    p.Admits c' := by
  rcases h with rfl | ⟨q, h⟩
  · cases hc
  · match c, hc with
    | _ :: _ :: _, rfl =>
      obtain ⟨q', hq'⟩ := h.parent
      exact hq'.admits

/-- A step down prolongs the way by the root of the child. -/
theorem child?_spec {l r : Placed (Node K V T)} {i : Nat} {d : Node K V T} (side : Side)
    (hp : s.Unfolds p) (h : Way p c (.node l (i, d) r)) :
    c.child? s side = .ok ((side.pick l r).root.map (· :: c)) := by
  obtain ⟨_, _, _, _, above, heq, rfl⟩ := h.exists_cons
  obtain ⟨rfl, hid, rfl⟩ := heq
  rw [child?, bind_of_eq_ok (Store.read_of_unfolds (h.unfolds hp)), child_eq_root]
  cases (side.pick l r).root <;> rfl

/-- Both children of a node can be gone to, where they exist. -/
theorem child_admits (side : Side) (hp : s.Unfolds p) (h : p.Admits c) :
    ∃ t, c.child? s side = .ok t ∧ ∀ c' ∈ t, p.Admits c' := by
  rcases h with rfl | ⟨q, h⟩
  · exact ⟨none, rfl, fun _ h => nomatch h⟩
  · obtain ⟨l, i, d, r, above, rfl, rfl⟩ := h.exists_cons
    refine ⟨_, child?_spec side hp h, fun c' hc' => ?_⟩
    obtain ⟨j, hj, rfl⟩ := Option.map_eq_some_iff.1 hc'
    exact (Way.child side h hj).admits

/-- A search remembers one of the ways it was on. -/
theorem seekBy_admits [Ord Q] [KeyView K Q] (toward : Ordering) (key : Q) (hs : s.Sound cfg F)
    (hp : s.Unfolds p) : ∃ c', seekBy s p.root toward key = .ok c' ∧ p.Admits c' := by
  rw [seekBy, Store.walk]
  -- Two cursors are carried down, the way so far and the last good place on it.
  refine exists_ok_bind (Store.walkFor_keeps _ (fun q x => WayInto p x.1 q ∧ p.Admits x.2) ?_ _
    ⟨wayInto_root, admits_nil⟩ hp (Nat.le_of_lt (hs.depth_lt hp))) ?_
  · rintro l i d r ⟨way, kept⟩ ⟨hway, hkept⟩
    have hkept' : p.Admits
        (if sought key d.key = .eq ∨ sought key d.key = toward then i :: way else kept) := by
      split
      · exact hway.admits
      · exact hkept
    dsimp only
    cases hord : sought key d.key with
    | lt => exact ⟨l, _, .inl rfl, rfl, hway.pick .left, hord ▸ hkept'⟩
    | eq => exact ⟨.absent, _, .inr (.inr rfl), rfl, wayInto_absent, hord ▸ hkept'⟩
    | gt => exact ⟨r, _, .inr (.inl rfl), rfl, hway.pick .right, hord ▸ hkept'⟩
  · rintro ⟨way, kept⟩ ⟨-, hkept⟩
    exact ⟨kept, rfl, hkept⟩

/-! ## Looking round -/

/-- Reading the entry does not fail anywhere a cursor can be. -/
theorem entry_ok (hp : s.Unfolds p) (h : p.Admits c) : ∃ e, c.entry s = .ok e := by
  rcases h with rfl | ⟨q, h⟩
  · exact ⟨none, rfl⟩
  · obtain ⟨l, i, d, r, above, rfl, rfl⟩ := h.exists_cons
    exact ⟨_, bind_of_eq_ok (Store.read_of_unfolds (h.unfolds hp))⟩

/-- The size below a cursor is read off the node it is at. -/
theorem subtreeSize_spec (hq : s.Unfolds q) (h : c.current = q.root) :
    c.subtreeSize s = .ok q.bare.size.toNat := by
  rw [subtreeSize, h, Subtree.size_spec hq]

/-- So is the aggregate. -/
theorem subtreeAggregate_spec (hq : s.Unfolds q) (h : c.current = q.root) :
    c.subtreeAggregate s = .ok q.bare.aggregate := by
  cases c with
  | nil =>
    obtain rfl := root_eq_none_iff.1 h.symm
    rfl
  | cons i above =>
    obtain ⟨l, d, r, rfl⟩ := eq_node_of_root h.symm
    exact bind_of_eq_ok (Store.read_of_unfolds hq)

/-- The entries to the left are counted up along the way. -/
theorem before_ok (hp : s.Unfolds p) (h : Way p c q) : ∃ n, before s c = .ok n := by
  induction h with
  | root h => exact ⟨0, rfl⟩
  | @child l r i j d c side up h ih =>
    obtain ⟨_, _, _, _, above, heq, rfl⟩ := up.exists_cons
    obtain ⟨rfl, hid, rfl⟩ := heq
    obtain ⟨n, hn⟩ := ih
    have hunf := up.unfolds hp
    rw [before, bind_of_eq_ok (Store.read_of_unfolds hunf), bind_of_eq_ok hn]
    split
    · exact ⟨_, bind_of_eq_ok (Subtree.size_spec hunf.2.1)⟩
    · exact ⟨n, rfl⟩

theorem index_ok (hp : s.Unfolds p) (h : p.Admits c) : ∃ n, c.index s = .ok n := by
  rcases h with rfl | ⟨q, h⟩
  · exact ⟨none, rfl⟩
  · obtain ⟨n, hn⟩ := before_ok hp h
    obtain ⟨l, i, d, r, above, rfl, rfl⟩ := h.exists_cons
    have hunf := h.unfolds hp
    rw [index, bind_of_eq_ok (Store.read_of_unfolds hunf),
      bind_of_eq_ok (Subtree.size_spec hunf.2.1), bind_of_eq_ok hn]
    exact ⟨_, rfl⟩

/-- The ghost stands behind the last entry. -/
theorem position_ok (hp : s.Unfolds p) (h : p.Admits c) : ∃ x, c.position s = .ok x := by
  obtain ⟨q, hcurrent, hq⟩ := h.exists_part Store.unfolds_absent (fun _ _ _ h => h.2) hp
  obtain ⟨e, he⟩ := entry_ok hp h
  obtain ⟨n, hn⟩ := index_ok hp h
  rw [position, bind_of_eq_ok he, bind_of_eq_ok hn, bind_of_eq_ok (subtreeSize_spec hq hcurrent),
    bind_of_eq_ok (subtreeAggregate_spec hq hcurrent)]
  exact ⟨_, rfl⟩

/-- The parent is the rest of the way, and can be read. -/
theorem parentEntry_ok (hp : s.Unfolds p) (h : p.Admits c) : ∃ e, c.parentEntry s = .ok e := by
  rw [parentEntry]
  cases hparent : c.parent? with
  | none => exact ⟨none, rfl⟩
  | some c' => exact entry_ok hp (parent_admits h hparent)

/-- A child can be read without going there. -/
theorem childEntry_ok (side : Side) (hp : s.Unfolds p) (h : p.Admits c) :
    ∃ e, c.childEntry s side = .ok e := by
  obtain ⟨target, htarget, hadmits⟩ := child_admits side hp h
  rw [childEntry, bind_of_eq_ok htarget]
  cases target with
  | none => exact ⟨none, rfl⟩
  | some c' => exact entry_ok hp (hadmits c' rfl)

/-- What is to be seen at the end of a move: the entry there, or none if the move cannot be made. -/
def Sees (s : NodeStore K V T) (target : Except Fault (Option Cursor)) (e : Option (K × V)) :
    Prop :=
  match target with
  | .ok (some c') => c'.entry s = .ok e
  | .ok none => e = none
  | .error _ => False

/-- To peek at the parent is to go there and read. -/
theorem sees_parent (h : c.parentEntry s = .ok e) : Sees s (.ok c.parent?) e := by
  rw [parentEntry] at h
  cases hparent : c.parent? with
  | none => rw [hparent] at h; exact (Except.ok.inj h).symm
  | some c' => rw [hparent] at h; exact h

/-- To peek at a child is to go there and read. -/
theorem sees_child (h : c.childEntry s side = .ok e) : Sees s (c.child? s side) e := by
  rw [childEntry] at h
  obtain ⟨target, htarget, h⟩ := bind_eq_ok_iff.1 h
  rw [htarget]
  cases target with
  | none => exact (Except.ok.inj h).symm
  | some c' => exact h

/-- Looking round shows what the moves would lead to. -/
theorem neighbours_spec (hs : s.Sound cfg F) (hp : s.Unfolds p) (h : p.Admits c) :
    ∃ x, c.neighbours s p.root = .ok x ∧ Sees s (some <$> c.next s p.root) x.next ∧
      Sees s (some <$> c.prev s p.root) x.prev ∧ Sees s (.ok c.parent?) x.parent ∧
      Sees s (c.child? s .left) x.left ∧ Sees s (c.child? s .right) x.right ∧
      ∃ e, c.entry s = .ok e ∧ x.value = e.map (·.2) := by
  obtain ⟨c₁, hnext, h₁⟩ := advance_admits .right hs hp h
  obtain ⟨c₂, hprev, h₂⟩ := advance_admits .left hs hp h
  obtain ⟨e₁, he₁⟩ := entry_ok hp h₁
  obtain ⟨e₂, he₂⟩ := entry_ok hp h₂
  obtain ⟨e₃, he₃⟩ := parentEntry_ok hp h
  obtain ⟨e₄, he₄⟩ := childEntry_ok .left hp h
  obtain ⟨e₅, he₅⟩ := childEntry_ok .right hp h
  obtain ⟨e₆, he₆⟩ := entry_ok hp h
  refine ⟨⟨e₁, e₂, e₃, e₄, e₅, e₆.map (·.2)⟩, ?_, ?_, ?_, sees_parent he₃, sees_child he₄,
    sees_child he₅, e₆, he₆, rfl⟩
  · rw [neighbours, next, prev, bind_of_eq_ok hnext, bind_of_eq_ok he₁, bind_of_eq_ok hprev,
      bind_of_eq_ok he₂, bind_of_eq_ok he₃, bind_of_eq_ok he₄, bind_of_eq_ok he₅,
      bind_of_eq_ok he₆]
    rfl
  · rw [next, hnext]
    exact he₁
  · rw [prev, hprev]
    exact he₂

/-! ## Tours -/

/-- The cursor is where some start and then some moves have brought it, in the tree with a given
root. -/
inductive Toured (Q : Type) [Ord Q] [KeyView K Q] (s : NodeStore K V T) (root : Option Nat) :
    Cursor → Prop where
  | start {origin : TourStart Q} {c : Cursor} (h : start s root origin = .ok c) :
      Toured Q s root c
  | move {version : Nat} {m : Move Q} {sight : Sight K V T} {c c' : Cursor}
      (before : Toured Q s root c) (h : c.move s root version m = .ok (sight, c')) :
      Toured Q s root c'

/-- A move that may not be possible leads on, or nowhere. -/
theorem attempt_spec {target : Option Cursor} (hp : s.Unfolds p) (h : p.Admits c)
    (htarget : ∀ c' ∈ target, p.Admits c') :
    ∃ x, attempt s c target = .ok x ∧ p.Admits x.2 := by
  have hc' : p.Admits (target.getD c) := by
    cases target with
    | none => exact h
    | some c' => exact htarget c' rfl
  obtain ⟨x, hx⟩ := position_ok hp hc'
  exact ⟨_, bind_of_eq_ok hx, hc'⟩

/-- What can be gone through below the cursor is a part of the tree. -/
theorem below_ok (hs : s.Sound cfg F) (hp : s.Unfolds p) (h : p.Admits c) :
    ∃ t, c.below s = .ok t ∧ t.Fits p := by
  obtain ⟨q, hcurrent, hq, hsub⟩ := h.exists_part
    (P := fun q => s.Unfolds q ∧ q.slots ⊆ p.slots) ⟨Store.unfolds_absent, List.nil_subset _⟩
    (fun l d r h => ⟨⟨h.1.2.1, fun i hi => h.2 (mem_slots_node.2 (.inl hi))⟩,
      ⟨h.1.2.2, fun i hi => h.2 (mem_slots_node.2 (.inr (.inr hi)))⟩⟩) ⟨hp, fun _ hi => hi⟩
  obtain ⟨t, ht, hfits⟩ := Traversal.full_ok hs hq
  exact ⟨t, by rw [below, hcurrent, ht], hfits.mono hsub⟩

section

variable [Ord Q] [KeyView K Q]

/-- Every way to start a tour brings the cursor to a place in the tree. -/
theorem start_spec (hs : s.Sound cfg F) (hp : s.Unfolds p) (origin : TourStart Q) :
    ∃ c, start s p.root origin = .ok c ∧ p.Admits c := by
  cases origin with
  | root => exact ⟨_, rfl, admits_atRoot⟩
  | front => exact advance_admits .right hs hp admits_nil
  | back => exact advance_admits .left hs hp admits_nil
  | atKey key => exact seekBy_admits .lt key hs hp

/-- Every move can be made, and leads to a place in the tree. -/
theorem move_spec (hs : s.Sound cfg F) (hp : s.Unfolds p) (h : p.Admits c) (version : Nat)
    (m : Move Q) : ∃ x, c.move s p.root version m = .ok x ∧ p.Admits x.2 := by
  -- After a step there is only its end to look at.
  have hlook : ∀ {step : Except Fault Cursor}, (∃ c', step = .ok c' ∧ p.Admits c') →
      ∃ x, (do let c' ← step; return (Sight.position (← c'.position s), c')) = .ok x ∧
        p.Admits x.2 := by
    intro step hstep
    refine exists_ok_bind hstep fun c' hc' => ?_
    obtain ⟨x, hx⟩ := position_ok hp hc'
    exact ⟨_, bind_of_eq_ok hx, hc'⟩
  cases m with
  | next => exact hlook (advance_admits .right hs hp h)
  | prev => exact hlook (advance_admits .left hs hp h)
  | seek key => exact hlook (seekBy_admits .lt key hs hp)
  | seekBack key => exact hlook (seekBy_admits .gt key hs hp)
  | parent => exact attempt_spec hp h fun _ hc' => parent_admits h hc'
  | child side =>
    obtain ⟨target, htarget, hadmits⟩ := child_admits side hp h
    rw [move, bind_of_eq_ok htarget]
    exact attempt_spec hp h hadmits
  | peek =>
    obtain ⟨x, hx, -⟩ := neighbours_spec hs hp h
    exact ⟨_, bind_of_eq_ok hx, h⟩
  | below =>
    obtain ⟨t, ht, hfits⟩ := below_ok hs hp h
    obtain ⟨t', hdrain, -⟩ := Traversal.drain_ok hs hp hfits
    exact ⟨_, (bind_of_eq_ok ht).trans (bind_of_eq_ok hdrain), h⟩
  | belowBack =>
    obtain ⟨t, ht, hfits⟩ := below_ok hs hp h
    obtain ⟨t', hdrain, -⟩ := Traversal.drainBack_ok hs hp hfits
    exact ⟨_, (bind_of_eq_ok ht).trans (bind_of_eq_ok hdrain), h⟩
  | debug => exact ⟨_, rfl, h⟩

/-- And no move leads out of it, however long the tour. -/
theorem Toured.admits (hs : s.Sound cfg F) (hp : s.Unfolds p)
    (h : Toured Q s p.root c) : p.Admits c := by
  induction h with
  | @start origin c h =>
    obtain ⟨c', hc', hadmits⟩ := start_spec hs hp origin
    obtain rfl := Except.ok.inj (hc'.symm.trans h)
    exact hadmits
  | @move version m sight c c' before h ih =>
    obtain ⟨x, hx, hadmits⟩ := move_spec hs hp ih version m
    obtain rfl := Except.ok.inj (hx.symm.trans h)
    exact hadmits

end

end Cursor

end SharedForest

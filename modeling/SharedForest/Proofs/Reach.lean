/-
Nothing is freed too early, and nothing is kept for ever.

A place is live for one of three reasons: somebody holds a reference to it, a live place
links to it, or its count has dropped to zero and it waits to be taken back.  Going back
along links cannot go on for ever, because the tree below a place is strictly deeper than
those below its links and no tree is deeper than there are slots.  So every live place can
be reached from a held root or from a retired slot (`contains_iff_reaches`); with right
counts this is all that is needed, and it does not matter in which order slots have been
handed out.

The converse direction is the easy one, since links of live places lead to live places.
-/
import SharedForest.Proofs.Run

set_option autoImplicit false

namespace SharedForest

open Tree

variable {K Q V T ν ω : Type}

namespace Store

/-! ## Ways along links -/

/-- The place at slot `i` is live and links to slot `j`. -/
def Leads (s : Store ν) (i j : Nat) : Prop := ∃ cell, s.cell? i = some cell ∧ j ∈ cell.links

/-- Links lead from slot `i` to slot `j`, in any number of steps. -/
def Reaches (s : Store ν) : Nat → Nat → Prop := Relation.ReflTransGen s.Leads

variable {s s' : Store ν} {c : Config} {F : Multiset (Placed ν)} {W : List Nat} {p l r : Placed ν}
  {i j k : Nat} {d : ν}

/-- In a kept tree the root leads to the roots of its children, and nowhere else. -/
theorem leads_node (hp : s.Unfolds (.node l (i, d) r)) :
    s.Leads i j ↔ l.root = some j ∨ r.root = some j := by
  constructor
  · rintro ⟨cell, hcell, hj⟩
    rw [hp.1] at hcell
    obtain rfl := Option.some.inj hcell
    simpa [Cell.links] using hj
  · intro hj
    exact ⟨_, hp.1, by simpa [Cell.links] using hj⟩

/-- The slots of a kept tree are those that its root reaches. -/
theorem mem_slots_iff_reaches (hp : s.Unfolds p) (hroot : p.root = some i) :
    k ∈ p.slots ↔ s.Reaches i k := by
  constructor
  · -- Down the tree: a slot below a child is one link further away.
    intro hk
    induction p generalizing i with
    | absent => cases hroot
    | node l d r ihl ihr =>
      obtain ⟨i', d⟩ := d
      obtain rfl := Option.some.inj hroot
      have hchild : ∀ q : Placed ν, q = l ∨ q = r → k ∈ q.slots →
          (∀ {m}, q.root = some m → s.Reaches m k) → s.Reaches i' k := by
        intro q hq hkq ih
        cases hm : q.root with
        | none => simp [root_eq_none_iff.1 hm] at hkq
        | some m =>
          refine .head ((leads_node hp).2 ?_) (ih hm)
          rcases hq with rfl | rfl
          · exact .inl hm
          · exact .inr hm
      rcases mem_slots_node.1 hk with hk | rfl | hk
      · exact hchild l (.inl rfl) hk fun hm => ihl hp.2.1 hm hk
      · exact .refl
      · exact hchild r (.inr rfl) hk fun hm => ihr hp.2.2 hm hk
  · -- Along the links: the slots of a kept tree are closed under them.
    intro hreach
    induction hreach with
    | refl => exact mem_slots_of_root hroot
    | @tail m k _ hlead ih =>
      clear hroot
      induction p with
      | absent => simp at ih
      | node l d r ihl ihr =>
        obtain ⟨i', d⟩ := d
        rcases mem_slots_node.1 ih with hm | rfl | hm
        · exact mem_slots_node.2 (.inl (ihl hp.2.1 hm))
        · rcases (leads_node hp).1 hlead with hk | hk
          · exact mem_slots_node.2 (.inl (mem_slots_of_root hk))
          · exact mem_slots_node.2 (.inr (.inr (mem_slots_of_root hk)))
        · exact mem_slots_node.2 (.inr (.inr (ihr hp.2.2 hm)))

theorem depth_lt_of_leads {q : Placed ν} (hp : s.Unfolds p) (hroot : p.root = some i)
    (hq : s.Unfolds q) (hroot' : q.root = some j) (hlead : s.Leads i j) : q.depth < p.depth := by
  obtain ⟨l, d, r, rfl⟩ := eq_node_of_root hroot
  rw [depth]
  rcases (leads_node hp).1 hlead with hl | hr
  · rw [unfolds_unique hq hp.2.1 (hroot'.trans hl.symm)]
    omega
  · rw [unfolds_unique hq hp.2.2 (hroot'.trans hr.symm)]
    omega

/-! ## Reasons to be live -/

/-- A reason of its own to be live: a reference from outside, or a place in the queue of those that
are about to be taken back. -/
def Anchored (s : Store ν) (F : Multiset (Placed ν)) (W : List Nat) (i : Nat) : Prop :=
  (∃ p ∈ F, p.root = some i) ∨ i ∈ s.retired.toList ++ W

namespace Counted

theorem contains_of_reaches (h : s.Counted F W) (hi : s.contains i) (hreach : s.Reaches i k) :
    s.contains k := by
  induction hreach with
  | refl => exact hi
  | tail _ hlead _ =>
    obtain ⟨cell, hcell, hk⟩ := hlead
    exact h.contains_of_link hcell hk

theorem contains_of_anchored (h : s.Counted F W) (hi : s.Anchored F W i) : s.contains i := by
  rcases hi with ⟨p, hp, hroot⟩ | hi
  · exact (h.contains_of_mem hp hroot).1
  · exact ((h.waiting_iff i).1 hi).1

/-- A live place has a reason of its own to be live, or a live place that links to it. -/
theorem anchored_or_leads (h : s.Counted F W) (hi : s.contains i) :
    s.Anchored F W i ∨ ∃ j, s.contains j ∧ s.Leads j i := by
  -- By its count: at zero the place waits, and above zero a holder or a link makes it so.
  by_cases hzero : s.refs i = 0
  · exact .inl (.inr ((h.waiting_iff i).2 ⟨hi, hzero⟩))
  · have hrefs := h.refs_eq i
    have hpos : (s.refs i).toNat ≠ 0 := fun h0 => hzero (UInt32.toNat_inj.1 h0)
    by_cases hheld : holders F i = 0
    · have hlinks : s.linksTo i ≠ 0 := by omega
      obtain ⟨j, hj, hcount⟩ := Finset.exists_ne_zero_of_sum_ne_zero hlinks
      have hmem : i ∈ s.linksAt j := List.count_pos_iff.1 (Nat.pos_of_ne_zero hcount)
      have hlive : s.contains j := by
        by_contra hdead
        rw [linksAt_of_dead hdead] at hmem
        cases hmem
      obtain ⟨cell, hcell⟩ := contains_iff_exists.1 hlive
      exact .inr ⟨j, hlive, cell, hcell, linksAt_of_cell hcell ▸ hmem⟩
    · obtain ⟨p, hp, hroot⟩ := Multiset.countP_pos.1 (Nat.pos_of_ne_zero hheld)
      exact .inl (.inl ⟨p, hp, hroot⟩)

/-- Live is what can be reached from a place that has a reason of its own to be. -/
theorem contains_iff_reaches (h : s.Counted F W) (hu : ∀ i, s.contains i → i < s.fresh) :
    s.contains i ↔ ∃ j, s.Anchored F W j ∧ s.Reaches j i := by
  constructor
  · intro hi
    -- The deeper the tree below a place, the fewer steps back are left.
    obtain ⟨p, hroot, hp⟩ := h.grounded i hi
    induction hn : s.fresh - p.depth using Nat.strong_induction_on generalizing i p with
    | _ n ih =>
      rcases h.anchored_or_leads hi with hanchor | ⟨j, hj, hlead⟩
      · exact ⟨i, hanchor, .refl⟩
      · obtain ⟨q, hroot', hq⟩ := h.grounded j hj
        have hlt := depth_lt_of_leads hq hroot' hp hroot hlead
        have hle := depth_le_of_unfolds hq hu
        obtain ⟨k, hk, hreach⟩ := ih (s.fresh - q.depth) (by omega) hj q hroot' hq rfl
        exact ⟨k, hk, hreach.tail hlead⟩
  · rintro ⟨j, hj, hreach⟩
    exact h.contains_of_reaches (h.contains_of_anchored hj) hreach

end Counted

/-- Where nothing waits to be taken back, live are the slots of held trees. -/
theorem Sound.contains_iff_mem_slots (h : s.Sound c F) (hretired : s.retired.toList = []) :
    s.contains i ↔ ∃ p ∈ F, i ∈ p.slots := by
  rw [h.counted.contains_iff_reaches h.stocked.unused]
  constructor
  · rintro ⟨j, ⟨p, hp, hroot⟩ | hj, hreach⟩
    · exact ⟨p, hp, (mem_slots_iff_reaches (h.unfolds hp) hroot).2 hreach⟩
    · simp [hretired] at hj
  · rintro ⟨p, hp, hi⟩
    cases hroot : p.root with
    | none => simp [root_eq_none_iff.1 hroot] at hi
    | some j => exact ⟨j, .inl ⟨p, hp, hroot⟩, (mem_slots_iff_reaches (h.unfolds hp) hroot).1 hi⟩

end Store

end SharedForest

/-
Trees that are in balance and in order.

`Valid` puts the two invariants together.  Balance is kept up whatever the order is; with order
a tree has no node twice, so it has no more entries than there are slots, and then sizes do not
wrap either.  Under a lawful order of keys every operation keeps valid trees valid
(`closed_valid`).

A valid tree is flawless in the sense of `Subtree.check`, which therefore finds nothing wrong with
it (`check_spec`).
-/
import SharedForest.Proofs.Checking

set_option autoImplicit false

namespace SharedForest

open Tree Std

variable {γ K Q V T : Type}

/-- A red-black tree with right caches whose keys increase. -/
structure Valid [Ord K] (aug : Augment K V T) (t : NodeTree K V T) : Prop where
  balanced : Balanced aug t
  increasing : Increasing t.entries

/-! ## Operations -/

section

variable [Ord K] [TransOrd K] {aug : Augment K V T} {t l r : NodeTree K V T} {k : K} {v : V}

/-- All keys are below `k` if the last one is. -/
theorem lt_of_endsBefore (h : Increasing t.entries) (hlast : Forest.EndsBefore t k) :
    ∀ e ∈ t.entries, compare e.1 k = .lt := by
  intro e he
  rcases List.eq_nil_or_concat t.entries with hnil | ⟨init, last, hcat⟩
  · rw [hnil] at he
    cases he
  · have hk := hlast last (by rw [hcat, List.concat_eq_append, List.getLast?_concat]; rfl)
    rw [hcat, List.concat_eq_append] at he h
    rcases List.mem_append.1 he with he | he
    · exact TransCmp.lt_trans ((List.pairwise_append.1 h).2.2 e he last (by simp)) hk
    · rw [List.mem_singleton.1 he]
      exact hk

/-- All keys are above `k` if the first one is. -/
theorem lt_of_startsAfter (h : Increasing t.entries) (hfirst : Forest.StartsAfter t k) :
    ∀ e ∈ t.entries, compare k e.1 = .lt := by
  intro e he
  cases hes : t.entries with
  | nil =>
    rw [hes] at he
    cases he
  | cons first rest =>
    have hk := OrientedCmp.lt_of_gt (hfirst first (by rw [hes]; rfl))
    rw [hes] at he h
    rcases List.mem_cons.1 he with rfl | he
    · exact hk
    · exact TransCmp.lt_trans hk ((List.pairwise_cons.1 h).1 e he)

/-- Keys of one tree are below those of another if its last one is below the other's first. -/
theorem increasing_append_of_apart (hl : Increasing l.entries) (hr : Increasing r.entries)
    (h : Forest.Apart l r) : Increasing (l.entries ++ r.entries) := by
  cases hrs : r.entries with
  | nil => rwa [List.append_nil]
  | cons b rest =>
    have hbefore : Forest.EndsBefore l b.1 := fun a ha => h a ha b (by rw [hrs]; rfl)
    rw [hrs] at hr
    obtain ⟨hb, hrest⟩ := List.pairwise_cons.1 hr
    exact increasing_middle.2 ⟨hl, hrest, lt_of_endsBefore hl hbefore, hb⟩

/-- Every operation keeps valid trees valid.  No law is asked of what keys are looked up by. -/
theorem closed_valid [Ord Q] [KeyView K Q] (aug : Augment K V T) : Closed Q aug (Valid aug) where
  absent := ⟨balanced_absent, increasing_nil⟩
  build items hnone := by
    refine ⟨(closed_balanced (Q := Q) aug).build items hnone, ?_⟩
    rw [entries_build]
    exact increasing_of_firstDisorder hnone
  insert t k v ht hkept :=
    ⟨(closed_balanced (Q := Q) aug).insert t k v ht.balanced hkept,
      increasing_insert aug ht.increasing⟩
  remove t key ht hkept :=
    ⟨(closed_balanced aug).remove t key ht.balanced hkept,
      (increasing_parts aug _ ht.increasing).2.2⟩
  below t key ht hkept := by
    refine ⟨(closed_balanced aug).below t key ht.balanced hkept, ?_⟩
    rw [entries_blacken]
    exact (increasing_parts aug _ ht.increasing).1
  above t key ht hkept := by
    refine ⟨(closed_balanced aug).above t key ht.balanced hkept, ?_⟩
    rw [entries_blacken]
    exact (increasing_parts aug _ ht.increasing).2.1
  join l k v r hl hkeptl hr hkeptr hbefore hafter := by
    refine ⟨(closed_balanced (Q := Q) aug).join l k v r hl.balanced hkeptl hr.balanced hkeptr hbefore
      hafter, ?_⟩
    rw [entries_blacken, entries_join]
    exact increasing_middle.2 ⟨hl.increasing, hr.increasing,
      lt_of_endsBefore hl.increasing hbefore, lt_of_startsAfter hr.increasing hafter⟩
  append l r hl hkeptl hr hkeptr hapart := by
    refine ⟨(closed_balanced (Q := Q) aug).append l r hl.balanced hkeptl hr.balanced hkeptr hapart,
      ?_⟩
    rw [entries_blacken, entries_append]
    exact increasing_append_of_apart hl.increasing hr.increasing hapart
  union merge l r g hl hkeptl hr hkeptr := by
    refine ⟨(closed_balanced (Q := Q) aug).union merge l r g hl.balanced hkeptl hr.balanced hkeptr,
      ?_⟩
    rw [entries_blacken]
    exact (union_of_increasing aug merge g hl.increasing hr.increasing).1

end

/-! ## Checking -/

namespace Subtree

variable [Ord K] [TransOrd K] [BEq T] [ReflBEq T] {s : NodeStore K V T} {c : Config}
  {F : Multiset (Placed (Node K V T))} {p : Placed (Node K V T)} {aug : Augment K V T}

/-- A kept tree that is valid is flawless. -/
theorem flawless_of_valid (hsound : s.Sound c F) (hp : p ∈ F) (hvalid : Valid aug p.bare) :
    Flawless s aug p := by
  have hunf := hsound.unfolds hp
  have hkept : p.bare.Kept := ⟨s, c, F, p, hsound, hunf, rfl⟩
  have hpoised := hvalid.balanced.poised hkept.depth_lt
  have hcount := Store.count_lt_of_unfolds hsound hunf hvalid.increasing
  rw [← count_bare, ← length_entries] at hcount
  obtain ⟨-, -, h, hlevel⟩ := hvalid.balanced
  refine Measures.flawless (m := ⟨h, p.count⟩) ⟨hunf, ?_, hlevel, rfl, hvalid.increasing,
    fun e _ => between_none e.1, ?_⟩ hpoised.black_root
  · exact hsound.refs_ne_of_mem_slots hunf fun i hi => (hsound.counted.contains_of_mem hp hi).2
  · refine ((hpoised.height_eq.and (hpoised.size_eq hcount)).and hpoised.aggregate_eq).imp ?_
    rintro l d r ⟨⟨hheight, hsize⟩, hagg⟩
    exact ⟨hheight, hsize, by rw [← hagg]; exact BEq.rfl⟩

/-- Nothing is wrong with a valid tree. -/
theorem check_spec (hsound : s.Sound c F) (hp : p ∈ F) (hvalid : Valid aug p.bare) :
    check s aug p.root = .ok () :=
  check_ok_iff.2 ⟨p, rfl, hsound.unfolds hp, flawless_of_valid hsound hp hvalid⟩

end Subtree

namespace Session

/-- In every session that a run reaches every handle is on a valid tree, all of it live and
counted, and `validate` finds nothing wrong with it. -/
theorem handles_valid [Ord K] [TransOrd K] [Ord Q] [KeyView K Q] [BEq T] [ReflBEq T]
    {aug : Augment K V T} {configs : List Config} {sort : List (K × V) → List (K × V)}
    {s : Session K V T} {t : Snapshot} (h : s.Reached Q sort aug configs) (ht : t ∈ s.handles) :
    ∃ f p, s.forests[t.forest]? = some f ∧ f.validate t = .ok () ∧ p.root = t.root ∧
      f.store.Unfolds p ∧ (∀ i ∈ p.slots, f.store.contains i ∧ f.store.refs i ≠ 0) ∧
      Valid aug p.bare := by
  have htidy := h.tidy (closed_valid (Q := Q) aug)
  obtain ⟨f, hf, hmem⟩ := has_of_mem_handles htidy ht
  obtain ⟨c, hc⟩ := htidy.exists_config hf
  obtain ⟨-, rfl, htended⟩ := htidy.tended t.forest f c hf hc
  obtain ⟨F, hF, hsound, hvalid⟩ := htended.backs
  obtain ⟨p, hp, hroot⟩ := Forest.exists_tree hF hmem
  refine ⟨f, p, hf, ?_, hroot.symm, hsound.unfolds hp, ?_, hvalid p hp⟩
  · rw [Forest.validate, hroot]
    exact Subtree.check_spec hsound hp (hvalid p hp)
  · intro i hi
    refine ⟨Store.contains_of_mem_slots (hsound.unfolds hp) hi, ?_⟩
    exact hsound.refs_ne_of_mem_slots (hsound.unfolds hp)
      (fun j hj => (hsound.counted.contains_of_mem hp hj).2) i hi

theorem handles_valid_shortRun : ∃ f p, shortRun.forests[0]? = some f ∧
    f.validate ⟨0, some 3, 2⟩ = .ok () ∧ p.root = some 3 ∧ f.store.Unfolds p ∧
      (∀ i ∈ p.slots, f.store.contains i ∧ f.store.refs i ≠ 0) ∧ Valid .sum p.bare :=
  handles_valid (t := ⟨0, some 3, 2⟩) reached_shortRun (by decide +kernel)

end Session

end SharedForest

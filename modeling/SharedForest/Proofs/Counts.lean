/-
Exact counts.

At every moment of a run the count at a live place is the number of handles on it plus
the number of links to it, and every slot that was handed out is in exactly one state:
live and counted, live and waiting in the retired queue, or free.  Nothing here depends
on keys: comparisons may be as unlawful as they like, and so may sorting.  The only
assumption is that no count has wrapped, and that is one look at an alarm.

Inside a command this is what `Sound` says; here it is said in terms of slots and of the
handles a session holds.
-/
import SharedForest.Proofs.Run

set_option autoImplicit false

namespace SharedForest

open Alarmed

variable {K Q V T : Type}

/-- The counts and queues of a forest are exact, where `handles` are all the handles there are. -/
structure Exact (handles : List Snapshot) (c : Config) (f : Forest K V T) : Prop where
  /-- A count is the number of handles and links that lead to the slot. -/
  refs_eq : ∀ i, f.store.contains i →
    (f.store.refs i).toNat
      = handles.countP (fun t => t.forest = f.id ∧ t.root = some i) + f.store.linksTo i
  /-- Links of live places lead to live places. -/
  links_live : ∀ i cell, f.store.cell? i = some cell → ∀ j ∈ cell.links, f.store.contains j
  /-- A slot that was handed out is live, or it is uncounted and waits to be handed out again. -/
  slots : ∀ i < f.store.fresh,
    (f.store.contains i ∧ f.store.free.toList.count i = 0) ∨
      (¬ f.store.contains i ∧ f.store.refs i = 0 ∧ f.store.free.toList.count i = 1)
  /-- Nothing else is free, and nothing else is live. -/
  unused : ∀ i, f.store.fresh ≤ i → ¬ f.store.contains i ∧ i ∉ f.store.free.toList
  /-- The live places without references wait in the retired queue, once each, and nothing else. -/
  retired : ∀ i, f.store.retired.toList.count i
    = if f.store.contains i ∧ f.store.refs i = 0 then 1 else 0
  immediate : c.reclamation = .immediate → f.store.retired.toList = []
  live_eq : f.stats.live = (List.range f.stats.highWater).countP f.store.contains
  total : f.stats.live + f.stats.free = f.stats.highWater
  bounded : f.stats.highWater ≤ c.maxNodes

namespace Forest

variable {f : Forest K V T} {c : Config} {P : NodeTree K V T → Prop} {H : Multiset Snapshot}
  {handles : List Snapshot}

/-- Counts are exact where the books are right. -/
theorem exact_of_backs (h : f.Backs c P H)
    (hH : H = (handles.filter (·.forest = f.id) : List Snapshot)) : Exact handles c f := by
  obtain ⟨F, hF, ⟨hcounted, hstocked, hbacklog⟩, -⟩ := h
  -- Every held tree is there for one handle with the same root.
  have hholders : ∀ i, holders F i
      = handles.countP fun t => t.forest = f.id ∧ t.root = some i := by
    intro i
    calc holders F i = (F.map Tree.root).countP (· = some i) := by
          rw [Multiset.countP_map, holders, Multiset.countP_eq_card_filter]
      _ = (H.map Snapshot.root).countP (· = some i) := by rw [hF]
      _ = _ := by
          rw [hH, Multiset.map_coe, Multiset.coe_countP, List.countP_map, List.countP_filter]
          refine List.countP_congr fun t _ => ?_
          simp [and_comm]
  refine ⟨?_, ?_, ?_, ?_, ?_, ?_, hstocked.live_eq_countP, hstocked.total, ?_⟩
  · intro i _
    rw [← hholders i]
    exact hcounted.refs_eq i
  · exact fun i cell hcell j hj => hcounted.contains_of_link hcell hj
  -- A slot below the mark that is not live is free, and nobody refers to it.
  · intro i hi
    by_cases hlive : f.store.contains i
    · refine .inl ⟨hlive, List.count_eq_zero.2 fun hmem => ?_⟩
      exact ((hstocked.free_iff i).1 hmem).2 hlive
    · obtain ⟨hheld, hlinks⟩ := hcounted.refs_of_dead hlive
      have hrefs := hcounted.refs_eq i
      rw [hheld, hlinks] at hrefs
      refine .inr ⟨hlive, UInt32.toNat_inj.1 hrefs, ?_⟩
      exact List.count_eq_one_of_mem hstocked.free_nodup ((hstocked.free_iff i).2 ⟨hi, hlive⟩)
  · intro i hi
    refine ⟨fun hlive => ?_, fun hmem => ?_⟩
    · exact absurd (hstocked.unused i hlive) (Nat.not_lt.2 hi)
    · exact absurd ((hstocked.free_iff i).1 hmem).1 (Nat.not_lt.2 hi)
  · intro i
    have hiff := hcounted.waiting_iff i
    have hnodup := hcounted.waiting_nodup
    rw [List.append_nil] at hiff hnodup
    split
    · rename_i hwaits
      exact List.count_eq_one_of_mem hnodup (hiff.2 hwaits)
    · rename_i hnot
      exact List.count_eq_zero.2 fun hmem => hnot (hiff.1 hmem)
  · intro hpolicy
    rw [Store.Backlog, hstocked.policy, hpolicy] at hbacklog
    exact hbacklog
  · have hle := hstocked.fresh_le
    rw [hstocked.limit_eq] at hle
    exact Nat.le_trans hle (Nat.min_le_left _ _)

end Forest

namespace Session

/-- In every session that a run reaches all counts are exact. -/
theorem exact_counts [Ord K] [Ord Q] [KeyView K Q] {aug : Augment K V T} {configs : List Config}
    {sort : List (K × V) → List (K × V)} {s : Session K V T} (h : s.Reached Q sort aug configs)
    {n : Nat} {f : Forest K V T} {c : Config} (hf : s.forests[n]? = some f)
    (hc : configs[n]? = some c) : Exact s.handles c f := by
  have htidy := h.tidy (closed_true aug)
  obtain ⟨hid, -, htended⟩ := htidy.tended n f c hf hc
  refine Forest.exact_of_backs htended.backs ?_
  rw [add_zero, htidy.held_eq hf, hid]

theorem exact_counts_shortRun : ∃ f, shortRun.forests[0]? = some f ∧
    Exact shortRun.handles { reclamation := .deferred 2 } f := by
  obtain ⟨f, hf⟩ := Option.isSome_iff_exists.1
    (show (shortRun.forests[0]?).isSome by decide +kernel)
  exact ⟨f, hf, exact_counts reached_shortRun hf rfl⟩

end Session

end SharedForest

/-
What a count can tell.

A place counts the references to it in a 32-bit word.  As long as no count has wrapped, a client
that drops only what it owns and copies only references to what is referred to can rely on the
count: it is the number of references that are outstanding, in hand, under names or in live cells,
and dropping one reference takes back nothing that another one leads to.  The count wraps exactly
when one more reference is taken than the word can tell.

Neither condition can be left out.  Nothing keeps a client from owning more references than that:
when it has taken them all, the count is where it was, and the next one that is dropped takes the
cell back under all the others (`contains_returned_iff`).  And a slot whose last reference was dropped
may still be live while it waits for a batch to be full; a reference that is taken to it then is
counted, but the count is not looked at again when the batch is taken back.
-/
import SharedForest.Proofs.Client

set_option autoImplicit false

namespace SharedForest

open Tree StoreM Alarmed

variable {ν : Type}

namespace Store

variable {s : Store ν} {c : Config} {O : Multiset Nat} {F : Multiset (Placed ν)} {p : Place ν}
  {cell : Cell ν} {i : Nat}

/-! ## Places by their counts -/

/-- One more reference is counted, whatever the count is, and the alarm tells if it wraps. -/
theorem retain_of_get? (hp : s.table.get? i = some p) :
    ∃ s', StoreM.retain i s = .ok () s' ∧ s'.reclamation = s.reclamation ∧
      s'.table.get? i = some { p with refs := p.refs + 1 } ∧
      s'.alarms.countHigh = (s.alarms.countHigh || p.refs + 1 == 0) := by
  refine ⟨{ s with
    table := s.table.modify i fun p => { p with refs := p.refs + 1 }
    alarms := { s.alarms with countHigh := s.alarms.countHigh || p.refs + 1 == 0 } },
    by rw [StoreM.retain, hp], rfl, ?_, rfl⟩
  rw [Table.get?_modify_self, hp]
  rfl

/-- A cell without links is taken back alone. -/
theorem reclaim_leaf (hcell : s.cell? i = some cell) (hlinks : cell.links = []) :
    reclaim [i] s = .ok 1 ((s.emptied i).freed i) := by
  have htake : takeBack i [] s = .ok [] ((s.emptied i).freed i) :=
    takeBack_of_ok hcell (by rw [hlinks]; rfl)
  rw [reclaim, reclaimFrom_of_ok htake, reclaimFrom_nil]

/-- A release looks at the count alone: from a count of one the cell is taken back. -/
theorem contains_release_iff (hp : s.table.get? i = some p) (hcell : p.cell = some cell)
    (hlinks : cell.links = []) (hpolicy : s.reclamation = .immediate) :
    ∃ s', StoreM.release i s = .ok () s' ∧ (s'.contains i ↔ p.refs ≠ 1) := by
  set s₁ : Store ν := { s with
    table := s.table.modify i fun p => { p with refs := p.refs - 1 }
    alarms := { s.alarms with countLow := s.alarms.countLow || p.refs == 0 } } with hs₁
  have hdec : decrement i s = .ok (p.refs == 1) s₁ := by rw [decrement, hp]
  have hcell₁ : s₁.cell? i = some cell := by
    rw [cell?, hs₁, Table.get?_modify_self, hp]
    exact hcell
  by_cases hone : p.refs = 1
  · rw [beq_iff_eq.2 hone] at hdec
    refine ⟨(s₁.emptied i).freed i, ?_,
      iff_of_false not_contains_emptied (not_not_intro hone)⟩
    rw [release_of_last hdec, show s₁.reclamation = .immediate from hpolicy]
    exact discard_eq_ok (reclaim_leaf hcell₁ hlinks)
  · rw [beq_eq_false_iff_ne.2 hone] at hdec
    refine ⟨s₁, by rw [StoreM.release, bind_of_ok hdec]; rfl, iff_of_true ?_ hone⟩
    rw [contains, hcell₁]
    rfl

/-! ## References that are outstanding -/

/-- How many references to slot `i` there are, where `O` are those that are held outside. -/
def outstanding (s : Store ν) (O : Multiset Nat) (i : Nat) : Nat := O.count i + s.linksTo i

/-- The references that trees are held by are the slots of their roots, counted. -/
theorem holders_eq_count (F : Multiset (Placed ν)) (i : Nat) :
    holders F i = (F.filterMap Tree.root).count i := by
  induction F using Multiset.induction_on with
  | empty => rfl
  | cons p F ih =>
    rw [← Multiset.singleton_add, holders_add, ih, Multiset.filterMap_add, Multiset.count_add,
      holders_singleton_eq_count, ← Multiset.coe_count, ← Multiset.cons_zero]
    cases hroot : p.root with
    | none =>
      rw [Multiset.filterMap_cons_none _ _ hroot]
      rfl
    | some j =>
      rw [Multiset.filterMap_cons_some _ _ _ hroot]
      rfl

namespace Owns

/-- The count of a slot is the number of references to it. -/
theorem refs_eq (h : s.Owns c O) (i : Nat) : (s.refs i).toNat = s.outstanding O i := by
  obtain ⟨F, rfl, hsound⟩ := h
  rw [hsound.counted.refs_eq, holders_eq_count, outstanding]

theorem refs_ne_of_outstanding (h : s.Owns c O) (hi : 0 < s.outstanding O i) : s.refs i ≠ 0 := by
  intro hzero
  rw [← h.refs_eq, hzero] at hi
  exact Nat.lt_irrefl 0 hi

/-- Whatever a reference leads to is live. -/
theorem contains (h : s.Owns c O) (hi : 0 < s.outstanding O i) : s.contains i := by
  have hne := h.refs_ne_of_outstanding hi
  obtain ⟨F, rfl, hsound⟩ := h
  exact hsound.counted.contains_of_refs_ne hne

/-- The alarm tells that one reference more was taken than a word can count. -/
theorem retain_rings_iff (h : s.Owns c O) (hi : 0 < s.outstanding O i)
    (hquiet : s.alarms.countHigh = false) :
    ∃ s', StoreM.retain i s = .ok () s' ∧
      (s'.alarms.countHigh = true ↔ s.outstanding O i = 4294967295) := by
  obtain ⟨p, hp, hrefs⟩ := exists_place (h.contains hi)
  obtain ⟨s', hrun, -, -, hhigh⟩ := retain_of_get? hp
  refine ⟨s', hrun, ?_⟩
  rw [hhigh, hquiet, Bool.false_or, beq_iff_eq, ← h.refs_eq, ← hrefs]
  have hlt := p.refs.toNat_lt
  rw [← UInt32.toNat_inj, UInt32.toNat_add]
  simp only [UInt32.toNat_one, UInt32.toNat_zero]
  omega

/-- When a reference is dropped, whatever another one leads to stays. -/
theorem release_exact (h : s.Owns c O) (hi : i ∈ O) :
    ∃ s', StoreM.release i s = .ok () s' ∧
      ∀ j, (s'.refs j).toNat = s'.outstanding (O.erase i) j ∧
        (0 < s'.outstanding (O.erase i) j → s'.contains j) := by
  have hO : O = O.erase i + {i} := by
    rw [add_comm, Multiset.singleton_add, Multiset.cons_erase hi]
  obtain ⟨back, s', hrun, h', -⟩ := (h.cast hO).release
  exact ⟨s', hrun, fun j => ⟨h'.refs_eq j, h'.contains⟩⟩

end Owns

end Store

namespace Bench

variable {b : Bench Unit} {c : Config} {raw : Multiset Nat}

/-- Whatever a disciplined client does, as long as no count has wrapped every count is the number of
references that are outstanding.  Each of them leads to a live cell, also after any other was
dropped.  One more reference makes the count wrap exactly if there are as many already as a word
can tell. -/
theorem references_counted (h : Served c b raw) (hquiet : b.store.alarms.countHigh = false) :
    ∃ O : Multiset Nat, O = raw + (b.links.all : Multiset Nat) ∧
      (∀ i, (b.store.refs i).toNat = b.store.outstanding O i ∧
        (0 < b.store.outstanding O i → b.store.contains i ∧
          ∃ s', StoreM.retain i b.store = .ok () s' ∧
            (s'.alarms.countHigh = true ↔ b.store.outstanding O i = 4294967295))) ∧
      ∀ i ∈ O, ∃ s', StoreM.release i b.store = .ok () s' ∧
        ∀ j, (s'.refs j).toNat = s'.outstanding (O.erase i) j ∧
          (0 < s'.outstanding (O.erase i) j → s'.contains j) := by
  have howns := (h.kept fun hrung => Bool.false_ne_true (hquiet.symm.trans hrung)).owns
  exact ⟨_, rfl, fun i => ⟨howns.refs_eq i, fun hi => ⟨howns.contains hi,
    howns.retain_rings_iff hi hquiet⟩⟩, fun i hi => howns.release_exact hi⟩

theorem references_counted_crowded :
    ∃ O : Multiset Nat, O = {2} + (crowded.links.all : Multiset Nat) ∧
    (crowded.store.refs 2).toNat = crowded.store.outstanding O 2 ∧
    ∃ s', StoreM.release 2 crowded.store = .ok () s' ∧
      (0 < s'.outstanding (O.erase 2) 0 → s'.contains 0) := by
  obtain ⟨O, rfl, hcounts, hrelease⟩ := references_counted served_crowded (by decide +kernel)
  obtain ⟨s', hrun, hleft⟩ := hrelease 2 (by simp)
  exact ⟨_, rfl, (hcounts 2).1, s', hrun, (hleft 0).2⟩

/-! ## When a count has wrapped -/

/-- A cell under the name `a`, and `n` more references to it in hand. -/
def hoard : Nat → Bench Unit
  | 0 => final (execCell (.hold "a" none none) (.new {}))
  | n + 1 => final (execCell (.retain 0) (hoard n))

/-- Where the cell and its references are after `n` more have been taken; the count is told as a
word, whatever `n` is. -/
theorem hoard_spec (n : Nat) : (hoard n).links.get? "a" = some 0 ∧
    (hoard n).links.get? "b" = none ∧ (hoard n).store.reclamation = .immediate ∧
    (hoard n).store.table.get? 0 = some ⟨UInt32.ofNat (n + 1), some ⟨none, none, ()⟩⟩ := by
  induction n with
  | zero => exact ⟨by decide +kernel, by decide +kernel, by decide +kernel, rfl⟩
  | succ n ih =>
    obtain ⟨ha, hb, hpolicy, hp⟩ := ih
    obtain ⟨s', hretain, hsame, hp', -⟩ := Store.retain_of_get? hp
    rw [hoard, execCell, bind_of_ok (onStore_of_ok hretain)]
    refine ⟨ha, hb, hsame.trans hpolicy, hp'.trans ?_⟩
    rw [UInt32.ofNat_add (n + 1) 1]
    rfl

theorem refs_hoard (n : Nat) : (hoard n).store.refs 0 = UInt32.ofNat (n + 1) := by
  obtain ⟨-, -, -, hp⟩ := hoard_spec n
  rw [Store.refs, hp]
  rfl

/-- The count is not zero as long as the word can tell the number. -/
theorem refs_hoard_ne {n : Nat} (hn : n + 1 < 4294967296) : (hoard n).store.refs 0 ≠ 0 := by
  intro hzero
  have hcount := congrArg UInt32.toNat ((refs_hoard n).symm.trans hzero)
  rw [UInt32.toNat_ofNat_of_lt' hn] at hcount
  exact Nat.succ_ne_zero n hcount

/-- As long as the count can tell, there is no reason not to take one more. -/
theorem served_hoard {n : Nat} (hn : n < 4294967296) :
    Served {} (hoard n) (Multiset.replicate n 0) := by
  induction n with
  | zero => exact (Served.start.step (.hold "a" none none) (by decide) (by decide)).cast rfl
  | succ n ih =>
    -- The count has not come round yet, and so a disciplined client may take one more.
    have hstep := (ih (Nat.lt_of_succ_lt hn)).step (.retain 0) (Multiset.zero_le _)
      fun i hi => Option.some.inj hi ▸ refs_hoard_ne hn
    obtain ⟨-, -, -, hp⟩ := hoard_spec n
    obtain ⟨s', hretain, -⟩ := Store.retain_of_get? hp
    have hrun : execCell (.retain 0) (hoard n) = .ok .done { hoard n with store := s' } :=
      bind_of_ok (onStore_of_ok hretain)
    refine hstep.cast ?_
    rw [hrun]
    show Multiset.replicate n 0 - 0 + {0} = _
    rw [tsub_zero, Multiset.replicate_succ, ← Multiset.singleton_add, add_comm]

/-- The same cell under a second name. -/
def lent (n : Nat) : Bench Unit := final (execCell (.copy "a" "b") (hoard n))

/-- The second name gives its reference up. -/
def returned (n : Nat) : Bench Unit := final (execCell (.drop "b") (lent n))

/-- The same cell, one reference more, and a second name. -/
theorem lent_spec (n : Nat) : (lent n).links.get? "a" = some 0 ∧
    (lent n).links.get? "b" = some 0 ∧ (lent n).store.reclamation = .immediate ∧
    (lent n).store.table.get? 0 = some ⟨UInt32.ofNat (n + 2), some ⟨none, none, ()⟩⟩ := by
  obtain ⟨ha, hb, hpolicy, hp⟩ := hoard_spec n
  obtain ⟨s', hretain, hsame, hp', -⟩ := Store.retain_of_get? hp
  have hlink : link "a" (hoard n) = .ok 0 (hoard n) := by
    rw [link, bind_get, ha]
    rfl
  have hkeep : keep "b" (some 0) { hoard n with store := s' }
      = .ok () ⟨s', (hoard n).links.put "b" 0⟩ := by
    rw [keep, bind_get, hb, bind_modify]
    rfl
  rw [lent, execCell, bind_of_ok hlink, bind_of_ok (onStore_of_ok hretain), bind_of_ok hkeep]
  refine ⟨(Names.get?_put_other _ 0 (by decide)).trans ha, Names.get?_put_self _ "b" 0,
    hsame.trans hpolicy, hp'.trans ?_⟩
  rw [UInt32.ofNat_add (n + 1) 1]
  rfl

/-- A reference that was taken and dropped again leaves the cell where it was, or else takes it from
all the others, which is when they are as many as a word has values. -/
theorem contains_returned_iff (n : Nat) :
    (returned n).links.get? "a" = some 0 ∧
      ((returned n).store.contains 0 ↔ ¬ 4294967296 ∣ n + 1) := by
  obtain ⟨ha, hb, hpolicy, hp⟩ := lent_spec n
  obtain ⟨s', hrelease, hiff⟩ := Store.contains_release_iff hp rfl rfl hpolicy
  have hlink : link "b" (lent n) = .ok 0 (lent n) := by
    rw [link, bind_get, hb]
    rfl
  have hkeep : keep "b" none (lent n) = .ok () ⟨s', (lent n).links.erase "b"⟩ := by
    rw [keep, bind_get, hb, bind_modify]
    exact onStore_of_ok hrelease
  rw [returned, execCell, bind_of_ok hlink, bind_of_ok hkeep]
  refine ⟨(Names.get?_erase_other _ (by decide)).trans ha, hiff.trans (not_congr ?_)⟩
  rw [← UInt32.toNat_inj, UInt32.toNat_ofNat']
  simp only [UInt32.toNat_one]
  omega

/-- A command on names alone leaves in hand what was there. -/
theorem Served.step_named {cmd : CellCommand} (h : Served c b raw) (hspent : cmd.spent = 0)
    (hcopied : cmd.copied = none) (hgained : ∀ out, cmd.gained out = 0) :
    Served c (final (execCell cmd b)) raw := by
  refine (h.step cmd (hspent ▸ Multiset.zero_le _) (by simp [hcopied])).cast ?_
  have hproceeds : cmd.proceeds (execCell cmd b) = 0 := by
    cases execCell cmd b with
    | ok out b' => exact hgained out
    | error why b' => rfl
  rw [hspent, hproceeds, tsub_zero, add_zero]

/-- To copy a reference by its name asks nothing more of a client. -/
theorem served_lent {n : Nat} (hn : n < 4294967296) :
    Served {} (lent n) (Multiset.replicate n 0) :=
  (served_hoard hn).step_named rfl rfl fun _ => rfl

theorem served_returned {n : Nat} (hn : n < 4294967296) :
    Served {} (returned n) (Multiset.replicate n 0) :=
  (served_lent hn).step_named rfl rfl fun _ => rfl

/-- A slot waits to be taken back, and another reference to it is taken. -/
def revived : Bench Unit :=
  [.allocate none none, .allocate none none, .release [0], .retain 0].foldl
    (fun b cmd => final (execCell cmd b)) (.new { reclamation := .deferred 2 })

/-- References can get lost.  A disciplined client that owns as many references to a cell as a word
has values, one of them under a name, finds a count of zero; it takes one more and drops it, and the
cell is gone while the name still leads there.  A much shorter run does it where references are
taken to a slot that waits: its count is one when a release of another slot takes it back. -/
theorem references_lost :
    (∃ n, n + 1 = 4294967296 ∧
      Served {} (hoard n) (Multiset.replicate n 0) ∧ (hoard n).store.refs 0 = 0 ∧
      Served {} (lent n) (Multiset.replicate n 0) ∧ (lent n).store.contains 0 ∧
      Served {} (returned n) (Multiset.replicate n 0) ∧
      (returned n).links.get? "a" = some 0 ∧ ¬ (returned n).store.contains 0) ∧
    revived.store.contains 0 ∧ revived.store.refs 0 = 1 ∧
      ¬ (final (execCell (.release [1]) revived)).store.contains 0 := by
  refine ⟨?_, by decide +kernel, by decide +kernel, by decide +kernel⟩
  -- From here on it does not matter which number this is, and nobody counts up to it.
  obtain ⟨n, hn⟩ : ∃ n, n + 1 = 4294967296 := ⟨4294967295, rfl⟩
  have hlt : n < 4294967296 := by omega
  obtain ⟨-, -, -, hp⟩ := lent_spec n
  obtain ⟨ha, hiff⟩ := contains_returned_iff n
  refine ⟨n, hn, served_hoard hlt, ?_, served_lent hlt, ?_, served_returned hlt, ha, ?_⟩
  · rw [refs_hoard, hn]
    rfl
  · rw [Store.contains, Store.cell?, hp]
    rfl
  · rw [hiff, hn]
    exact not_not_intro (dvd_refl _)

end Bench

end SharedForest

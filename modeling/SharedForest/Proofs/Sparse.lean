/-
Slots that are referred to sparsely.

A count of references can wrap, and nothing in a store keeps it from doing so.  But there are fewer
places than a word has values.  So as long as every place links to a slot at most once, and it is
held from outside at most once besides, its count stays in a word, and one more reference may be
taken to it (`retain_calm`).  That leaves no room to spare: with two of them outside, and all other
places linking there, it would wrap.

`Sparse` says this of the slots of all trees that are in hand, together with what makes it last: no
slot occurs in them twice.  A function on subtrees never uses a node it owns in two places, so it
makes such trees of such trees, and what it is given back is new or was among what it was given
(`Reshaped`).  The order of keys has nothing to do with it.
-/
import SharedForest.Proofs.Waning

set_option autoImplicit false

namespace SharedForest

open Alarmed Tree StoreM

variable {ν α β : Type}

/-- The slots of a placed tree, in no order. -/
def Tree.sites (p : Placed ν) : Multiset Nat := p.slots

namespace Tree

variable {l r p : Placed ν} {i j : Nat} {d : ν}

@[simp] theorem sites_absent : (absent : Placed ν).sites = 0 := rfl

@[simp] theorem sites_node : (node l (i, d) r).sites = l.sites + {i} + r.sites := by
  show ((slots (node l (i, d) r) : List Nat) : Multiset Nat) = _
  rw [slots, toList, List.map_append, List.map_cons, ← Multiset.coe_add, ← Multiset.cons_coe,
    ← Multiset.singleton_add, add_assoc]
  rfl

/-- They are the slots of the tree. -/
theorem mem_sites : j ∈ p.sites ↔ j ∈ p.slots := Multiset.mem_coe

/-- Among them is that of the root. -/
theorem mem_sites_of_root (h : p.root = some i) : i ∈ p.sites :=
  mem_sites.2 (mem_slots_of_root h)

end Tree

namespace Store

variable {s s' s'' : Store ν} {c : Config} {F G : Multiset (Placed ν)} {p q l r : Placed ν}
  {js ks ls : Multiset Nat} {i j : Nat} {d : ν}

/-! ## One more reference -/

/-- No place links to itself. -/
theorem Counted.not_mem_linksAt_self {W : List Nat} (h : s.Counted F W) (i : Nat) :
    i ∉ s.linksAt i := by
  by_cases hi : s.contains i
  · obtain ⟨p, hroot, hp⟩ := h.grounded i hi
    obtain ⟨l, d, r, rfl⟩ := eq_node_of_root hroot
    obtain ⟨hl, hr⟩ := not_mem_slots_children hp
    rw [linksAt_of_cell hp.1, Cell.links, List.mem_append, Option.mem_toList, Option.mem_toList]
    rintro (hi | hi)
    · exact hl (mem_slots_of_root hi)
    · exact hr (mem_slots_of_root hi)
  · rw [linksAt_of_dead hi]
    exact List.not_mem_nil

/-- A slot that no place links to twice has fewer links than there are places. -/
theorem linksTo_lt (h : s.Sound c F) (hi : s.contains i)
    (hlinked : ∀ k, (s.linksAt k).count i ≤ 1) : s.linksTo i < s.fresh := by
  have hmem : i ∈ Finset.range s.fresh := Finset.mem_range.2 (h.stocked.unused i hi)
  -- The place itself is one of those in use, and it has none of the links.
  have hself : (s.linksAt i).count i = 0 :=
    List.count_eq_zero.2 (h.counted.not_mem_linksAt_self i)
  have hrest : ∑ k ∈ (Finset.range s.fresh).erase i, (s.linksAt k).count i
      ≤ ((Finset.range s.fresh).erase i).card :=
    (Finset.sum_le_sum fun k _ => hlinked k).trans_eq (Finset.card_eq_sum_ones _).symm
  rw [Finset.card_erase_of_mem hmem, Finset.card_range] at hrest
  have hused := Finset.mem_range.1 hmem
  rw [linksTo, ← Finset.add_sum_erase _ _ hmem, hself]
  omega

/-- One more reference may be taken to a slot that is held from outside at most once. -/
theorem retain_calm (h : s.Sound c F) (hquiet : ¬ Rung s) (hi : s.contains i)
    (hheld : holders F i ≤ 1) (hlinked : ∀ k, (s.linksAt k).count i ≤ 1) :
    ∃ s', retain i s = .ok () s' ∧ ¬ Rung s' ∧ ∀ k, s'.cell? k = s.cell? k := by
  obtain ⟨q, hq, hrefs⟩ := exists_place hi
  have hr : s.Recounted { s with
      table := s.table.modify i fun p => { p with refs := p.refs + 1 }
      alarms := { s.alarms with countHigh := s.alarms.countHigh || q.refs + 1 == 0 } } :=
    .of_modify (fun _ => rfl) rfl
  refine ⟨_, by simp only [retain, hq], ?_, hr.cell?⟩
  have hcount := h.counted.refs_eq i
  have hlinks := linksTo_lt h hi hlinked
  have hfew : s.fresh ≤ 4294967294 :=
    h.stocked.fresh_le.trans (h.stocked.limit_eq.trans_le (Nat.min_le_right _ _))
  have hwrap : q.refs + 1 ≠ 0 := by
    rw [hrefs, ← UInt32.toNat_inj.ne, UInt32.toNat_add, UInt32.toNat_one, UInt32.toNat_zero]
    omega
  show ¬ (s.alarms.countHigh || q.refs + 1 == 0) = true
  rw [Bool.or_eq_true, beq_iff_eq]
  exact not_or.2 ⟨hquiet, hwrap⟩

/-! ## Slots in hand -/

/-- The slots `js` are in hand, none of them twice.  No place links to one of them twice, and nobody
has more than one reference to it among those in `F`, nor has a count wrapped so far. -/
structure Sparse (s : Store ν) (F : Multiset (Placed ν)) (js : Multiset Nat) : Prop where
  quiet : ¬ Rung s
  nodup : js.Nodup
  held : ∀ j ∈ js, holders F j ≤ 1
  linked : ∀ j ∈ js, ∀ k, (s.linksAt k).count j ≤ 1

/-- Cells that have come in link to two different places. -/
def Forks (s s' : Store ν) : Prop :=
  ∀ i cell, s'.cell? i = some cell → s.cell? i = some cell ∨ cell.links.Nodup

/-- With `F` held aside, what is at the slots `ks` has been made of what was at the slots `js`: a
slot that is among `ks` and also in a tree of `F` was among `js` already. -/
structure Reshaped (s : Store ν) (F : Multiset (Placed ν)) (js : Multiset Nat) (s' : Store ν)
    (ks : Multiset Nat) : Prop where
  sparse : s'.Sparse F ks
  forks : s.Forks s'
  stems : ∀ j ∈ ks, ∀ q ∈ F, j ∈ q.sites → j ∈ js

theorem Forks.refl (s : Store ν) : s.Forks s := fun _ _ h => .inl h

/-- Cells that come in, first some and then others. -/
theorem Forks.trans (h : s.Forks s') (h' : s'.Forks s'') : s.Forks s'' := fun i cell hcell =>
  (h' i cell hcell).elim (h i cell) .inr

/-- Where no cell comes in, none comes in that links twice. -/
theorem Waned.forks (h : s.Waned s') : s.Forks s' := fun i cell hcell => .inl (h.cell? i cell hcell)

/-- What no place linked to twice, no place does now. -/
theorem Forks.linked (h : s.Forks s') (hj : ∀ k, (s.linksAt k).count j ≤ 1) (k : Nat) :
    (s'.linksAt k).count j ≤ 1 := by
  cases hcell : s'.cell? k with
  | none =>
    rw [linksAt, hcell]
    exact Nat.zero_le _
  | some cell =>
    rw [linksAt_of_cell hcell]
    rcases h k cell hcell with hold | hnodup
    · rw [← linksAt_of_cell hold]
      exact hj k
    · exact List.nodup_iff_count_le_one.1 hnodup j

namespace Sparse

theorem cast (h : s.Sparse F js) (hjs : js = ks) : s.Sparse F ks := hjs ▸ h

/-- Some of what is in hand is let go. -/
theorem of_le (h : s.Sparse F js) (hle : ks ≤ js) : s.Sparse F ks where
  quiet := h.quiet
  nodup := Multiset.nodup_of_le hle h.nodup
  held j hj := h.held j (Multiset.mem_of_le hle hj)
  linked j hj := h.linked j (Multiset.mem_of_le hle hj)

/-- Two trees that are in hand have no slot in common. -/
theorem disjoint (h : s.Sparse F (js + ks)) (hj : j ∈ js) : j ∉ ks := fun hk =>
  Multiset.disjoint_left.1 (Multiset.nodup_add.1 h.nodup).2.2 hj hk

/-- A tree is held besides whose root is not in hand. -/
theorem hold (h : s.Sparse F js) (hroot : ∀ i, p.root = some i → i ∉ js) :
    s.Sparse (F + {p}) js where
  quiet := h.quiet
  nodup := h.nodup
  held j hj := by
    rw [holders_add, holders_singleton, if_neg fun hi => hroot j hi hj, add_zero]
    exact h.held j hj
  linked := h.linked

/-- A tree that is in hand is laid aside. -/
theorem aside (h : s.Sparse F (p.sites + js)) : s.Sparse (F + {p}) js :=
  (h.of_le (Multiset.le_add_left _ _)).hold fun _ hi => h.disjoint (mem_sites_of_root hi)

/-- A node is laid aside, and its children stay in hand. -/
theorem children (h : s.Sparse F (node l (i, d) r).sites) :
    s.Sparse (F + {.node l (i, d) r}) (l.sites + r.sites) := by
  have h' : s.Sparse F ({i} + (l.sites + r.sites)) := h.cast (by rw [sites_node]; abel)
  refine (h'.of_le (Multiset.le_add_left _ _)).hold fun j hj => ?_
  obtain rfl := Option.some.inj hj
  exact h'.disjoint (Multiset.mem_singleton_self i)

/-- Fewer references are held besides. -/
theorem of_more (h : s.Sparse (F + G) js) : s.Sparse F js where
  quiet := h.quiet
  nodup := h.nodup
  held j hj := (Nat.le_add_right _ _).trans (holders_add ▸ h.held j hj)
  linked := h.linked

/-- The store goes on, and nothing happens to what is in hand. -/
theorem later (h : s.Sparse F js) (hquiet : ¬ Rung s') (hforks : s.Forks s') : s'.Sparse F js where
  quiet := hquiet
  nodup := h.nodup
  held := h.held
  linked j hj := hforks.linked (h.linked j hj)

/-- Nothing has been done yet. -/
theorem reshaped (h : s.Sparse F js) : s.Reshaped F js s js := ⟨h, .refl s, fun _ hj _ _ _ => hj⟩

end Sparse

namespace Reshaped

theorem cast (h : s.Reshaped F js s' ks) {js' ks' : Multiset Nat} (hjs : js = js')
    (hks : ks = ks') : s.Reshaped F js' s' ks' := hjs ▸ hks ▸ h

/-- What is made of what was made of something is made of it. -/
theorem trans (h : s.Reshaped F js s' ks) (h' : s'.Reshaped F ks s'' ls) :
    s.Reshaped F js s'' ls :=
  ⟨h'.sparse, h.forks.trans h'.forks, fun j hj q hq hjq =>
    h.stems j (h'.stems j hj q hq hjq) q hq hjq⟩

/-- A tree that was laid aside is taken up again.  It has no slot in common with what has been made
in the meantime, because such a slot would have been in hand all along. -/
theorem beside (h : s.Sparse F (p.sites + js)) (h' : s.Reshaped (F + {p}) js s' ks) :
    s.Reshaped F (p.sites + js) s' (p.sites + ks) := by
  have hmine : ∀ j ∈ ks, j ∈ p.sites → j ∈ js := fun j hj =>
    h'.stems j hj p (Multiset.mem_add.2 (.inr (Multiset.mem_singleton_self p)))
  have hnodup := (Multiset.nodup_add.1 h.nodup).1
  refine ⟨⟨h'.sparse.quiet, ?_, ?_, ?_⟩, h'.forks, ?_⟩
  · refine Multiset.nodup_add.2 ⟨hnodup, h'.sparse.nodup, Multiset.disjoint_left.2 fun hp hk => ?_⟩
    exact h.disjoint hp (hmine _ hk hp)
  · intro j hj
    rcases Multiset.mem_add.1 hj with hj | hj
    · exact h.held j (Multiset.mem_add.2 (.inl hj))
    · exact h'.sparse.of_more.held j hj
  · intro j hj
    rcases Multiset.mem_add.1 hj with hj | hj
    · exact h'.forks.linked (h.linked j (Multiset.mem_add.2 (.inl hj)))
    · exact h'.sparse.linked j hj
  · intro j hj q hq hjq
    rcases Multiset.mem_add.1 hj with hj | hj
    · exact Multiset.mem_add.2 (.inl hj)
    · exact Multiset.mem_add.2 (.inr (h'.stems j hj q (Multiset.mem_add.2 (.inl hq)) hjq))

end Reshaped

/-- Whatever tree is kept below `root` now has been made of what was at `js`. -/
def Yields (s : Store ν) (F : Multiset (Placed ν)) (js : Multiset Nat) (root : Option Nat)
    (s' : Store ν) : Prop :=
  ∀ x : Placed ν, x.root = root → s'.Unfolds x → s.Reshaped F js s' x.sites

/-- What is yielded after something was reshaped comes of what there was before. -/
theorem Yields.after {root : Option Nat} (h' : s'.Yields F ks root s'')
    (h : s.Reshaped F js s' ks) : s.Yields F js root s'' := fun x hroot hx =>
  h.trans (h' x hroot hx)

/-- A tree that is handed on as it is. -/
theorem Sparse.yields (h : s.Sparse F p.sites) (hp : s.Unfolds p) :
    s.Yields F p.sites p.root s := fun x hroot hx => by
  rw [unfolds_unique hx hp hroot]
  exact h.reshaped

end Store

/-! ## Ending in silence -/

/-- No alarm for counts is heard in the end, and `Q` is known of a result. -/
def Calm {ε σ : Type} [Alarmed σ] (r : EStateM.Result ε σ α) (Q : α → σ → Prop) : Prop :=
  match r with
  | .ok a s => ¬ Rung s ∧ Q a s
  | .error _ s => ¬ Rung s

namespace Calm

variable {ε σ : Type} [Alarmed σ] {m : EStateM ε σ α} {f : α → EStateM ε σ β} {s s' : σ} {a : α}
  {e : ε} {r : EStateM.Result ε σ α} {Q Q' : α → σ → Prop} {R : β → σ → Prop} {E : ε → σ → Prop}

/-- An action that is known to succeed in silence. -/
theorem of_ok (h : m s = .ok a s') (hquiet : ¬ Rung s') (hQ : Q a s') : Calm (m s) Q := by
  rw [h]
  exact ⟨hquiet, hQ⟩

/-- An action that is known to fail in silence. -/
theorem of_error (h : m s = .error e s') (hquiet : ¬ Rung s') : Calm (m s) Q := by
  rw [h]
  exact hquiet

theorem pure (hquiet : ¬ Rung s) (h : Q a s) : Calm ((Pure.pure a : EStateM ε σ α) s) Q :=
  ⟨hquiet, h⟩

/-- Less is known of a result. -/
theorem weaken (h : Calm r Q) (hQ : ∀ a s, ¬ Rung s → Q a s → Q' a s) : Calm r Q' := by
  cases r with
  | ok a s => exact ⟨h.1, hQ a s h.1 h.2⟩
  | error e s => exact h

/-- However it ended, no alarm is heard. -/
theorem not_rung (h : Calm r Q) : ¬ Rung (final r) := by
  cases r with
  | ok a s => exact h.1
  | error e s => exact h

/-- In silence, what is known of an action with the proviso is known without it. -/
theorem ends (h : Calm r Q) (hends : Ends r Q' E) : Calm r fun a s => Q a s ∧ Q' a s := by
  cases r with
  | ok a s => exact ⟨h.1, h.2, hends h.1⟩
  | error e s => exact h

/-- One action after another. -/
theorem bind (hm : Calm (m s) Q) (hf : ∀ a s', ¬ Rung s' → Q a s' → Calm (f a s') R) :
    Calm ((m >>= f) s) R := by
  cases hr : m s with
  | ok a s' =>
    rw [hr] at hm
    rw [bind_of_ok hr]
    exact hf a s' hm.1 hm.2
  | error e s' =>
    rw [hr] at hm
    exact .of_error (bind_of_error hr) hm

/-- The same, with what else is known of the first one. -/
theorem bind_of_ends (hm : Calm (m s) Q) (hends : Ends (m s) Q' E)
    (hf : ∀ a s', Q a s' → Q' a s' → Calm (f a s') R) : Calm ((m >>= f) s) R :=
  (hm.ends hends).bind fun a s' _ h => hf a s' h.1 h.2

/-- What is done with a result in the end. -/
theorem map {g : α → β} (hm : Calm (m s) fun a s' => R (g a) s') : Calm ((g <$> m) s) R := by
  show Calm (EStateM.map g m s) R
  rw [EStateM.map]
  cases hr : m s <;> rw [hr] at hm <;> exact hm

/-- What is held is given back on a failure, and nothing becomes too much by that. -/
theorem guarding {held : List Nat} {action : StoreM ν α} {s : Store ν} {Q : α → Store ν → Prop}
    (h : Calm (action s) Q) : Calm (StoreM.guarding held action s) Q := by
  unfold StoreM.guarding
  cases hr : action s with
  | ok a s' =>
    rw [hr] at h
    exact h
  | error e s' =>
    rw [hr] at h
    obtain ⟨e', s'', hback⟩ := giveBack_fails (α := α) held e s'
    have hwaned := (wanes_giveBack (α := α) held e).waned s'
    rw [hback] at hwaned
    exact of_error hback fun hrung => h (hwaned.rung hrung)

end Calm

end SharedForest

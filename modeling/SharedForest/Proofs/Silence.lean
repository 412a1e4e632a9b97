/-
Insertions in which no count wraps.

There is one law per function on subtrees, beside the one that says what it does to the store.  If
the trees it is given are in hand sparsely, no count wraps in it, and what it hands over is in hand
sparsely again.

References are only ever taken in `expose`, one to each child while the node is still there.  That
is the one reference from outside that is allowed.  Everywhere else it is only to be seen that the
trees which are laid aside in the meantime have no slot in common with what is being worked on.

A tree that nobody else has a part of is in hand sparsely while it is inserted into, and when the
handle on it has been given up, nobody else has a part of the new one (`Forest.insert_calm`).  So
this goes on for as many insertions as there are.
-/
import SharedForest.Proofs.Sparse
import SharedForest.Proofs.Derivation

set_option autoImplicit false

namespace SharedForest

open Alarmed Tree Store StoreM

/-! ## Actions on a store -/

section

variable {ν : Type} {s s' : Store ν} {c : Config} {F : Multiset (Placed ν)} {p l r : Placed ν}
  {js ks : Multiset Nat} {i : Nat}

namespace Store

/-- More is done, of which nothing in hand takes notice. -/
theorem Reshaped.waned {s'' : Store ν} (h : s.Reshaped F js s' ks) (h' : s'.Waned s'') :
    s.Reshaped F js s'' ks :=
  ⟨h.sparse.later (fun hrung => h.sparse.quiet (h'.rung hrung)) h'.forks, h.forks.trans h'.forks,
    h.stems⟩

/-- One reference to a tree that is in hand. -/
theorem share_calm (hsound : s.Sound c F) (hp : s.Unfolds p) (h : s.Sparse F js)
    (hroot : ∀ i, p.root = some i → i ∈ js) :
    Calm (share p.root s) fun _ s' => s.Reshaped F js s' js := by
  unfold share
  cases hi : p.root with
  | none => exact .pure h.quiet h.reshaped
  | some i =>
    have hmem := hroot i hi
    obtain ⟨s', hrun, hquiet, hcell⟩ := retain_calm hsound h.quiet
      (contains_of_mem_slots hp (mem_slots_of_root hi)) (h.held i hmem) (h.linked i hmem)
    have hforks : s.Forks s' := fun k cell hk => .inl (hcell k ▸ hk)
    exact .of_ok (bind_of_ok hrun) hquiet
      ⟨h.later hquiet hforks, hforks, fun _ hj _ _ _ => hj⟩

/-- Two trees that are in hand have different roots. -/
theorem Sparse.nodup_links (h : s.Sparse F (l.sites + r.sites)) (d : ν) :
    (Cell.links ⟨l.root, r.root, d⟩).Nodup := by
  rw [Cell.links, List.nodup_append]
  refine ⟨?_, ?_, ?_⟩
  · cases l.root <;> simp
  · cases r.root <;> simp
  · rintro a ha b hb rfl
    exact h.disjoint (mem_sites_of_root (Option.mem_toList.1 ha))
      (mem_sites_of_root (Option.mem_toList.1 hb))

/-- A cell comes in over two trees that are in hand, at a slot that was not live: so nothing links
to it yet, and it is in no tree of `F`. -/
theorem Sparse.filled {d : ν} (hsound : s.Sound c (F + {l} + {r}))
    (h : s.Sparse F (l.sites + r.sites)) (hi : ¬ s.contains i) (hquiet : ¬ Rung s')
    (hself : s'.cell? i = some ⟨l.root, r.root, d⟩) (hsame : ∀ j, j ≠ i → s'.cell? j = s.cell? j) :
    s.Reshaped F (l.sites + r.sites) s' (node l (i, d) r).sites := by
  have hl : s.Unfolds l := hsound.unfolds (by simp)
  have hr : s.Unfolds r := hsound.unfolds_last
  have hnew : ∀ {q : Placed ν}, s.Unfolds q → i ∉ q.sites := fun hq hmem =>
    hi (contains_of_mem_slots hq (mem_sites.1 hmem))
  have hforks : s.Forks s' := by
    intro j cell hcell
    by_cases hj : j = i
    · rw [hj, hself] at hcell
      obtain rfl := Option.some.inj hcell
      exact .inr (h.nodup_links d)
    · exact .inl (hsame j hj ▸ hcell)
  -- Nothing refers to a slot that is not live.
  have hunlinked : ∀ k, (s.linksAt k).count i ≤ 1 := fun k =>
    (List.count_eq_zero.2 fun hmem => hi (hsound.counted.contains_of_mem_linksAt hmem)).trans_le
      (Nat.zero_le _)
  have hunheld : holders F i = 0 := by
    have hnone := (hsound.counted.refs_of_dead hi).1
    rw [add_assoc, holders_add] at hnone
    exact Nat.eq_zero_of_add_eq_zero_right hnone
  have hcast : (node l (i, d) r).sites = {i} + (l.sites + r.sites) := by rw [sites_node]; abel
  rw [hcast]
  refine ⟨⟨hquiet, ?_, fun j hj => ?_, fun j hj => hforks.linked ?_⟩, hforks,
    fun j hj q hq hjq => ?_⟩
  · refine Multiset.nodup_add.2 ⟨Multiset.nodup_singleton i, h.nodup, ?_⟩
    rw [Multiset.singleton_disjoint, Multiset.mem_add, not_or]
    exact ⟨hnew hl, hnew hr⟩
  · rcases Multiset.mem_add.1 hj with hj | hj
    · rw [Multiset.mem_singleton.1 hj, hunheld]
      exact Nat.zero_le _
    · exact h.held j hj
  · rcases Multiset.mem_add.1 hj with hj | hj
    · exact Multiset.mem_singleton.1 hj ▸ hunlinked
    · exact h.linked j hj
  · rcases Multiset.mem_add.1 hj with hj | hj
    · obtain rfl := Multiset.mem_singleton.1 hj
      exact absurd hjq (hnew (hsound.unfolds (by simp [hq])))
    · exact hj

/-- A cell is stored, or the trees it was to link to are given up. -/
theorem allocate_calm (d : ν) (hsound : s.Sound c (F + {l} + {r}))
    (h : s.Sparse F (l.sites + r.sites)) :
    Calm (allocate ⟨l.root, r.root, d⟩ s) fun i s' =>
      s.Yields F (l.sites + r.sites) (some i) s' := by
  have hquiet : ¬ Rung (final (allocate ⟨l.root, r.root, d⟩ s)) := by
    rw [rung_iff, Leaves.after excess (allocate ⟨l.root, r.root, d⟩) s]
    exact h.quiet
  obtain ⟨i, s', hrun, h', -, hdead, hsame⟩ | ⟨back, s', hrun, -⟩ := allocate_cases d hsound
  · rw [hrun] at hquiet
    refine .of_ok hrun hquiet fun x hroot hx => ?_
    obtain rfl := unfolds_unique hx h'.unfolds_last hroot
    exact h.filled hsound hdead hquiet h'.unfolds_last.1 hsame
  · rw [hrun] at hquiet
    exact .of_error hrun hquiet

/-- What is made next is made of a part of what has been made so far, and the rest stays. -/
theorem Reshaped.onward {s'' : Store ν} {root : Option Nat} {x : Placed ν}
    (h : s.Reshaped F js s' (p.sites + ks)) (h' : s'.Yields (F + {p}) ks root s'')
    (hroot : x.root = root) (hx : s''.Unfolds x) :
    s.Reshaped F js s'' (p.sites + x.sites) := h.trans (.beside h.sparse (h' x hroot hx))

/-- The same, where two trees stay. -/
theorem Reshaped.onward_two {s'' : Store ν} {root : Option Nat} {q x : Placed ν}
    (h : s.Reshaped F js s' (p.sites + (q.sites + ks))) (h' : s'.Yields (F + {p} + {q}) ks root s'')
    (hroot : x.root = root) (hx : s''.Unfolds x) :
    s.Reshaped F js s'' (p.sites + (q.sites + x.sites)) :=
  h.trans (.beside h.sparse (.beside h.sparse.aside (h' x hroot hx)))

/-- What is held besides is of no account any more. -/
theorem Reshaped.within {G : Multiset (Placed ν)} {ls : Multiset Nat}
    (h : s.Reshaped (F + G) js s' ks) (hle : js ≤ ls) : s.Reshaped F ls s' ks :=
  ⟨h.sparse.of_more, h.forks, fun j hj q hq hjq =>
    Multiset.mem_of_le hle (h.stems j hj q (Multiset.mem_add.2 (.inl hq)) hjq)⟩

end Store

/-- What is made next is made of what has been made so far. -/
theorem Calm.after {α : Type} {r : EStateM.Result Failure (Store ν) α} {root : α → Option Nat}
    (h' : Calm r fun a s'' => s'.Yields F ks (root a) s'') (h : s.Reshaped F js s' ks) :
    Calm r fun a s'' => s.Yields F js (root a) s'' := h'.weaken fun _ _ _ hy => hy.after h

end

namespace Subtree

variable {K Q V T : Type} {s s' : NodeStore K V T} {c : Config}
  {F : Multiset (Placed (Node K V T))} {p l r : Placed (Node K V T)} {i : Nat} {d : Node K V T}
  (aug : Augment K V T)

/-! ## Putting a node together and taking it apart -/

/-- To note a size is to change nothing that is in hand. -/
theorem noteSize_calm {js : Multiset Nat} (n : Nat) (h : s.Sparse F js) :
    Calm (noteSize n s) fun _ s' => s.Reshaped F js s' js :=
  have hforks : s.Forks { s with alarms :=
    { s.alarms with sizeHigh := s.alarms.sizeHigh || decide (4294967295 < n) } } :=
    fun _ _ hcell => .inl hcell
  ⟨h.quiet, h.later h.quiet hforks, hforks, fun _ hj _ _ _ => hj⟩

/-- A new node is put over two trees that are in hand. -/
theorem assemble_calm (k : K) (v : V) (col : Color) (hsound : s.Sound c (F + {l} + {r}))
    (h : s.Sparse F (l.sites + r.sites)) :
    Calm (assemble aug l.root k v col r.root s) fun i s' =>
      s.Yields F (l.sites + r.sites) (some i) s' := by
  have hl : s.Unfolds l := hsound.unfolds (by simp)
  obtain ⟨s₁, hnote, h₁⟩ := noteSize_spec (1 + Node.entries l.bare.data?
    + Node.entries r.bare.data?) hsound
  have hcalm := noteSize_calm (1 + Node.entries l.bare.data? + Node.entries r.bare.data?) h
  rw [assemble, bind_of_ok (guarding_of_ok (peeks_eq hl hsound.unfolds_last))]
  dsimp only
  rw [hnote] at hcalm
  rw [bind_of_ok hnote]
  exact (allocate_calm _ h₁ hcalm.2.sparse).after hcalm.2

/-- The children of a node are shared while the node is still there, and counts them. -/
theorem expose_calm (hsound : s.Sound c (F + {.node l (i, d) r}))
    (h : s.Sparse F (Tree.node l (i, d) r).sites) :
    Calm (expose i s) fun _ s' =>
      s.Reshaped F (Tree.node l (i, d) r).sites s' (l.sites + r.sites) := by
  have hnode := hsound.unfolds_last
  rw [expose, bind_of_ok (guarding_of_ok (read_eq hnode))]
  dsimp only
  refine Calm.bind_of_ends (.guarding (share_calm hsound hnode.2.1 h.children fun _ hi =>
      Multiset.mem_add.2 (.inl (mem_sites_of_root hi))))
    (Ends.guarding_never (E := Never) (share_spec hsound hnode.2.1
      (hsound.refs_ne_of_child hnode (.inl rfl)))) fun left s₁ h₁ hs₁ => ?_
  obtain ⟨rfl, hsound₁⟩ := hs₁
  have hnode₁ : s₁.Unfolds (.node l (i, d) r) := hsound₁.unfolds (by simp)
  refine Calm.bind_of_ends (.guarding (share_calm hsound₁ hnode₁.2.2 h₁.sparse.aside fun _ hi =>
      mem_sites_of_root hi))
    (Ends.guarding_never (E := Never) (share_spec hsound₁ hnode₁.2.2
      (hsound₁.refs_ne_of_child hnode₁ (.inr rfl)))) fun right s₂ h₂ hs₂ => ?_
  obtain ⟨rfl, hsound₂⟩ := hs₂
  -- The node may go or stay with other holders; in both cases there is not more afterwards.
  obtain ⟨s₃, hrel, -⟩ := release_spec (p := .node l (i, d) r) (F := F + {l} + {r})
    (hsound₂.cast (by abel)) rfl
  have hwaned := (wanes_release i).waned s₂
  rw [hrel] at hwaned
  rw [bind_of_ok (guarding_of_ok hrel)]
  have hle : l.sites + r.sites ≤ (Tree.node l (i, d) r).sites := by
    rw [sites_node, add_right_comm]
    exact Multiset.le_add_right _ _
  have h₃ := ((h₁.trans (.beside h₁.sparse h₂)).waned hwaned).within hle
  exact .pure h₃.sparse.quiet h₃

/-- A node that is painted is taken apart and put together again. -/
theorem paint_calm (col : Color) (hsound : s.Sound c (F + {p})) (hi : p.root = some i)
    (h : s.Sparse F p.sites) :
    Calm (paint aug i col s) fun j s' => s.Yields F p.sites (some j) s' := by
  obtain ⟨l, d, r, rfl⟩ := Tree.eq_node_of_root hi
  rw [paint, bind_of_ok (guarding_of_ok (read_eq hsound.unfolds_last))]
  dsimp only
  by_cases hcol : d.color = col
  · rw [if_pos hcol]
    exact .pure h.quiet (h.yields hsound.unfolds_last)
  · rw [if_neg hcol]
    refine Calm.bind_of_ends (expose_calm hsound h) (expose_spec hsound) fun e s₁ h₁ hs₁ => ?_
    obtain ⟨rfl, hsound₁⟩ := hs₁
    exact (assemble_calm aug _ _ _ hsound₁ h₁.sparse).after h₁

theorem blacken_calm (hsound : s.Sound c (F + {p})) (h : s.Sparse F p.sites) :
    Calm (blacken aug p.root s) fun root s' => s.Yields F p.sites root s' := by
  cases p with
  | absent => exact .pure h.quiet (h.yields hsound.unfolds_last)
  | node l d r => exact .map (paint_calm aug .black hsound rfl h)

/-! ## Joining -/

/-- The node, its child and the one below are laid aside in turn, and no two of them share a
slot. -/
theorem mendRight_calm (hsound : s.Sound c (F + {l} + {p})) (hi : p.root = some i)
    (right : Option Nat) (h : s.Sparse F (l.sites + p.sites)) :
    Calm (mendRight aug ⟨l.root, d.key, d.value, d.color, right⟩ i s) fun j s' =>
      s.Yields F (l.sites + p.sites) (some j) s' := by
  obtain ⟨rl, e, rr, rfl⟩ := Tree.eq_node_of_root hi
  rw [mendRight, bind_of_ok (guarding_of_ok (pairRight_eq hsound.unfolds_last d.color))]
  by_cases hcond : d.color = .black ∧ e.color = .red ∧ rr.bare.isRed
  · rw [if_pos (by simpa using hcond)]
    refine Calm.bind_of_ends (.guarding (expose_calm hsound h.aside))
      (.guarding_never (E := Never) (expose_spec hsound)) fun re s₁ h₁ hs₁ => ?_
    obtain ⟨rfl, hsound₁⟩ := hs₁
    -- At each step one of the trees in hand is worked on, and what is made of it replaces it.
    have hin₁ : s.Reshaped F (l.sites + (Tree.node rl (i, e) rr).sites) s₁
      (l.sites + (rl.sites + rr.sites)) := .beside h h₁
    have hown₁ : s₁.Sound c (F + {l} + {rl} + {rr}) := hsound₁.cast (by abel)
    refine Calm.bind_of_ends (.guarding (blacken_calm aug hown₁ hin₁.sparse.aside.aside))
      (.guarding_two rl l (blacken_spec aug (hsound₁.cast (by abel)))) fun root s₂ h₂ hs₂ => ?_
    obtain ⟨x, rfl, -, hsound₂⟩ := hs₂
    have hin₂ : s.Reshaped F (l.sites + (Tree.node rl (i, e) rr).sites) s₂
      (x.sites + (l.sites + rl.sites)) :=
        (hin₁.onward_two h₂ rfl hsound₂.unfolds_last).cast rfl (by abel)
    have hown₂ : s₂.Sound c (F + {x} + {l} + {rl}) := hsound₂.cast (by abel)
    refine Calm.bind_of_ends (.guarding (assemble_calm aug _ _ .black hown₂ hin₂.sparse.aside))
      (.guarding_one x (assemble_spec aug _ _ _ hown₂)) fun top s₃ h₃ hs₃ => ?_
    obtain ⟨y, hy, -, hsound₃⟩ := hs₃
    have hin₃ : s.Reshaped F (l.sites + (Tree.node rl (i, e) rr).sites) s₃ (y.sites + x.sites) :=
      (hin₂.onward h₃ hy hsound₃.unfolds_last).cast rfl (by abel)
    rw [← hy]
    exact (assemble_calm aug _ _ _ (hsound₃.cast (by abel)) hin₃.sparse).after hin₃
  · rw [if_neg (by simpa using hcond), ← hi]
    exact assemble_calm aug _ _ _ hsound h

/-- The mirror image of `mendRight_calm`. -/
theorem mendLeft_calm (hsound : s.Sound c (F + {r} + {p})) (hi : p.root = some i)
    (left : Option Nat) (h : s.Sparse F (r.sites + p.sites)) :
    Calm (mendLeft aug ⟨left, d.key, d.value, d.color, r.root⟩ i s) fun j s' =>
      s.Yields F (r.sites + p.sites) (some j) s' := by
  obtain ⟨ll, e, lr, rfl⟩ := Tree.eq_node_of_root hi
  rw [mendLeft, bind_of_ok (guarding_of_ok (pairLeft_eq hsound.unfolds_last d.color))]
  by_cases hcond : d.color = .black ∧ e.color = .red ∧ ll.bare.isRed
  · rw [if_pos (by simpa using hcond)]
    refine Calm.bind_of_ends (.guarding (expose_calm hsound h.aside))
      (.guarding_never (E := Never) (expose_spec hsound)) fun le s₁ h₁ hs₁ => ?_
    obtain ⟨rfl, hsound₁⟩ := hs₁
    have hin₁ : s.Reshaped F (r.sites + (Tree.node ll (i, e) lr).sites) s₁
      (r.sites + (lr.sites + ll.sites)) := (Reshaped.beside h h₁).cast rfl (by abel)
    have hown₁ : s₁.Sound c (F + {r} + {lr} + {ll}) := hsound₁.cast (by abel)
    refine Calm.bind_of_ends (.guarding (blacken_calm aug hown₁ hin₁.sparse.aside.aside))
      (.guarding_two lr r (blacken_spec aug (hsound₁.cast (by abel)))) fun root s₂ h₂ hs₂ => ?_
    obtain ⟨x, rfl, -, hsound₂⟩ := hs₂
    have hin₂ : s.Reshaped F (r.sites + (Tree.node ll (i, e) lr).sites) s₂
      (x.sites + (lr.sites + r.sites)) :=
        (hin₁.onward_two h₂ rfl hsound₂.unfolds_last).cast rfl (by abel)
    have hown₂ : s₂.Sound c (F + {x} + {lr} + {r}) := hsound₂.cast (by abel)
    refine Calm.bind_of_ends (.guarding (assemble_calm aug _ _ .black hown₂ hin₂.sparse.aside))
      (.guarding_one x (assemble_spec aug _ _ _ hown₂)) fun top s₃ h₃ hs₃ => ?_
    obtain ⟨y, hy, -, hsound₃⟩ := hs₃
    have hin₃ := hin₂.onward h₃ hy hsound₃.unfolds_last
    rw [← hy]
    exact (assemble_calm aug _ _ _ (hsound₃.cast (by abel)) hin₃.sparse).after hin₃
  · rw [if_neg (by simpa using hcond), ← hi]
    exact (assemble_calm aug _ _ _ (hsound.cast (by abel)) (h.cast (by abel))).after
      (h.reshaped.cast rfl (by abel))

/-- By induction on the steps that are left: what is left of a node is laid aside while the join
goes on to its right. -/
theorem joinRight_calm (k : K) (v : V) {n : Nat} {tl tr : Placed (Node K V T)} (hn : tl.depth < n)
    (hsound : s.Sound c (F + {tl} + {tr})) (h : s.Sparse F (tl.sites + tr.sites)) :
    Calm (joinRight aug n tl.root k v tr.root s) fun i s' =>
      s.Yields F (tl.sites + tr.sites) (some i) s' := by
  induction n generalizing tl s F with
  | zero => exact absurd hn (Nat.not_lt_zero _)
  | succ n ih =>
    have hhung := assemble_calm aug k v .red hsound h
    rw [joinRight, bind_of_ok (guarding_of_ok (height_eq hsound.unfolds_last))]
    cases tl with
    | absent => exact hhung
    | node l d r =>
      obtain ⟨i, d⟩ := d
      have hnode : s.Unfolds (.node l (i, d) r) := hsound.unfolds (by simp)
      rw [Tree.root_node]
      dsimp only
      rw [bind_of_ok (guarding_of_ok (read_eq hnode))]
      by_cases hhere : d.color = .black ∧ d.height = tr.bare.height
      · rw [if_pos hhere]
        exact hhung
      · rw [if_neg hhere]
        have hr : r.depth < n := by
          simp only [Tree.depth] at hn
          omega
        have hsound₀ : s.Sound c (F + {tr} + {.node l (i, d) r}) := hsound.cast (by abel)
        have hin₀ : s.Sparse F (tr.sites + (Tree.node l (i, d) r).sites) := h.cast (by abel)
        refine Calm.bind_of_ends (.guarding (expose_calm hsound₀ hin₀.aside))
          (.guarding_never (E := Never) (expose_spec hsound₀)) fun e s₁ h₁ hs₁ => ?_
        obtain ⟨rfl, hsound₁⟩ := hs₁
        have hin₁ : s.Reshaped F ((Tree.node l (i, d) r).sites + tr.sites) s₁
          (l.sites + (r.sites + tr.sites)) := (Reshaped.beside hin₀ h₁).cast (by abel) (by abel)
        have hown : s₁.Sound c (F + {l} + {r} + {tr}) := hsound₁.cast (by abel)
        refine Calm.bind_of_ends (.guarding (ih hr hown hin₁.sparse.aside))
          (.guarding_one l (joinRight_spec aug k v hr hown)) fun i' s₂ h₂ hs₂ => ?_
        obtain ⟨p, hi, -, hsound₂⟩ := hs₂
        have hin₂ := hin₁.onward h₂ hi hsound₂.unfolds_last
        exact (mendRight_calm aug hsound₂ hi _ hin₂.sparse).after hin₂

/-- The mirror image of `joinRight_calm`. -/
theorem joinLeft_calm (k : K) (v : V) {n : Nat} {tl tr : Placed (Node K V T)} (hn : tr.depth < n)
    (hsound : s.Sound c (F + {tl} + {tr})) (h : s.Sparse F (tl.sites + tr.sites)) :
    Calm (joinLeft aug n tl.root k v tr.root s) fun i s' =>
      s.Yields F (tl.sites + tr.sites) (some i) s' := by
  induction n generalizing tr s F with
  | zero => exact absurd hn (Nat.not_lt_zero _)
  | succ n ih =>
    have hhung := assemble_calm aug k v .red hsound h
    rw [joinLeft, bind_of_ok (guarding_of_ok (height_eq (hsound.unfolds (by simp))))]
    cases tr with
    | absent => exact hhung
    | node l d r =>
      obtain ⟨i, d⟩ := d
      rw [Tree.root_node]
      dsimp only
      rw [bind_of_ok (guarding_of_ok (read_eq hsound.unfolds_last))]
      by_cases hhere : d.color = .black ∧ d.height = tl.bare.height
      · rw [if_pos hhere]
        exact hhung
      · rw [if_neg hhere]
        have hl : l.depth < n := by
          simp only [Tree.depth] at hn
          omega
        refine Calm.bind_of_ends (.guarding (expose_calm hsound h.aside))
          (.guarding_never (E := Never) (expose_spec hsound)) fun e s₁ h₁ hs₁ => ?_
        obtain ⟨rfl, hsound₁⟩ := hs₁
        have hin₁ : s.Reshaped F (tl.sites + (Tree.node l (i, d) r).sites) s₁
          (r.sites + (tl.sites + l.sites)) := (Reshaped.beside h h₁).cast rfl (by abel)
        have hown : s₁.Sound c (F + {r} + {tl} + {l}) := hsound₁.cast (by abel)
        refine Calm.bind_of_ends (.guarding (ih hl hown hin₁.sparse.aside))
          (.guarding_one r (joinLeft_spec aug k v hl hown)) fun i' s₂ h₂ hs₂ => ?_
        obtain ⟨p, hi, -, hsound₂⟩ := hs₂
        have hin₂ := hin₁.onward h₂ hi hsound₂.unfolds_last
        exact (mendLeft_calm aug hsound₂ hi _ hin₂.sparse).after hin₂

/-- The last step of a join. -/
theorem mendRoot_calm {pair : NodeM K V T Bool} {red : Bool} (hsound : s.Sound c (F + {p}))
    (hi : p.root = some i) (hpair : pair s = .ok red s) (h : s.Sparse F p.sites) :
    Calm ((do
        let redPair ← guarding [i] pair
        if redPair then paint aug i .black else pure i : NodeM K V T Nat) s)
      fun j s' => s.Yields F p.sites (some j) s' := by
  rw [bind_of_ok (guarding_of_ok hpair)]
  cases red
  · exact .pure h.quiet (hi ▸ h.yields hsound.unfolds_last)
  · exact paint_calm aug .black hsound hi h

/-- Whichever way a join goes. -/
theorem join_calm (k : K) (v : V) {tl tr : Placed (Node K V T)}
    (hsound : s.Sound c (F + {tl} + {tr})) (h : s.Sparse F (tl.sites + tr.sites)) :
    Calm (join aug tl.root k v tr.root s) fun i s' =>
      s.Yields F (tl.sites + tr.sites) (some i) s' := by
  have hl : s.Unfolds tl := hsound.unfolds (by simp)
  have hr : s.Unfolds tr := hsound.unfolds_last
  rw [join, bind_of_ok (guarding_of_ok (heights_eq hl hr))]
  dsimp only
  by_cases hlt : tr.bare.height < tl.bare.height
  · rw [if_pos hlt, bind_of_ok depthBound_eq]
    have hdepth := hsound.depth_lt hl
    refine Calm.bind_of_ends (joinRight_calm aug k v hdepth hsound h)
      (joinRight_spec aug k v hdepth hsound) fun i s₁ h₁ hs₁ => ?_
    obtain ⟨p, hi, -, hsound₁⟩ := hs₁
    have hin₁ := h₁ p hi hsound₁.unfolds_last
    exact (mendRoot_calm aug hsound₁ hi (redPairRight_eq hsound₁.unfolds_last hi)
      hin₁.sparse).after hin₁
  rw [if_neg hlt]
  by_cases hgt : tl.bare.height < tr.bare.height
  · rw [if_pos hgt, bind_of_ok depthBound_eq]
    have hdepth := hsound.depth_lt hr
    refine Calm.bind_of_ends (joinLeft_calm aug k v hdepth hsound h)
      (joinLeft_spec aug k v hdepth hsound) fun i s₁ h₁ hs₁ => ?_
    obtain ⟨p, hi, -, hsound₁⟩ := hs₁
    have hin₁ := h₁ p hi hsound₁.unfolds_last
    exact (mendRoot_calm aug hsound₁ hi (redPairLeft_eq hsound₁.unfolds_last hi)
      hin₁.sparse).after hin₁
  rw [if_neg hgt, bind_of_ok (guarding_of_ok (eitherRed_eq hl hr))]
  exact assemble_calm aug k v _ hsound h

/-! ## Splitting -/

/-- The two parts of a split, side by side, have been made of what was at `js`. -/
def Parted (s : NodeStore K V T) (F : Multiset (Placed (Node K V T))) (js : Multiset Nat)
    (res : Parts V) (s' : NodeStore K V T) : Prop :=
  ∀ x y : Placed (Node K V T), x.root = res.below → y.root = res.above → s'.Unfolds x →
    s'.Unfolds y → s.Reshaped F js s' (x.sites + y.sites)

/-- Two trees that are handed on as they are. -/
theorem parted_of_reshaped {found : Option V} {js : Multiset Nat} (hl : s'.Unfolds l)
    (hr : s'.Unfolds r) (h : s.Reshaped F js s' (l.sites + r.sites)) :
    Parted s F js ⟨l.root, found, r.root⟩ s' := fun x y hx hy hx' hy' => by
  obtain rfl := unfolds_unique hx' hl hx
  obtain rfl := unfolds_unique hy' hr hy
  exact h

theorem parted_absent (h : s.Sparse F 0) : Parted s F 0 ⟨none, none, none⟩ s :=
  parted_of_reshaped (l := .absent) (r := .absent) unfolds_absent unfolds_absent h.reshaped

/-- What is handed over while another tree is laid aside. -/
theorem Parted.onward {s'' : NodeStore K V T} {found : Option V} {js ks : Multiset Nat}
    {x y : Placed (Node K V T)} (h' : Parted s' (F + {p}) ks ⟨x.root, found, y.root⟩ s'')
    (h : s.Reshaped F js s' (p.sites + ks)) (hx : s''.Unfolds x) (hy : s''.Unfolds y) :
    s.Reshaped F js s'' (p.sites + (x.sites + y.sites)) :=
  h.trans (.beside h.sparse (h' x y rfl rfl hx hy))

/-- By induction on the steps that are left: one child is laid aside while the other is split, and
the parts that come back have no slot in common with it. -/
theorem splitFor_calm [Ord Q] [KeyView K Q] (key : Q) {n : Nat} (hn : p.depth ≤ n)
    (hsound : s.Sound c (F + {p})) (h : s.Sparse F p.sites) :
    Calm (splitFor aug key n p.root s) fun res s' => Parted s F p.sites res s' := by
  induction n generalizing p s F with
  | zero =>
    cases p with
    | absent => exact .pure h.quiet (parted_absent h)
    | node l d r => exact absurd hn (Nat.not_succ_le_zero _)
  | succ n ih =>
    cases p with
    | absent => exact .pure h.quiet (parted_absent h)
    | node l d r =>
      obtain ⟨i, d⟩ := d
      have hdepth : l.depth ≤ n ∧ r.depth ≤ n := by
        simp only [Tree.depth] at hn
        omega
      rw [Tree.root_node, splitFor, bind_of_ok (guarding_of_ok (read_eq hsound.unfolds_last))]
      dsimp only
      refine Calm.bind_of_ends (expose_calm hsound h) (expose_spec hsound) fun e s₁ h₁ hs₁ => ?_
      obtain ⟨rfl, hsound₁⟩ := hs₁
      cases sought key d.key with
      | eq =>
        exact .pure h₁.sparse.quiet
          (parted_of_reshaped (hsound₁.unfolds (by simp)) hsound₁.unfolds_last h₁)
      | lt =>
        -- The key goes left, so the right child is laid aside while the left one is split.
        have hin₁ := h₁.cast rfl (add_comm l.sites r.sites)
        have hown : s₁.Sound c (F + {r} + {l}) := hsound₁.cast (by abel)
        refine Calm.bind_of_ends (.guarding (ih hdepth.1 hown hin₁.sparse.aside))
          (.guarding_one r (splitFor_spec aug key hdepth.1 hown)) fun res s₂ h₂ hs₂ => ?_
        obtain ⟨p, q, rfl, -, -, hsound₂⟩ := hs₂
        have hin₂ : s.Reshaped F (Tree.node l (i, d) r).sites s₂ (p.sites + (q.sites + r.sites)) :=
          (h₂.onward hin₁ (hsound₂.unfolds (by simp)) hsound₂.unfolds_last).cast rfl (by abel)
        have hown₂ : s₂.Sound c (F + {p} + {q} + {r}) := hsound₂.cast (by abel)
        refine Calm.bind_of_ends (.guarding (join_calm aug d.key d.value hown₂ hin₂.sparse.aside))
          (.guarding_one p (join_spec aug d.key d.value hown₂)) fun top s₃ h₃ hs₃ => ?_
        obtain ⟨x, hx, -, hsound₃⟩ := hs₃
        have hin₃ := hin₂.onward h₃ hx hsound₃.unfolds_last
        rw [← hx]
        exact .pure hin₃.sparse.quiet
          (parted_of_reshaped (hsound₃.unfolds (by simp)) hsound₃.unfolds_last hin₃)
      | gt =>
        -- The key goes right, and it is the left child that is laid aside.
        refine Calm.bind_of_ends (.guarding (ih hdepth.2 hsound₁ h₁.sparse.aside))
          (.guarding_one l (splitFor_spec aug key hdepth.2 hsound₁)) fun res s₂ h₂ hs₂ => ?_
        obtain ⟨p, q, rfl, -, -, hsound₂⟩ := hs₂
        have hin₂ : s.Reshaped F (Tree.node l (i, d) r).sites s₂ (q.sites + (l.sites + p.sites)) :=
          (h₂.onward h₁ (hsound₂.unfolds (by simp)) hsound₂.unfolds_last).cast rfl (by abel)
        have hown₂ : s₂.Sound c (F + {q} + {l} + {p}) := hsound₂.cast (by abel)
        refine Calm.bind_of_ends (.guarding (join_calm aug d.key d.value hown₂ hin₂.sparse.aside))
          (.guarding_one q (join_spec aug d.key d.value hown₂)) fun top s₃ h₃ hs₃ => ?_
        obtain ⟨x, hx, -, hsound₃⟩ := hs₃
        have hin₃ := (hin₂.onward h₃ hx hsound₃.unfolds_last).cast rfl (add_comm q.sites x.sites)
        rw [← hx]
        exact .pure hin₃.sparse.quiet
          (parted_of_reshaped hsound₃.unfolds_last (hsound₃.unfolds (by simp)) hin₃)

theorem split_calm [Ord Q] [KeyView K Q] (key : Q) (hsound : s.Sound c (F + {p}))
    (h : s.Sparse F p.sites) :
    Calm (split aug p.root key s) fun res s' => Parted s F p.sites res s' := by
  rw [split, bind_of_ok depthBound_eq]
  exact splitFor_calm aug key (Nat.le_of_lt (hsound.depth_lt hsound.unfolds_last)) hsound h

/-- A split, a join and a black root, all of trees in hand. -/
theorem insert_calm [Ord K] (k : K) (v : V) (hsound : s.Sound c (F + {p}))
    (h : s.Sparse F p.sites) :
    Calm (insert aug p.root k v s) fun i s' => s.Yields F p.sites (some i) s' := by
  refine Calm.bind_of_ends (split_calm aug k hsound h) (split_spec aug k hsound)
    fun res s₁ h₁ hs₁ => ?_
  obtain ⟨x, y, rfl, -, -, hsound₁⟩ := hs₁
  have hin₁ := h₁ x y rfl rfl (hsound₁.unfolds (by simp)) hsound₁.unfolds_last
  refine Calm.bind_of_ends (join_calm aug k v hsound₁ hin₁.sparse) (join_spec aug k v hsound₁)
    fun i s₂ h₂ hs₂ => ?_
  obtain ⟨z, hi, -, hsound₂⟩ := hs₂
  have hin₂ := hin₁.trans (h₂ z hi hsound₂.unfolds_last)
  exact (paint_calm aug .black hsound₂ hi hin₂.sparse).after hin₂

end Subtree

/-! ## A tree that is nobody else's -/

namespace Store

variable {ν : Type} {s s' : Store ν} {c : Config} {G : Multiset (Placed ν)} {p x : Placed ν}

/-- While `G` is held besides, the tree `p` is in hand, and has no place in common with a tree of
`G`. -/
structure Alone (s : Store ν) (G : Multiset (Placed ν)) (p : Placed ν) : Prop where
  sparse : s.Sparse G p.sites
  apart : ∀ q ∈ G, ∀ j ∈ p.sites, j ∉ q.sites

/-- There is just the one reference to it, and that to its root. -/
theorem Alone.sparse_last (h : s.Alone G p) : s.Sparse (G + {p}) p.sites where
  quiet := h.sparse.quiet
  nodup := h.sparse.nodup
  held j hj := by
    have hnone : holders G j = 0 := Nat.eq_zero_of_not_pos fun hpos => by
      obtain ⟨q, hq, hroot⟩ := Multiset.countP_pos.1 hpos
      exact h.apart q hq j hj (mem_sites_of_root hroot)
    rw [holders_add, holders_singleton, hnone, Nat.zero_add]
    split <;> omega
  linked := h.sparse.linked

/-- What is made of it is nobody else's either. -/
theorem Alone.reshaped (h : s.Alone G p) (h' : s.Reshaped (G + {p}) p.sites s' x.sites) :
    s'.Alone G x :=
  ⟨h'.sparse.of_more, fun q hq j hj hjq =>
    h.apart q hq j (h'.stems j hj q (Multiset.mem_add.2 (.inl hq)) hjq) hjq⟩

/-- What others give up leaves a tree as much alone as it was. -/
theorem Alone.waned (h : s.Alone G p) (h' : s.Waned s') : s'.Alone G p :=
  ⟨h.sparse.later (fun hrung => h.sparse.quiet (h'.rung hrung)) h'.forks, h.apart⟩

/-- No tree is anybody's. -/
theorem alone_absent (hquiet : ¬ Rung s) : s.Alone G .absent where
  sparse := ⟨hquiet, Multiset.nodup_zero, fun j hj => absurd hj (Multiset.notMem_zero j),
    fun j hj => absurd hj (Multiset.notMem_zero j)⟩
  apart _ _ j hj := absurd hj (Multiset.notMem_zero j)

end Store

namespace Forest

variable {K V T α : Type} {f : Forest K V T} {c : Config} {G : Multiset (Placed (Node K V T))}
  {p : Placed (Node K V T)} {t t' : Snapshot}

/-- A forest is silent if its store is. -/
theorem onStore_calm {action : Augment K V T → NodeM K V T α} {Q : α → NodeStore K V T → Prop}
    (h : Calm (action f.augment f.store) Q) :
    Calm (onStore action f) fun a f' => Q a f'.store := by
  unfold onStore
  cases hr : action f.augment f.store <;> rw [hr] at h <;> exact h

/-- The tree of a snapshot is nobody else's. -/
def Lone (f : Forest K V T) (t : Snapshot) : Prop :=
  ∃ c G p, p.root = t.root ∧ f.store.Sound c (G + {p}) ∧ f.store.Alone G p

theorem Lone.quiet (h : f.Lone t) : ¬ Rung f := by
  obtain ⟨c, G, p, -, -, halone⟩ := h
  exact halone.sparse.quiet

instance leaves_rung_empty : Leaves Rung (empty (K := K) (V := V) (T := T)) := ⟨fun _ => rfl⟩

/-- Giving a handle up makes no count wrap. -/
instance leaves_rung_drop (t : Snapshot) : Leaves Rung (drop (K := K) (V := V) (T := T) t) := by
  constructor
  intro f
  rw [drop, final_onStore]
  exact congrArg (·.1 = true) (Leaves.after excess (unshare t.root) f.store)

/-- An insertion into a tree that is nobody else's makes no count wrap, and once the tree from
before has been given up, the new one is nobody else's. -/
theorem insert_calm [Ord K] (k : K) (v : V) (h : f.Lone t) :
    Calm (insert t k v f) fun t' f' => t'.forest = f.id ∧ f'.id = f.id ∧
      ∃ f'', drop t f' = .ok () f'' ∧ f''.id = f.id ∧ f''.Lone t' := by
  obtain ⟨c, G, p, hroot, hsound, halone⟩ := h
  have hp : p ∈ G + {p} := by simp
  have hstore : Calm ((do Subtree.insert f.augment (← StoreM.share t.root) k v) f.store)
      fun i s' => f.store.Yields (G + {p}) p.sites (some i) s' := by
    rw [← hroot]
    refine Calm.bind_of_ends (share_calm hsound hsound.unfolds_last halone.sparse_last
      fun _ => mem_sites_of_root) (share_held (E := Never) hsound hp) fun root s₁ h₁ hs₁ => ?_
    obtain ⟨rfl, hsound₁⟩ := hs₁
    exact (Subtree.insert_calm f.augment k v hsound₁ h₁.sparse).after h₁
  have hmade : Calm (insert t k v f) fun t' f' =>
      f.store.Yields (G + {p}) p.sites t'.root f'.store :=
    .bind (onStore_calm hstore) fun i f₁ hquiet h₁ => .of_ok rfl hquiet h₁
  refine (hmade.ends (insert_spec k v hsound hp hroot.symm)).weaken fun t' f' _ h => ?_
  obtain ⟨hyields, hown, x, hx, -, hid, -, -, hsound'⟩ := h
  have hdrop : f'.store.Sound c (G + {x} + {p}) := hsound'.cast (by abel)
  obtain ⟨s'', hrun, hsound''⟩ := unshare_spec hdrop
  have hwaned := (wanes_unshare p.root).waned f'.store
  rw [hrun] at hwaned
  refine ⟨hown, hid, { f' with store := s'' }, ?_, hid, c, G, x, hx, hsound'',
    (halone.reshaped (hyields x hx hsound'.unfolds_last)).waned hwaned⟩
  rw [drop, onStore, ← hroot, hrun]

end Forest

end SharedForest

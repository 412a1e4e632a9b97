/-
How many rounds a cascade can take.

The cascade works off a list of slots that grows while it is worked off, so the length of the list
does not say when it ends.  What does is that every entry that is added is paid for by a live place
that is emptied, and one place pays for two entries at most.  `Rounds` is the loop without any
thought of its end, one round after another, and `Rounds.potential_le` is that account over a whole
run.

Nothing is assumed here of the store or of the list, unlike in `Cascade.lean`, where the books are
right.  Links may lead in circles, places may be shared or linked to twice, their counts may be
anything, and the list may name places that are empty, or the same place over and over.  Even so the
only thing that can go wrong is a slot outside the created segments, and it has to be there from the
start: on the list, or as a link of a live place (`Astray`).  Where there is none the cascade cannot
fail.
-/
import SharedForest.Proofs.Cascade
import SharedForest.Proofs.Outcome

set_option autoImplicit false

namespace SharedForest

open StoreM

variable {ν : Type}

namespace Store

variable {s s' s'' : Store ν} {work work' left rest done : List Nat} {i j : Nat}

/-! ## What a round can come upon -/

/-- The loop may come upon slot `j` in its course, and there is no place at that slot. -/
def Astray (s : Store ν) (work : List Nat) (j : Nat) : Prop :=
  s.table.get? j = none ∧ (j ∈ work ∨ ∃ i, j ∈ s.linksAt i)

/-- The store has the same places, and none links to what it did not link to before. -/
structure Thinned (s s' : Store ν) : Prop where
  created : ∀ j, (s'.table.get? j).isSome = (s.table.get? j).isSome
  linksAt_subset : ∀ j, s'.linksAt j ⊆ s.linksAt j

theorem Recounted.thinned (h : s.Recounted s') : s.Thinned s' where
  created := h.created
  linksAt_subset j := by
    rw [linksAt, h.cell?]
    exact List.Subset.refl _

namespace Thinned

theorem trans (h : s.Thinned s') (h' : s'.Thinned s'') : s.Thinned s'' where
  created j := (h'.created j).trans (h.created j)
  linksAt_subset j := List.Subset.trans (h'.linksAt_subset j) (h.linksAt_subset j)

theorem get?_eq_none (h : s.Thinned s') (hj : s'.table.get? j = none) :
    s.table.get? j = none := by
  rw [← Option.isNone_iff_eq_none, ← Option.isSome_eq_false_iff] at hj ⊢
  rw [← h.created, hj]

/-- What is astray later was so before. -/
theorem astray (h : s.Thinned s') (hj : s'.Astray work' j)
    (hwork : ∀ k ∈ work', k ∈ work ∨ ∃ i, k ∈ s.linksAt i) : s.Astray work j := by
  obtain ⟨hnone, hj | ⟨i, hj⟩⟩ := hj
  · exact ⟨h.get?_eq_none hnone, hwork j hj⟩
  · exact ⟨h.get?_eq_none hnone, .inr ⟨i, h.linksAt_subset i hj⟩⟩

/-- To empty a place is to lose its links. -/
theorem emptied (s : Store ν) (i : Nat) : s.Thinned (s.emptied i) where
  created := isSome_modify rfl
  linksAt_subset j := by
    by_cases hj : j = i
    · subst hj
      rw [linksAt_of_dead not_contains_emptied]
      exact List.nil_subset _
    · rw [linksAt, cell?_emptied_other hj]
      exact List.Subset.refl _

end Thinned

/-! ## One round

The laws of `Cascade.lean` say what a round does when the books are right.  These say what it can
do at all. -/

/-- A reference can be dropped wherever there is a place. -/
theorem decrement_cases (i : Nat) (s : Store ν) :
    (∃ last s', decrement i s = .ok last s' ∧ s.Recounted s') ∨
      s.table.get? i = none ∧ decrement i s = .error (.fault (.neverAllocated i)) s := by
  cases hp : s.table.get? i with
  | none => exact .inr ⟨rfl, by rw [decrement, hp]⟩
  | some p =>
    refine .inl ⟨p.refs == 1, { s with
      table := s.table.modify i fun p => { p with refs := p.refs - 1 }
      alarms := { s.alarms with countLow := s.alarms.countLow || p.refs == 0 } }, ?_,
      Recounted.of_modify (fun _ => rfl) rfl⟩
    rw [decrement, hp]

/-- Dropping links puts some of them in front of the work, or ends at one that leads to no place. -/
theorem dropLinks_cases (links work : List Nat) (s : Store ν) :
    (∃ more s', dropLinks links work s = .ok (more ++ work) s' ∧ more ⊆ links ∧ s.Recounted s') ∨
      ∃ j s', dropLinks links work s = .error (.fault (.neverAllocated j)) s' ∧
        j ∈ links ∧ s.table.get? j = none ∧ s.Recounted s' := by
  induction links generalizing work s with
  | nil => exact .inl ⟨[], s, rfl, List.nil_subset _, .refl s⟩
  | cons i links ih =>
    obtain ⟨last, s₁, hdec, hr₁⟩ | ⟨hnone, hdec⟩ := decrement_cases i s
    · -- Slot `i` itself is added exactly if this was the last reference to it.
      have hrun : dropLinks (i :: links) work s
          = dropLinks links ((if last then [i] else []) ++ work) s₁ := by
        rw [dropLinks, bind_of_ok hdec]
        cases last <;> rfl
      have hadded : (if last then [i] else []) ⊆ i :: links := by
        cases last <;> simp
      rw [hrun]
      obtain ⟨more, s₂, hdrop, hmore, hr₂⟩ | ⟨j, s₂, hdrop, hj, hnone, hr₂⟩ := ih _ s₁
      · refine .inl ⟨more ++ if last then [i] else [], s₂, ?_, ?_, hr₁.trans hr₂⟩
        · rw [hdrop, List.append_assoc]
        · exact List.append_subset.2 ⟨List.subset_cons_of_subset i hmore, hadded⟩
      · exact .inr ⟨j, s₂, hdrop, List.mem_cons_of_mem i hj, hr₁.thinned.get?_eq_none hnone,
          hr₁.trans hr₂⟩
    · refine .inr ⟨i, s, ?_, List.mem_cons_self, hnone, .refl s⟩
      rw [dropLinks, bind_of_error hdec]

/-- A round hands back its slot and puts links of the emptied place in front of the work, or ends
at a slot without a place and hands back nothing. -/
theorem takeBack_cases (i : Nat) (work : List Nat) (s : Store ν) :
    (∃ more s', takeBack i work s = .ok (more ++ work) s' ∧ more ⊆ s.linksAt i ∧ s.Thinned s' ∧
        s.Frees [i] s') ∨
      ∃ j s', takeBack i work s = .error (.fault (.neverAllocated j)) s' ∧
        s.table.get? j = none ∧ (j = i ∨ j ∈ s.linksAt i) ∧ s'.free = s.free := by
  cases hp : s.table.get? i with
  | none =>
    have hvac : vacate i s = .error (.fault (.neverAllocated i)) s := by rw [vacate, hp]
    refine .inr ⟨i, s, ?_, hp, .inl rfl, rfl⟩
    rw [takeBack, bind_of_error hvac]
  | some p =>
    have hvac := vacate_of_place hp
    have hthin := Thinned.emptied s i
    cases hcell : s.cell? i with
    | none =>
      rw [hcell] at hvac
      refine .inl ⟨[], { s.emptied i with free := s.free.enqueue i }, ?_, List.nil_subset _,
        ⟨hthin.created, hthin.linksAt_subset⟩, Fifo.toList_enqueue .., rfl⟩
      rw [takeBack, bind_of_ok hvac]
      rfl
    | some c =>
      rw [hcell] at hvac
      rw [linksAt_of_cell hcell]
      -- The place is empty by now, but no place is gone.
      obtain ⟨more, s₁, hdrop, hmore, hr⟩ | ⟨j, s₁, hdrop, hj, hnone, hr⟩ :=
        dropLinks_cases c.links work (s.emptied i)
      · have hthin₁ := hthin.trans hr.thinned
        refine .inl ⟨more, s₁.freed i, takeBack_of_ok hcell hdrop, hmore,
          ⟨hthin₁.created, hthin₁.linksAt_subset⟩, ?_, hr.fresh⟩
        rw [freed, Fifo.toList_enqueue, hr.free]
        rfl
      · refine .inr ⟨j, s₁, ?_, hthin.get?_eq_none hnone, .inr hj, hr.free⟩
        simp only [takeBack, bind, EStateM.bind, hvac, hdrop]

theorem takeBack_eq_ok (h : takeBack i rest s = .ok work s') :
    ∃ more, work = more ++ rest ∧ more ⊆ s.linksAt i ∧ s.Thinned s' ∧ s.Frees [i] s' := by
  obtain ⟨more, s₁, htake, hmore, hthin, hfrees⟩ | ⟨j, s₁, htake, -⟩ := takeBack_cases i rest s
  · rw [h] at htake
    cases htake
    exact ⟨more, rfl, hmore, hthin, hfrees⟩
  · rw [h] at htake
    cases htake

theorem takeBack_eq_error {e : Failure} (h : takeBack i rest s = .error e s') :
    ∃ j, e = .fault (.neverAllocated j) ∧ s.Astray (i :: rest) j ∧ s'.free = s.free := by
  obtain ⟨more, s₁, htake, -⟩ | ⟨j, s₁, htake, hnone, hj, hfree⟩ := takeBack_cases i rest s
  · rw [h] at htake
    cases htake
  · rw [h] at htake
    cases htake
    refine ⟨j, rfl, ⟨hnone, ?_⟩, hfree⟩
    rcases hj with rfl | hj
    · exact .inl List.mem_cons_self
    · exact .inr ⟨i, hj⟩

/-! ## A run of the loop -/

/-- With `work` to be taken back in the store `s`, the loop has handed back the slots `done`, one a
round, and is now in the store `s'` with `left` to be taken back. -/
inductive Rounds : Store ν → List Nat → List Nat → Store ν → List Nat → Prop where
  | refl (s : Store ν) (work : List Nat) : Rounds s work [] s work
  | head {s s₁ s' : Store ν} {i : Nat} {rest work₁ done left : List Nat} :
      takeBack i rest s = .ok work₁ s₁ → Rounds s₁ work₁ done s' left →
        Rounds s (i :: rest) (i :: done) s' left

namespace Rounds

/-- Rounds that are done, entries that are left and two for each live place: together they never
become more. -/
theorem potential_le (h : s.Rounds work done s' left) :
    done.length + left.length + 2 * s'.occupied ≤ work.length + 2 * s.occupied := by
  induction h with
  | refl s work => simp
  | head htake _ ih =>
    have hround := takeBack_measure htake
    simp only [List.length_cons]
    omega

/-- A slot goes to the end of the free queue in every round. -/
theorem frees (h : s.Rounds work done s' left) : s.Frees done s' := by
  induction h with
  | refl s work => exact (Recounted.refl s).frees
  | head htake _ ih =>
    obtain ⟨more, -, -, -, hfrees⟩ := takeBack_eq_ok htake
    exact hfrees.trans ih

/-- The loop goes on from wherever its rounds have led. -/
theorem reclaimFrom_eq (h : s.Rounds work done s' left) (n : Nat) :
    reclaimFrom work n s = reclaimFrom left (n + done.length) s' := by
  induction h generalizing n with
  | refl s work => rfl
  | head htake _ ih =>
    rw [reclaimFrom_of_ok htake, ih, List.length_cons, Nat.add_right_comm, Nat.add_assoc]

/-- No round makes a slot go astray: what it adds to the work was linked to before. -/
theorem astray (h : s.Rounds work done s' left) (hj : s'.Astray left j) : s.Astray work j := by
  induction h with
  | refl s work => exact hj
  | @head s s₁ s' i rest work₁ done left htake _ ih =>
    obtain ⟨more, rfl, hmore, hthin, -⟩ := takeBack_eq_ok htake
    refine hthin.astray (ih hj) fun k hk => ?_
    rcases List.mem_append.1 hk with hk | hk
    · exact .inr ⟨i, hmore hk⟩
    · exact .inl (List.mem_cons_of_mem i hk)

end Rounds

/-- There are rounds after which nothing is left, or after which the next one fails. -/
theorem exists_rounds (work : List Nat) (s : Store ν) :
    ∃ done s' left, s.Rounds work done s' left ∧
      (left = [] ∨ ∃ i rest e s'', left = i :: rest ∧ takeBack i rest s' = .error e s'') := by
  -- Along the recursion of the loop, whatever it counts.
  induction work, 0, s using reclaimFrom.induct with
  | case1 n s => exact ⟨[], s, [], .refl s [], .inl rfl⟩
  | case2 n s i rest work s₁ htake ih =>
    obtain ⟨done, s', left, hrounds, hend⟩ := ih
    exact ⟨i :: done, s', left, .head htake hrounds, hend⟩
  | case3 n s i rest e s' htake =>
    exact ⟨[], s, i :: rest, .refl s _, .inr ⟨i, rest, e, s', rfl, htake⟩⟩

/-- **The cascade ends**, whatever the store and the list.  Rounds done and entries left, each of
which is a round still to come, are at no time more than there were entries at first and twice as
many as there were live places, and every round has put its slot at the end of the free queue.  In
the end the list is used up, and the answer is the number of rounds and so of the slots that were
put there; or the round at hand comes upon a slot outside the created segments, which was on the
list or linked to by a live place from the start. -/
theorem cascade_ends (work : List Nat) (s : Store ν) :
    (∀ done s' left, s.Rounds work done s' left →
      reclaim work s = reclaimFrom left done.length s' ∧
        done.length + left.length + 2 * s'.occupied ≤ work.length + 2 * s.occupied ∧
        s'.free.toList = s.free.toList ++ done) ∧
    ∃ done s' left, s.Rounds work done s' left ∧
      (left = [] ∧ reclaim work s = .ok done.length s' ∨
        ∃ i rest j s'', left = i :: rest ∧
          takeBack i rest s' = .error (.fault (.neverAllocated j)) s'' ∧
          reclaim work s = .error (.fault (.neverAllocated j)) s'' ∧
          s''.free = s'.free ∧ s.Astray work j) := by
  have hloop : ∀ {done s' left}, s.Rounds work done s' left →
      reclaim work s = reclaimFrom left done.length s' := fun h => by
    rw [reclaim, h.reclaimFrom_eq, Nat.zero_add]
  refine ⟨fun done s' left h => ⟨hloop h, h.potential_le, h.frees.free⟩, ?_⟩
  obtain ⟨done, s', left, hrounds, rfl | ⟨i, rest, e, s'', rfl, htake⟩⟩ := exists_rounds work s
  · exact ⟨done, s', [], hrounds, .inl ⟨rfl, by rw [hloop hrounds, reclaimFrom_nil]⟩⟩
  · obtain ⟨j, rfl, hstray, hfree⟩ := takeBack_eq_error htake
    refine ⟨done, s', i :: rest, hrounds,
      .inr ⟨i, rest, j, s'', rfl, htake, ?_, hfree, hrounds.astray hstray⟩⟩
    rw [hloop hrounds, reclaimFrom_of_error htake]

/-- A store that no operation has made: place 0 leads to itself and to place 6, which is empty. -/
def snarl : Store Unit :=
  { (Store.new {} : Store Unit) with
    table := ((Table.empty.ensure .blank 0).modify 0 fun _ => ⟨1, some ⟨some 0, some 6, ()⟩⟩).modify 6
      fun _ => ⟨1, none⟩ }

/-- Slot 0 is handed back twice, since its own link leads back to it, and slot 3 as often as it is on
the list, though its place is empty.  There cannot be more rounds: the one live place pays for two. -/
theorem cascade_ends_snarl :
    ∃ s', snarl.Rounds [0, 3, 3] [0, 6, 0, 3, 3] s' [] ∧ reclaim [0, 3, 3] snarl = .ok 5 s' ∧
      5 + 2 * s'.occupied ≤ 3 + 2 * snarl.occupied ∧ snarl.occupied = 1 ∧
      s'.free.toList = [0, 6, 0, 3, 3] := by
  obtain ⟨s', hrounds⟩ : ∃ s', snarl.Rounds [0, 3, 3] [0, 6, 0, 3, 3] s' [] :=
    ⟨_, .head rfl (.head rfl (.head rfl (.head rfl (.head rfl (.refl _ _)))))⟩
  obtain ⟨hloop, hpotential, hfree⟩ := (cascade_ends [0, 3, 3] snarl).1 _ _ _ hrounds
  rw [reclaimFrom_nil] at hloop
  exact ⟨s', hrounds, hloop, hpotential, by decide +kernel, hfree⟩

end Store

end SharedForest

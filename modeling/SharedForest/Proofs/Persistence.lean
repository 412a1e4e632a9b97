/-
Snapshots persist.

A handle that is not given up goes on showing the tree it has always shown, in the same
slots and with the same contents, whatever else is done to the forest: other handles may
be dropped, slots may be freed and handed out again, commands may fail half-way.  The
law is about one handle, and follows it from place to place (`Session.trace`).
-/
import SharedForest.Proofs.Run

set_option autoImplicit false

namespace SharedForest

open Tree

variable {K Q V T : Type}

namespace Store

variable {ν : Type} {s s' : Store ν} {p : Placed ν}

/-- Where the same tree is kept, its slots hold the same. -/
theorem cell?_eq_of_unfolds (h : s.Unfolds p) (h' : s'.Unfolds p) :
    ∀ i ∈ p.slots, s'.cell? i = s.cell? i := by
  induction p with
  | absent => simp
  | node l d r ihl ihr =>
    obtain ⟨j, d⟩ := d
    intro i hi
    rcases mem_slots_node.1 hi with hi | rfl | hi
    · exact ihl h.2.1 h'.2.1 i hi
    · rw [h.1, h'.1]
    · exact ihr h.2.2 h'.2.2 i hi

end Store

namespace Session

/-- What a handle shows, slot for slot, is the same in both sessions. -/
def SameTree (s s' : Session K V T) (t : Snapshot) : Prop :=
  ∃ f f' p, s.forests[t.forest]? = some f ∧ s'.forests[t.forest]? = some f' ∧ p.root = t.root ∧
    f.store.Unfolds p ∧ f'.store.Unfolds p ∧ ∀ i ∈ p.slots, f'.store.cell? i = f.store.cell? i

/-- A handle that is not given up keeps its root, its version and its tree. -/
theorem handle_persists [Ord K] [Ord Q] [KeyView K Q] {aug : Augment K V T}
    {configs : List Config} {sort : List (K × V) → List (K × V)} {s : Session K V T}
    (h : s.Reached Q sort aug configs) (cmds : List (Command K V Q))
    (hquiet : (execAllBy sort cmds s).Quiet) {x x' : Holder} {t : Snapshot}
    (ht : s.holding x = some t) (hx : trace sort cmds s x = some x') :
    (execAllBy sort cmds s).holding x' = some t ∧ SameTree s (execAllBy sort cmds s) t := by
  have htidy := h.tidy (closed_true aug)
  obtain ⟨hend, hshown⟩ := tracked cmds htidy (not_rung_of_quiet hquiet) hx ht
  obtain ⟨p, hp, -⟩ := htidy.exists_shown (has_of_holding htidy ht)
  obtain ⟨f', hf', hroot, hunf'⟩ := hshown p hp
  obtain ⟨f, hf, -, hunf⟩ := hp
  exact ⟨hend, f, f', p, hf, hf', hroot, hunf, hunf', Store.cell?_eq_of_unfolds hunf hunf'⟩

/-- Everything else is given up, one command fails, and the tree leaves the registry. -/
def upheaval : List (Command Nat Int64) :=
  [.insert "c" 3 30 "c", .drop "a", .tryRemove "c" 9 "d", .drop "c", .collect 0,
    .unregister 0 1 (some "e")]

theorem handle_persists_upheaval :
    (execAllBy Forest.sortByKey upheaval shortRun).holding (.tree "e") = some ⟨0, some 1, 1⟩ ∧
      SameTree shortRun (execAllBy Forest.sortByKey upheaval shortRun) ⟨0, some 1, 1⟩ :=
  handle_persists (x := .registered 0 1) reached_shortRun upheaval (by decide +kernel)
    (by decide +kernel) (by decide +kernel)

end Session

end SharedForest

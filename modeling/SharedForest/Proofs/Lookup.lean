/-
Looking things up goes down the tree that is kept.

Every search is a walk, and a walk is determined by what it does at a node, so there is
one law for all of them: what each visit hands on to the subtree the walk goes on with
holds at the end (`walkFor_keeps`).  Most often it is used in the form of `walkFor_spec`:
a function on trees that does at a node what the walk does, and goes on with the same
subtree, says where the walk ends.
-/
import SharedForest.Proofs.Custody
import SharedForest.Proofs.Plain
import SharedForest.Subtree.Search

set_option autoImplicit false

namespace SharedForest

open Tree

section

variable {ε α β : Type} {m : Except ε α} {f : α → Except ε β}

theorem bind_of_eq_ok {a : α} (h : m = .ok a) : (m >>= f) = f a := by
  rw [h]
  rfl

theorem bind_eq_ok_iff {b : β} : (m >>= f) = .ok b ↔ ∃ a, m = .ok a ∧ f a = .ok b := by
  cases m <;> simp [bind, Except.bind]

/-- Two steps come to an end if each does. -/
theorem exists_ok_bind {P : α → Prop} {R : β → Prop} (h : ∃ a, m = .ok a ∧ P a)
    (hf : ∀ a, P a → ∃ b, f a = .ok b ∧ R b) : ∃ b, (m >>= f) = .ok b ∧ R b := by
  obtain ⟨a, rfl, ha⟩ := h
  exact hf a ha

end

namespace Store

variable {ν σ : Type} {s : Store ν} {p : Placed ν}

/-- What the visit of a node hands on to the subtree the walk goes on with holds where the walk
ends. -/
theorem walkFor_keeps (visit : Nat → Cell ν → σ → Except Fault (σ × Option Nat))
    (I : Placed ν → σ → Prop)
    (hnode : ∀ l i d r acc, I (.node l (i, d) r) acc → ∃ q acc', (q = l ∨ q = r ∨ q = .absent) ∧
      visit i ⟨l.root, r.root, d⟩ acc = .ok (acc', q.root) ∧ I q acc')
    (acc : σ) (hacc : I p acc) {steps : Nat} (hp : s.Unfolds p) (hsteps : p.depth ≤ steps) :
    ∃ acc', s.walkFor visit steps acc p.root = .ok acc' ∧ I .absent acc' := by
  induction steps generalizing p acc with
  | zero =>
    cases p with
    | absent => exact ⟨acc, by rw [root_absent, walkFor], hacc⟩
    | node l d r => exact absurd hsteps (Nat.not_succ_le_zero _)
  | succ steps ih =>
    cases p with
    | absent => exact ⟨acc, by rw [root_absent, walkFor], hacc⟩
    | node l d r =>
      obtain ⟨i, d⟩ := d
      -- Wherever the visit goes, there is a step less to go.
      obtain ⟨q, acc', hq, hvisit, hacc'⟩ := hnode l i d r acc hacc
      have hkept : s.Unfolds q ∧ q.depth ≤ steps := by
        simp only [depth] at hsteps
        rcases hq with rfl | rfl | rfl
        · exact ⟨hp.2.1, by omega⟩
        · exact ⟨hp.2.2, by omega⟩
        · exact ⟨unfolds_absent, Nat.zero_le _⟩
      rw [root_node, walkFor, read_of_unfolds hp]
      dsimp only
      rw [hvisit]
      exact ih acc' hacc' hkept.1 hkept.2

/-- What a walk gathers from the nodes it visits are slots of the tree. -/
theorem walkFor_within (visit : Nat → Cell ν → σ → Except Fault (σ × Option Nat))
    (held : σ → List Nat)
    (hnode : ∀ l i d r acc, s.Unfolds (.node l (i, d) r) → ∃ q acc',
      (q = l ∨ q = r ∨ q = .absent) ∧ visit i ⟨l.root, r.root, d⟩ acc = .ok (acc', q.root) ∧
      held acc' ⊆ i :: held acc)
    (acc : σ) (hacc : held acc ⊆ p.slots) {steps : Nat} (hp : s.Unfolds p)
    (hsteps : p.depth ≤ steps) :
    ∃ acc', s.walkFor visit steps acc p.root = .ok acc' ∧ held acc' ⊆ p.slots := by
  obtain ⟨acc', hwalk, -, -, hheld⟩ := walkFor_keeps visit
    (fun q acc => s.Unfolds q ∧ q.slots ⊆ p.slots ∧ held acc ⊆ p.slots)
    (fun l i d r acc ⟨hq, hslots, hheld⟩ => by
      obtain ⟨q, acc', hgo, hvisit, hmore⟩ := hnode l i d r acc hq
      obtain ⟨-, hl, hr⟩ := hq
      have hhere : i ∈ p.slots := hslots (mem_slots_node.2 (.inr (.inl rfl)))
      refine ⟨q, acc', hgo, hvisit, ?_, ?_,
        List.Subset.trans hmore (List.cons_subset.2 ⟨hhere, hheld⟩)⟩
      · rcases hgo with rfl | rfl | rfl
        · exact hl
        · exact hr
        · exact unfolds_absent
      · rcases hgo with rfl | rfl | rfl
        · exact fun j hj => hslots (mem_slots_node.2 (.inl hj))
        · exact fun j hj => hslots (mem_slots_node.2 (.inr (.inr hj)))
        · exact List.nil_subset _) acc ⟨hp, fun _ hj => hj, hacc⟩ hp hsteps
  exact ⟨acc', hwalk, hheld⟩

/-- A walk does on the way down what `go` does. -/
theorem walkFor_spec (visit : Nat → Cell ν → σ → Except Fault (σ × Option Nat))
    (go : Placed ν → σ → σ) (habsent : ∀ acc, go .absent acc = acc)
    (hnode : ∀ l i d r acc, ∃ q acc', (q = l ∨ q = r ∨ q = .absent) ∧
      visit i ⟨l.root, r.root, d⟩ acc = .ok (acc', q.root) ∧
      go (.node l (i, d) r) acc = go q acc')
    (acc : σ) {steps : Nat} (hp : s.Unfolds p) (hsteps : p.depth ≤ steps) :
    s.walkFor visit steps acc p.root = .ok (go p acc) := by
  -- What is still to be done leads to the same end after each visit.
  obtain ⟨acc', hwalk, hend⟩ := walkFor_keeps visit (fun q acc' => go q acc' = go p acc)
    (fun l i d r acc' hacc' => by
      obtain ⟨q, acc'', hq, hvisit, hgo⟩ := hnode l i d r acc'
      exact ⟨q, acc'', hq, hvisit, hgo.symm.trans hacc'⟩) acc rfl hp hsteps
  rw [hwalk, ← hend, habsent]

end Store

variable {K Q V T : Type} {s : NodeStore K V T} {c : Config}
  {F : Multiset (Placed (Node K V T))} {p : Placed (Node K V T)}

namespace Tree

/-- The node on the search path of `order` that is what is sought, with its slot. -/
def seek (order : K → Ordering) : Placed (Node K V T) → Option (Nat × Node K V T)
  | absent => none
  | node l (i, d) r =>
    match order d.key with
    | .lt => seek order l
    | .gt => seek order r
    | .eq => some (i, d)

/-- A split finds what a search finds. -/
theorem found_split (aug : Augment K V T) (order : K → Ordering) (p : Placed (Node K V T)) :
    (split aug order p.bare).found = (seek order p).map fun x => x.2.entry := by
  induction p with
  | absent => rfl
  | node l d r ihl ihr =>
    obtain ⟨i, d⟩ := d
    rw [bare_node, split, seek]
    cases order d.key with
    | lt => exact ihl
    | gt => exact ihr
    | eq => rfl

end Tree

namespace Subtree

/-- What a walk answers that starts with nothing found and forgets what it has seen. -/
def orElse (found : Placed (Node K V T) → Option Nat) (q : Placed (Node K V T))
    (acc : Option Nat) : Option Nat :=
  match q with
  | .absent => acc
  | .node l d r => found (.node l d r)

theorem orElse_none {found : Placed (Node K V T) → Option Nat}
    (h : found .absent = none) (q : Placed (Node K V T)) : orElse found q none = found q := by
  cases q with
  | absent => exact h.symm
  | node l d r => rfl

theorem find_spec [Ord Q] [KeyView K Q] (key : Q) (h : s.Sound c F) (hp : s.Unfolds p) :
    find s p.root key = .ok ((p.seek (sought key)).map (·.1)) := by
  set found := fun q : Placed (Node K V T) => (q.seek (sought key)).map (·.1) with hfound
  have hwalk := Store.walkFor_spec (fun i (c : Cell (Node K V T)) _ =>
    .ok (match sought key c.data.key with
      | .lt => (none, c.left)
      | .gt => (none, c.right)
      | .eq => (some i, none))) (orElse found) (fun _ => rfl) ?_ none hp
    (Nat.le_of_lt (h.depth_lt hp))
  · rw [orElse_none rfl] at hwalk
    exact hwalk
  · intro l i d r acc
    show ∃ q acc', _ ∧ _ ∧ found (.node l (i, d) r) = _
    rw [hfound]
    dsimp only
    rw [seek]
    cases sought key d.key with
    | lt => exact ⟨l, none, .inl rfl, rfl, by rw [orElse_none rfl]⟩
    | gt => exact ⟨r, none, .inr (.inl rfl), rfl, by rw [orElse_none rfl]⟩
    | eq => exact ⟨.absent, some i, .inr (.inr rfl), rfl, rfl⟩

/-- The rightmost node, or the one that was passed last. -/
theorem last_spec (h : s.Sound c F) (hp : s.Unfolds p) :
    last s p.root = .ok (p.toList.getLast?.map (·.1)) := by
  have hwalk := Store.walkFor_spec (fun i c _ => .ok (some i, c.right))
    (fun (q : Placed (Node K V T)) acc => (q.toList.getLast?.map (·.1)).or acc) (fun _ => rfl)
    ?_ none hp (Nat.le_of_lt (h.depth_lt hp))
  · rw [Option.or_none] at hwalk
    exact hwalk
  · intro l i d r acc
    refine ⟨r, some i, .inr (.inl rfl), rfl, ?_⟩
    simp only [toList, List.getLast?_append, List.getLast?_cons]
    cases r.toList.getLast? <;> rfl

/-- The leftmost node, or the one that was passed last. -/
theorem first_spec (h : s.Sound c F) (hp : s.Unfolds p) :
    first s p.root = .ok (p.toList.head?.map (·.1)) := by
  have hwalk := Store.walkFor_spec (fun i c _ => .ok (some i, c.left))
    (fun (q : Placed (Node K V T)) acc => (q.toList.head?.map (·.1)).or acc) (fun _ => rfl)
    ?_ none hp (Nat.le_of_lt (h.depth_lt hp))
  · rw [Option.or_none] at hwalk
    exact hwalk
  · intro l i d r acc
    refine ⟨l, some i, .inl rfl, rfl, ?_⟩
    simp only [toList, List.head?_append]
    cases l.toList.head? <;> rfl

end Subtree

/-! ## From slots to nodes -/

namespace Store

variable {ν : Type} {s : Store ν} {p : Placed ν}

/-- The node that a tree has at a slot is what the store has there. -/
theorem read_of_mem (hp : s.Unfolds p) {x : Nat × ν} (hx : x ∈ p.toList) :
    ∃ c, s.cell? x.1 = some c ∧ c.data = x.2 := by
  induction p with
  | absent => cases hx
  | node l d r ihl ihr =>
    obtain ⟨i, d⟩ := d
    obtain ⟨hcell, hl, hr⟩ := hp
    rw [toList, List.mem_append, List.mem_cons] at hx
    rcases hx with hx | rfl | hx
    · exact ihl hl hx
    · exact ⟨_, hcell, rfl⟩
    · exact ihr hr hx

end Store

theorem Tree.mem_of_seek {order : K → Ordering} {x : Nat × Node K V T}
    (h : p.seek order = some x) : x ∈ p.toList ∧ order x.2.key = .eq := by
  induction p with
  | absent => cases h
  | node l d r ihl ihr =>
    obtain ⟨i, d⟩ := d
    rw [seek] at h
    rw [toList, List.mem_append, List.mem_cons]
    cases hord : order d.key with
    | lt =>
      rw [hord] at h
      exact ⟨.inl (ihl h).1, (ihl h).2⟩
    | gt =>
      rw [hord] at h
      exact ⟨.inr (.inr (ihr h).1), (ihr h).2⟩
    | eq =>
      rw [hord] at h
      obtain rfl : (i, d) = x := by simpa using h
      exact ⟨.inr (.inl rfl), hord⟩

end SharedForest

/-
A traversal from both ends.

What a traversal is used for is written down twice: once for a list of entries, where
taking from either end, skipping, draining and counting are what they are called (`Pull.of`),
and once for the stacks of a traversal.  The two agree as long as both stacks stand for the
same nodes, one from the front and one from the back (`Both`).  Taking a node at one end
leaves the stack of the other end alone, so that one goes on standing for a node that is
gone; it lies behind everything that is still to come, and the count ends the traversal
before it is met.

A traversal has no share in the tree it goes through, only a place in it, so what is said of
it must hold in every store that keeps the tree (`Spans`).
-/
import SharedForest.Proofs.Iteration
import SharedForest.Proofs.Order
import SharedForest.Proofs.Persistence

set_option autoImplicit false

namespace SharedForest

open Tree

variable {K Q V T α : Type}

/-! ## Lists taken from both ends -/

namespace Pull

/-- What one use yields where `es` is still to come, and what comes after it. -/
def of (es : List (K × V)) : Pull → Yield K V × List (K × V)
  | .next => (.entry es.head?, es.tail)
  | .nextBack => (.entry es.getLast?, es.dropLast)
  | .remaining => (.count es.length, es)
  | .bounds => (.bounds es.length es.length, es)
  | .nth n => (.entry es[n]?, es.drop (n + 1))
  | .nthBack n => (.entry es.reverse[n]?, (es.reverse.drop (n + 1)).reverse)
  | .drain => (.entries es, [])
  | .drainBack => (.entries es.reverse, [])
  | .fork => (.entries es, es)
  | .forkBack => (.entries es.reverse, es)

/-- What several uses yield one after another, and what comes after them. -/
def all : List Pull → List (K × V) → List (Yield K V) × List (K × V)
  | [], es => ([], es)
  | use :: uses, es =>
    let rest := all uses (use.of es).2
    ((use.of es).1 :: rest.1, rest.2)

/-- Taking an entry from one side. -/
def takes (side : Side) : Pull := side.pick .next .nextBack

/-- Uses may be made in two parts. -/
theorem all_append (uses more : List Pull) (es : List (K × V)) :
    all (uses ++ more) es =
      ((all uses es).1 ++ (all more (all uses es).2).1, (all more (all uses es).2).2) := by
  induction uses generalizing es with
  | nil => rfl
  | cons use uses ih =>
    rw [List.cons_append, all, ih]
    rfl

/-- Each time an entry is taken there is one less, until there is none. -/
theorem length_takes (sides : List Side) (es : List (K × V)) :
    (all (sides.map takes) es).2.length = es.length - sides.length := by
  induction sides generalizing es with
  | nil => rfl
  | cons side sides ih =>
    rw [List.map_cons, all]
    dsimp only
    rw [ih]
    cases side <;> simp [takes, of] <;> omega

/-- However the two ends take turns, the front gets the entries from the first on and the back those
from the last on, until there are no more. -/
theorem all_takes (sides : List Side) (es : List (K × V)) {m : Nat} (hm : m < sides.length) :
    (all (sides.map takes) es).1[m]? = some (.entry (if m < es.length then
      sides[m].pick es[(sides.take m).count .left]?
        es[es.length - 1 - (sides.take m).count .right]? else none)) := by
  induction sides generalizing es m with
  | nil => exact absurd hm (Nat.not_lt_zero _)
  | cons side sides ih =>
    rw [List.map_cons, all]
    cases m with
    | zero =>
      cases es with
      | nil => cases side <;> rfl
      | cons e es => cases side <;> simp [takes, of, List.getLast?_eq_getElem?]
    | succ m =>
      have hm' : m < sides.length := Nat.lt_of_succ_lt_succ hm
      have hb : (sides.take m).count .right ≤ m :=
        List.count_le_length.trans (List.length_take_le m sides)
      have ha : (sides.take m).count .left ≤ m :=
        List.count_le_length.trans (List.length_take_le m sides)
      dsimp only
      rw [List.getElem?_cons_succ, ih _ hm', List.getElem_cons_succ, List.take_succ_cons]
      have hleft : (takes .left).of es = (.entry es.head?, es.tail) := rfl
      have hright : (takes .right).of es = (.entry es.getLast?, es.dropLast) := rfl
      -- What is left has one entry less; the other indices are counted from its ends.
      by_cases hlt : m + 1 < es.length
      · cases side with
        | left =>
          have hback : es.length - 1 - 1 - (sides.take m).count .right + 1
              = es.length - 1 - (sides.take m).count .right := by omega
          rw [hleft, List.length_tail, if_pos (by omega), if_pos hlt, List.getElem?_tail,
            List.getElem?_tail, hback]
          simp
        | right =>
          have hback : es.length - 1 - 1 - (sides.take m).count .right
              = es.length - 1 - ((sides.take m).count .right + 1) := by omega
          rw [hright, List.length_dropLast, if_pos (by omega), if_pos hlt, List.getElem?_dropLast,
            List.getElem?_dropLast, if_pos (by omega), if_pos (by omega), hback]
          simp
      · rw [if_neg hlt, if_neg]
        cases side <;> simp [hleft, hright] <;> omega

end Pull

/-! ## Traversals -/

namespace Traversal

open Store

variable {s s' : NodeStore K V T} {c : Config} {F : Multiset (Placed (Node K V T))} {side : Side}
  {p : Placed (Node K V T)} {w : Traversal} {x : Nat × Node K V T}
  {xs : List (Nat × Node K V T)} {es : List (K × V)}

/-- Every use of a traversal is that of the list of what is still to come. -/
theorem Both.pull (hs : s.Sound c F) (h : Both s w xs) (use : Pull) :
    ∃ w' ys, w.pull s use = .ok ((use.of (xs.map (·.2.entry))).1, w') ∧ Both s w' ys ∧
      ys.map (·.2.entry) = (use.of (xs.map (·.2.entry))).2 := by
  -- The list from either end, so that one lemma serves the uses of both.
  have hfront : Both s w (Side.left.turn xs) := h
  have hback : Both s w (Side.right.turn xs.reverse) := by
    rw [Side.turn_right, List.reverse_reverse]
    exact h
  cases use with
  | next =>
    obtain ⟨w', htaken, h'⟩ := hfront.take hs
    refine ⟨w', _, ?_, h', by simp [Pull.of]⟩
    rw [Pull.of, List.head?_map]
    exact bind_of_eq_ok htaken
  | nextBack =>
    obtain ⟨w', htaken, h'⟩ := hback.take hs
    refine ⟨w', _, ?_, h', by simp [Pull.of]⟩
    rw [Pull.of, List.getLast?_map, ← List.head?_reverse]
    exact bind_of_eq_ok htaken
  | remaining =>
    refine ⟨w, xs, ?_, h, rfl⟩
    rw [Traversal.pull, h.remaining, Pull.of, List.length_map]
    rfl
  | bounds =>
    refine ⟨w, xs, ?_, h, rfl⟩
    rw [Traversal.pull, h.remaining, Pull.of, List.length_map]
    rfl
  | nth n =>
    obtain ⟨w', hskip, h'⟩ := hfront.skipThen hs n
    refine ⟨w', _, ?_, h', by simp [Pull.of]⟩
    rw [Pull.of, List.getElem?_map]
    exact bind_of_eq_ok hskip
  | nthBack n =>
    obtain ⟨w', hskip, h'⟩ := hback.skipThen hs n
    refine ⟨w', _, ?_, h', by simp [Pull.of]⟩
    rw [Pull.of, ← List.map_reverse, List.getElem?_map]
    exact bind_of_eq_ok hskip
  | drain =>
    obtain ⟨w', hall, h'⟩ := hfront.takeAll .left hs
    exact ⟨w', [], bind_of_eq_ok hall, h', rfl⟩
  | drainBack =>
    obtain ⟨w', hall, h'⟩ := hback.takeAll .right hs
    refine ⟨w', [], ?_, h', rfl⟩
    rw [Pull.of, ← List.map_reverse]
    exact bind_of_eq_ok hall
  | fork =>
    obtain ⟨w', hall, -⟩ := hfront.takeAll .left hs
    exact ⟨w, xs, bind_of_eq_ok hall, h, rfl⟩
  | forkBack =>
    obtain ⟨w', hall, -⟩ := hback.takeAll .right hs
    refine ⟨w, xs, ?_, h, rfl⟩
    rw [Pull.of, ← List.map_reverse]
    exact bind_of_eq_ok hall

/-! ## In any store that keeps the tree -/

/-- A stack stands for the same nodes in every store that keeps the tree its slots are of. -/
theorem ahead_congr {stack : List Nat} (hp : s.Unfolds p) (hp' : s'.Unfolds p)
    (hsub : stack ⊆ p.slots) (h : Ahead s side stack xs) : Ahead s' side stack xs := by
  induction h with
  | nil => exact .nil
  | cons here rest ih =>
    obtain ⟨hi, hstack⟩ := List.cons_subset.1 hsub
    obtain ⟨q, hroot, hq, -, hslots⟩ := exists_unfolds_of_mem hp hi
    obtain rfl := unfolds_unique hq here hroot
    exact .cons (unfolds_congr (fun j hj => cell?_eq_of_unfolds hp hp' j (hslots hj)) here)
      (ih hstack)

/-- In every store that keeps the tree `p`, the traversal has its place in it and will go through
the entries `es`. -/
def Spans (p : Placed (Node K V T)) (w : Traversal) (es : List (K × V)) : Prop :=
  w.Fits p ∧ ∃ xs : List (Nat × Node K V T), xs.map (·.2.entry) = es ∧
    ∀ s : NodeStore K V T, s.Unfolds p → Both s w xs

/-- A traversal from both ends spans the entries that are to come. -/
theorem spans_of_both (hp : s.Unfolds p) (hfits : w.Fits p) (h : Both s w xs) :
    Spans p w (xs.map (·.2.entry)) := by
  refine ⟨hfits, xs, rfl, fun s' hp' side => ?_⟩
  obtain ⟨hlen, rest, hahead⟩ := h side
  exact ⟨hlen, rest, ahead_congr hp hp' (hfits side) hahead⟩

/-- What remains is counted right. -/
theorem Spans.remaining (hp : s.Unfolds p) (h : Spans p w es) : w.remaining = es.length := by
  obtain ⟨-, xs, rfl, hboth⟩ := h
  rw [(hboth s hp).remaining, List.length_map]

/-- A traversal is used as the list of what it will go through. -/
theorem Spans.pull (hs : s.Sound c F) (hp : s.Unfolds p) (h : Spans p w es) (use : Pull) :
    ∃ w', w.pull s use = .ok ((use.of es).1, w') ∧ Spans p w' (use.of es).2 := by
  obtain ⟨hfits, xs, rfl, hboth⟩ := h
  obtain ⟨w', ys, hpull, h', hys⟩ := (hboth s hp).pull hs use
  obtain ⟨x, hx, hfits'⟩ := pull_ok hs hp hfits use
  obtain rfl := Except.ok.inj (hpull.symm.trans hx)
  refine ⟨w', hpull, ?_⟩
  rw [← hys]
  exact spans_of_both hp hfits' h'

/-- Any uses, in any order, give what they give on the list. -/
theorem Spans.pulls (hs : s.Sound c F) (hp : s.Unfolds p) (h : Spans p w es) (uses : List Pull) :
    ∃ w', w.pulls s uses = .ok ((Pull.all uses es).1, w') ∧ Spans p w' (Pull.all uses es).2 := by
  induction uses generalizing w es with
  | nil => exact ⟨w, rfl, h⟩
  | cons use uses ih =>
    obtain ⟨w₁, hpull, h₁⟩ := h.pull hs hp use
    obtain ⟨w₂, hpulls, h₂⟩ := ih h₁
    refine ⟨w₂, ?_, h₂⟩
    rw [Traversal.pulls, hpull]
    refine (bind_of_eq_ok rfl).trans ?_
    dsimp only
    rw [hpulls]
    rfl

/-- A full traversal of a part of the tree goes through all of that part. -/
theorem full_spans {q : Placed (Node K V T)} (hs : s.Sound c F) (hp : s.Unfolds p)
    (hq : s.Unfolds q) (hsub : q.slots ⊆ p.slots) (hsize : q.bare.size.toNat = q.count) :
    ∃ w, full s q.root = .ok w ∧ Spans p w q.bare.entries := by
  obtain ⟨w, hfull, hcoming⟩ := full_spec hs hq hsize
  obtain ⟨w', hfull', hfits⟩ := full_ok hs hq
  obtain rfl := Except.ok.inj (hfull.symm.trans hfull')
  refine ⟨w, hfull, ?_⟩
  rw [entries_bare q]
  exact spans_of_both hp (hfits.mono hsub) hcoming

end Traversal

end SharedForest

/-
Going through a tree in order, from either end.

A traversal keeps slots on a stack, and a stack stands for a sequence of nodes: the one on
top, then everything in its subtree on the far side, then what the rest of the stack stands
for.  This is `Ahead`, and there is one for each side to start from.  Pushing the way down
one side of a tree puts the nodes of that tree in front (`ahead_spine`), so the sequence of
a full traversal is the tree in order; taking a node and pushing the way down from its child
on the far side takes the first element off.  No more is needed of the store than that it
keeps the trees in question, so a traversal goes on where it was in any later store that
keeps them.

What will come is known of a traversal that goes over a tree with right sizes.  That a
traversal does not stray needs less: its stacks stay among the slots of its tree (`Fits`),
whatever the sizes say and wherever it was cut off (`pulls_ok`).  Such a property is one of the
stacks alone, so it has to be looked at where a node is taken and nowhere else (`Steady`); from
there it is carried once and for all through everything that a traversal is used for.

The two directions are two functions in the model.  They are one here, for a `Side`.
-/
import SharedForest.Proofs.Lookup
import SharedForest.Cursor
import SharedForest.Traversal.Pull

set_option autoImplicit false

namespace SharedForest

open Tree

variable {K Q V T ν δ α : Type}

/-! ## Sides -/

namespace Side

/-- What is on this side. -/
def pick (side : Side) (left right : α) : α :=
  match side with
  | .left => left
  | .right => right

@[simp] theorem pick_left (a b : α) : Side.left.pick a b = a := rfl

@[simp] theorem pick_right (a b : α) : Side.right.pick a b = b := rfl

@[simp] theorem flip_left : Side.left.flip = .right := rfl

@[simp] theorem flip_right : Side.right.flip = .left := rfl

/-- There are only two sides. -/
theorem eq_flip_of_ne {side side' : Side} (h : side ≠ side') : side = side'.flip := by
  revert h
  cases side <;> cases side' <;> decide

/-- A list as it is met from one side. -/
def turn (side : Side) (xs : List α) : List α := side.pick xs xs.reverse

@[simp] theorem turn_left (xs : List α) : Side.left.turn xs = xs := rfl

@[simp] theorem turn_right (xs : List α) : Side.right.turn xs = xs.reverse := rfl

/-- Turned twice, a list is as it was. -/
@[simp] theorem turn_turn (side : Side) (xs : List α) : side.turn (side.turn xs) = xs := by
  cases side <;> simp

@[simp] theorem mem_turn {side : Side} {xs : List α} {x : α} : x ∈ side.turn xs ↔ x ∈ xs := by
  cases side <;> simp

@[simp] theorem length_turn (side : Side) (xs : List α) : (side.turn xs).length = xs.length := by
  cases side <;> simp

end Side

/-- The link on a side leads to the subtree on that side. -/
theorem child_eq_root (side : Side) (l r : Placed ν) (d : ν) :
    (⟨l.root, r.root, d⟩ : Cell ν).child side = (side.pick l r).root := by
  cases side <;> rfl

namespace Tree

variable {side : Side} {l r : Tree δ}

/-- The payloads as they are met on the way through, starting at one side. -/
def along (side : Side) (t : Tree δ) : List δ := side.pick t.toList t.toList.reverse

@[simp] theorem along_absent : (absent : Tree δ).along side = [] := by cases side <;> rfl

/-- What is on the near side is met first, then the root, then what is on the far side. -/
theorem along_node (d : δ) : (node l d r).along side
    = (side.pick l r).along side ++ d :: (side.flip.pick l r).along side := by
  cases side <;> simp [along, toList]

/-- The same payloads are met from either side. -/
theorem mem_along {t : Tree δ} {d : δ} : d ∈ t.along side ↔ d ∈ t.toList := Side.mem_turn

/-- The slots on the way down one side, the deepest first. -/
def spine (side : Side) : Placed ν → List Nat
  | absent => []
  | node l (i, _) r =>
    (match side with
      | .left => spine side l
      | .right => spine side r) ++ [i]

@[simp] theorem spine_absent : (absent : Placed ν).spine side = [] := rfl

/-- The way down one side goes through the child on it. -/
theorem spine_node (l r : Placed ν) (i : Nat) (d : ν) :
    (node l (i, d) r).spine side = (side.pick l r).spine side ++ [i] := by
  cases side <;> rfl

/-- It goes through nothing but the tree. -/
theorem spine_subset (side : Side) (p : Placed ν) : p.spine side ⊆ p.slots := by
  induction p with
  | absent => exact List.nil_subset _
  | node l d r ihl ihr =>
    obtain ⟨i, d⟩ := d
    intro j hj
    rw [spine_node, List.mem_append, List.mem_singleton] at hj
    rcases hj with hj | rfl
    · cases side
      · exact mem_slots_node.2 (.inl (ihl hj))
      · exact mem_slots_node.2 (.inr (.inr (ihr hj)))
    · exact mem_slots_node.2 (.inr (.inl rfl))

end Tree

namespace Store

variable {s : Store ν} {side : Side} {l r p : Placed ν} {stack : List Nat}
  {es : List (Nat × ν)}

/-- Whichever side is picked. -/
theorem Unfolds.pick (hl : s.Unfolds l) (hr : s.Unfolds r) : s.Unfolds (side.pick l r) := by
  cases side
  · exact hl
  · exact hr

/-! ## What a stack stands for -/

/-- The nodes that a stack of slots stands for, in the order in which they will come. -/
inductive Ahead (s : Store ν) (side : Side) : List Nat → List (Nat × ν) → Prop where
  | nil : Ahead s side [] []
  | cons {l r : Placed ν} {i : Nat} {d : ν} {stack : List Nat} {es : List (Nat × ν)}
      (here : s.Unfolds (.node l (i, d) r)) (rest : Ahead s side stack es) :
      Ahead s side (i :: stack) ((i, d) :: ((side.flip.pick l r).along side ++ es))

/-- The way down a tree puts the nodes of the tree in front. -/
theorem ahead_spine (side : Side) (hp : s.Unfolds p) (h : Ahead s side stack es) :
    Ahead s side (p.spine side ++ stack) (p.along side ++ es) := by
  -- Each node on the way waits for the child the way goes through.
  have hnode : ∀ (l r : Placed ν) (i : Nat) (d : ν) (stack : List Nat) (es : List (Nat × ν)),
      (∀ stack es, Ahead s side stack es →
        Ahead s side ((side.pick l r).spine side ++ stack) ((side.pick l r).along side ++ es)) →
      s.Unfolds (.node l (i, d) r) → Ahead s side stack es →
      Ahead s side ((Tree.node l (i, d) r).spine side ++ stack)
        ((Tree.node l (i, d) r).along side ++ es) := by
    intro l r i d stack es ih hp h
    rw [spine_node, along_node, List.append_assoc, List.append_assoc]
    exact ih _ _ (.cons hp h)
  induction p generalizing stack es with
  | absent => simpa using h
  | node l d r ihl ihr =>
    obtain ⟨i, d⟩ := d
    refine hnode l r i d stack es (fun stack es h => ?_) hp h
    cases side
    · exact ihl hp.2.1 h
    · exact ihr hp.2.2 h

end Store

/-! ## Traversals -/

section

open Store

variable {s : NodeStore K V T} {c : Config} {F : Multiset (Placed (Node K V T))} {side : Side}
  {p : Placed (Node K V T)} {t : Traversal} {x : Nat × Node K V T}
  {es xs : List (Nat × Node K V T)}

/-- Going down one side to the end puts the spine on top of the way. -/
theorem Cursor.descend_spec (side : Side) (h : s.Sound c F) (hp : s.Unfolds p) (way : Cursor) :
    Cursor.descend s side way p.root = .ok (p.spine side ++ way) := by
  refine Store.walkFor_spec (fun i cell c => .ok (i :: c, cell.child side))
    (fun (q : Placed (Node K V T)) way => q.spine side ++ way) (fun _ => rfl) ?_ way hp
    (Nat.le_of_lt (h.depth_lt hp))
  intro l i d r way
  refine ⟨side.pick l r, i :: way, ?_, by rw [child_eq_root], ?_⟩
  · cases side
    · exact .inl rfl
    · exact .inr (.inl rfl)
  · rw [spine_node, List.append_assoc]
    rfl

/-- The size that is read is the one the root tells. -/
theorem Subtree.size_spec (hp : s.Unfolds p) : Subtree.size s p.root = .ok p.bare.size.toNat := by
  cases p with
  | absent => rfl
  | node l d r => exact bind_of_eq_ok (read_of_unfolds hp)

/-- Keys can be counted on a way down, whether or not `below` holds for the first ones only. -/
theorem Subtree.countWhile_ok (hs : s.Sound c F) (hp : s.Unfolds p) (below : K → Bool) :
    ∃ n, Subtree.countWhile s p.root below = .ok n := by
  -- The sizes that are read on the way are those of kept subtrees.
  refine (Store.walkFor_within _ (fun _ => []) ?_ 0 (List.nil_subset _) hp
    (Nat.le_of_lt (hs.depth_lt hp))).imp fun n hn => hn.1
  intro l i d r count hq
  dsimp only
  split
  · exact ⟨r, _, .inr (.inl rfl), bind_of_eq_ok (Subtree.size_spec hq.2.1), List.nil_subset _⟩
  · exact ⟨l, _, .inl rfl, rfl, List.nil_subset _⟩

namespace Traversal

/-- The next node from one side. -/
def take (side : Side) (s : NodeStore K V T) (t : Traversal) :
    Except Fault (Option Nat × Traversal) :=
  side.pick (t.next s) (t.nextBack s)

/-- The next entry from one side. -/
def takeEntry (side : Side) (s : NodeStore K V T) (t : Traversal) :
    Except Fault (Option (K × V) × Traversal) :=
  side.pick (t.nextEntry s) (t.nextBackEntry s)

/-- After a node was taken from one side, with a new stack there. -/
def after (side : Side) (t : Traversal) (stack : List Nat) : Traversal :=
  ⟨side.pick stack t.front, side.pick t.back stack, t.remaining - 1⟩

/-- One step: nothing if nothing remains, else the node on top, and in its place the way down from
its child on the far side. -/
theorem take_eq (side : Side) (s : NodeStore K V T) (t : Traversal) :
    t.take side s = if t.remaining = 0 then .ok (none, t) else
      match side.pick t.front t.back with
      | [] => .ok (none, t)
      | i :: rest => do
        let stack ← Cursor.descend s side rest ((← s.read i).child side.flip)
        return (some i, t.after side stack) := by
  cases side <;> rfl

/-- What will come from one side, until nothing remains: the first of the nodes that its stack
stands for. -/
def Coming (s : NodeStore K V T) (side : Side) (t : Traversal) (es : List (Nat × Node K V T)) :
    Prop :=
  t.remaining = es.length ∧ ∃ rest, Ahead s side (side.pick t.front t.back) (es ++ rest)

/-- Where nothing is to come, nothing is taken. -/
theorem take_nil (h : Coming s side t []) : t.take side s = .ok (none, t) := by
  have hzero : t.remaining = 0 := h.1
  cases side
  · exact if_pos hzero
  · exact if_pos hzero

/-- One step takes the first of what will come, and leaves the other end alone. -/
theorem take_cons (hs : s.Sound c F) (h : Coming s side t (x :: es)) :
    ∃ t' cell, t.take side s = .ok (some x.1, t') ∧ Coming s side t' es ∧
      side.flip.pick t'.front t'.back = side.flip.pick t.front t.back ∧
      s.read x.1 = .ok cell ∧ cell.data = x.2 := by
  obtain ⟨hlen, rest, hahead⟩ := h
  rw [List.cons_append] at hahead
  generalize hstack : side.pick t.front t.back = stack at hahead
  generalize hall : x :: (es ++ rest) = all at hahead
  -- The node on top comes first, and the way down from its far child takes its place.
  cases hahead with
  | nil => cases hall
  | @cons l r i d stack es' here hrest =>
    obtain ⟨rfl, hes⟩ := List.cons.inj hall
    have hne : t.remaining ≠ 0 := by simp [hlen]
    have hlen' : t.remaining - 1 = es.length := by simp [hlen]
    have hread := read_of_unfolds here
    have hfar : s.Unfolds (side.flip.pick l r) := here.2.1.pick here.2.2
    have hpush := Cursor.descend_spec side hs hfar stack
    have hahead' := ahead_spine side hfar hrest
    rw [← hes] at hahead'
    refine ⟨t.after side ((side.flip.pick l r).spine side ++ stack), _, ?_, ⟨hlen', rest, ?_⟩, ?_,
      hread, rfl⟩
    · rw [take_eq, if_neg hne, hstack]
      dsimp only
      rw [bind_of_eq_ok hread, child_eq_root]
      exact bind_of_eq_ok hpush
    · cases side <;> exact hahead'
    · cases side <;> rfl

/-- An entry is what is read at the node that comes next. -/
theorem takeEntry_eq (side : Side) (s : NodeStore K V T) (t : Traversal) :
    t.takeEntry side s = (do
      match ← t.take side s with
      | (none, t) => return (none, t)
      | (some i, t) => return (some (← s.read i).data.entry, t)) := by
  cases side <;> rfl

/-- Nor is an entry read. -/
theorem takeEntry_nil (h : Coming s side t []) : t.takeEntry side s = .ok (none, t) := by
  rw [takeEntry_eq, take_nil h]
  rfl

/-- The first entry that is to come is taken off, and the stack of the other side is left alone. -/
theorem takeEntry_cons (hs : s.Sound c F) (h : Coming s side t (x :: es)) :
    ∃ t', t.takeEntry side s = .ok (some x.2.entry, t') ∧ Coming s side t' es ∧
      side.flip.pick t'.front t'.back = side.flip.pick t.front t.back := by
  obtain ⟨t', cell, htaken, hcoming, hother, hread, hdata⟩ := take_cons hs h
  refine ⟨t', ?_, hcoming, hother⟩
  rw [takeEntry_eq, htaken]
  refine (bind_of_eq_ok rfl).trans ?_
  dsimp only
  rw [hread, ← hdata]
  rfl

/-- The nodes `xs` are still to come, from the front in order and from the back the other way
round. -/
def Both (s : NodeStore K V T) (t : Traversal) (xs : List (Nat × Node K V T)) : Prop :=
  ∀ side : Side, Coming s side t (side.turn xs)

/-- What remains is counted right. -/
theorem Both.remaining (h : Both s t xs) : t.remaining = xs.length := (h .left).1

/-- One step at one side takes the first of what comes there, and the last of what comes at the
other. -/
theorem Both.takeEntry (hs : s.Sound c F) (h : Both s t (side.turn (x :: xs))) :
    ∃ t', t.takeEntry side s = .ok (some x.2.entry, t') ∧ Both s t' (side.turn xs) := by
  have hnear := h side
  rw [Side.turn_turn] at hnear
  obtain ⟨t', htaken, hcoming, hother⟩ := takeEntry_cons hs hnear
  refine ⟨t', htaken, ?_⟩
  -- The stack of the other end still stands for `x`, which lies behind all that is to come.
  have hfar : Coming s side.flip t' xs.reverse := by
    obtain ⟨-, rest, hahead⟩ := h side.flip
    have hlist : side.flip.turn (side.turn (x :: xs)) = xs.reverse ++ [x] := by
      cases side <;> simp
    rw [hlist, List.append_assoc] at hahead
    exact ⟨by rw [hcoming.1, List.length_reverse], [x] ++ rest, hother ▸ hahead⟩
  rintro (_ | _) <;> cases side
  · exact hcoming
  · exact hfar
  · exact hfar
  · simpa using hcoming

/-- From both ends nothing is left. -/
theorem Both.takeEntry_nil (h : Both s t (side.turn [])) :
    t.takeEntry side s = .ok (none, t) := by
  have hnear := h side
  rw [Side.turn_turn] at hnear
  exact Traversal.takeEntry_nil hnear

/-- Either end may be taken from next, and what is left is to come from both. -/
theorem Both.take (hs : s.Sound c F) (h : Both s t (side.turn xs)) :
    ∃ t', t.takeEntry side s = .ok (xs.head?.map (·.2.entry), t') ∧ Both s t' (side.turn xs.tail) := by
  cases xs with
  | nil => exact ⟨t, h.takeEntry_nil, h⟩
  | cons x xs => exact h.takeEntry hs

/-- Several steps at one side. -/
theorem Both.takeFor (hs : s.Sound c F) (n : Nat) (h : Both s t (side.turn xs)) :
    ∃ t', Traversal.takeFor (Traversal.takeEntry side s) n t = .ok ((xs.take n).map (·.2.entry), t') ∧
      Both s t' (side.turn (xs.drop n)) := by
  induction n generalizing t xs with
  | zero => exact ⟨t, rfl, h⟩
  | succ n ih =>
    cases xs with
    | nil =>
      refine ⟨t, ?_, h⟩
      rw [Traversal.takeFor, h.takeEntry_nil]
      rfl
    | cons x xs =>
      obtain ⟨t₁, htaken, h₁⟩ := h.takeEntry hs
      obtain ⟨t₂, htake, h₂⟩ := ih h₁
      refine ⟨t₂, ?_, h₂⟩
      rw [Traversal.takeFor, htaken]
      refine (bind_of_eq_ok rfl).trans ?_
      dsimp only
      rw [htake]
      rfl

/-- Taking all that is left, and one step more. -/
theorem Both.takeAll (side : Side) (hs : s.Sound c F) (h : Both s t (side.turn xs)) :
    ∃ t', Traversal.takeFor (Traversal.takeEntry side s) (t.remaining + 1) t
        = .ok (xs.map (·.2.entry), t') ∧ Both s t' [] := by
  obtain ⟨t', htake, h'⟩ := h.takeFor hs (t.remaining + 1)
  have hlen : xs.length ≤ t.remaining + 1 := by
    rw [h.remaining, Side.length_turn]
    exact Nat.le_succ _
  rw [List.take_of_length_le hlen] at htake
  rw [List.drop_of_length_le hlen] at h'
  refine ⟨t', htake, ?_⟩
  cases side <;> exact h'

/-- Skipping some and taking the one after them. -/
theorem Both.skipThen (hs : s.Sound c F) (n : Nat) (h : Both s t (side.turn xs)) :
    ∃ t', Traversal.skipThen (Traversal.takeEntry side s) n t = .ok (xs[n]?.map (·.2.entry), t') ∧
      Both s t' (side.turn (xs.drop (n + 1))) := by
  obtain ⟨t₁, htake, h₁⟩ := h.takeFor hs (min n t.remaining)
  have hdrop : xs.drop (min n t.remaining) = xs.drop n := by
    rw [h.remaining, Side.length_turn]
    rcases Nat.le_total n xs.length with hle | hle
    · rw [Nat.min_eq_left hle]
    · rw [Nat.min_eq_right hle, List.drop_length, List.drop_of_length_le hle]
  rw [hdrop] at h₁
  have hremaining : t₁.remaining = xs.length - n := by
    rw [h₁.remaining, Side.length_turn, List.length_drop]
  have hskip : Traversal.skipThen (Traversal.takeEntry side s) n t
      = if t₁.remaining = 0 then .ok (none, t₁) else t₁.takeEntry side s := by
    rw [Traversal.skipThen, htake]
    rfl
  rw [hskip]
  rcases Nat.lt_or_ge n xs.length with hlt | hge
  · rw [List.drop_eq_getElem_cons hlt] at h₁
    rw [if_neg (by omega), List.getElem?_eq_getElem hlt]
    exact h₁.takeEntry hs
  · rw [if_pos (by omega), List.getElem?_eq_none hge, List.drop_of_length_le (by omega)]
    rw [List.drop_of_length_le hge] at h₁
    exact ⟨t₁, rfl, h₁⟩

/-- A full traversal starts with the way down either side, and with the size the root tells. -/
theorem full_eq (hs : s.Sound c F) (hp : s.Unfolds p) :
    full s p.root = .ok ⟨p.spine .left, p.spine .right, p.bare.size.toNat⟩ := by
  have hfront := Cursor.descend_spec .left hs hp []
  have hback := Cursor.descend_spec .right hs hp []
  rw [List.append_nil] at hfront hback
  rw [full, Subtree.size_spec hp]
  exact (bind_of_eq_ok hfront).trans (bind_of_eq_ok hback)

/-- All of a tree will come, from both sides, if the root tells the size right. -/
theorem full_spec (hs : s.Sound c F) (hp : s.Unfolds p) (hsize : p.bare.size.toNat = p.count) :
    ∃ t, full s p.root = .ok t ∧ Both s t p.toList := by
  refine ⟨_, full_eq hs hp, fun side => ⟨?_, [], ?_⟩⟩
  · rw [hsize, Side.length_turn, length_toList]
  · have hahead := ahead_spine side hp .nil
    rw [List.append_nil, List.append_nil] at hahead
    rw [List.append_nil]
    cases side <;> exact hahead

/-! ## Staying among the slots of a tree -/

/-- The stacks hold slots of the tree. -/
def Fits (p : Placed (Node K V T)) (t : Traversal) : Prop :=
  ∀ side : Side, side.pick t.front t.back ⊆ p.slots

/-- Stacks of slots of the tree. -/
theorem fits_of_slots {front back : List Nat} {n : Nat} (hfront : front ⊆ p.slots)
    (hback : back ⊆ p.slots) : Fits p ⟨front, back, n⟩ := by
  rintro (_ | _)
  · exact hfront
  · exact hback

/-- What stays in a part of a tree stays in the tree. -/
theorem Fits.mono {q : Placed (Node K V T)} (h : t.Fits q) (hsub : q.slots ⊆ p.slots) :
    t.Fits p :=
  fun side => List.Subset.trans (h side) hsub

/-- Where `I` holds of a traversal, a node can be taken from either side, and `I` still holds. -/
def Steady (s : NodeStore K V T) (p : Placed (Node K V T)) (I : Traversal → Prop) : Prop :=
  ∀ (side : Side) (t : Traversal), I t →
    ∃ x, t.take side s = .ok x ∧ I x.2 ∧ ∀ i ∈ x.1, i ∈ p.slots

/-- To take a node is to push the way down from its far child. -/
theorem steady_of_push {I : Traversal → Prop}
    (h : ∀ (side : Side) t i rest, I t → side.pick t.front t.back = i :: rest → ∃ cell stack,
      s.read i = .ok cell ∧ Cursor.descend s side rest (cell.child side.flip) = .ok stack ∧
      i ∈ p.slots ∧ I (t.after side stack)) : Steady s p I := by
  intro side t hI
  rw [take_eq]
  split
  · exact ⟨_, rfl, hI, nofun⟩
  · cases hstack : side.pick t.front t.back with
    | nil => exact ⟨_, rfl, hI, nofun⟩
    | cons i rest =>
      obtain ⟨cell, stack, hread, hpush, hi, hI'⟩ := h side t i rest hI hstack
      dsimp only
      rw [bind_of_eq_ok hread]
      refine ⟨_, bind_of_eq_ok hpush, hI', ?_⟩
      rintro _ ⟨⟩
      exact hi

/-- One step goes on among the slots of the tree. -/
theorem steady_fits (hs : s.Sound c F) (hp : s.Unfolds p) : Steady s p (Fits p) := by
  refine steady_of_push fun side t i rest h hstack => ?_
  -- The one on top has a part of the tree below it, and the way down its far child is in there.
  obtain ⟨hi, hrest⟩ := List.cons_subset.1 (hstack ▸ h side)
  obtain ⟨q, hroot, hq, -, hslots⟩ := Store.exists_unfolds_of_mem hp hi
  obtain ⟨l, d, r, rfl⟩ := eq_node_of_root hroot
  have hfar : s.Unfolds (side.flip.pick l r) := hq.2.1.pick hq.2.2
  have hmore : (side.flip.pick l r).spine side ++ rest ⊆ p.slots := by
    refine List.append_subset.2 ⟨fun j hj => hslots ?_, hrest⟩
    have hj' := spine_subset side _ hj
    cases side
    · exact mem_slots_node.2 (.inr (.inr hj'))
    · exact mem_slots_node.2 (.inl hj')
  refine ⟨_, (side.flip.pick l r).spine side ++ rest, read_of_unfolds hq, ?_, hi, ?_⟩
  · rw [child_eq_root]
    exact Cursor.descend_spec side hs hfar rest
  · cases side
    · exact fits_of_slots hmore (h .right)
    · exact fits_of_slots (h .left) hmore

namespace Steady

variable {I : Traversal → Prop} (hI : Steady s p I) (hp : s.Unfolds p)
include hI hp

/-- An entry can be read wherever a node is taken. -/
theorem takeEntry (side : Side) (h : I t) : ∃ x, t.takeEntry side s = .ok x ∧ I x.2 := by
  rw [takeEntry_eq]
  refine exists_ok_bind (hI side t h) ?_
  rintro ⟨_ | i, t'⟩ ⟨hI', hslot⟩
  · exact ⟨_, rfl, hI'⟩
  · obtain ⟨q, hroot, hq, -⟩ := Store.exists_unfolds_of_mem hp (hslot i rfl)
    obtain ⟨l, d, r, rfl⟩ := eq_node_of_root hroot
    exact ⟨_, bind_of_eq_ok (read_of_unfolds hq), hI'⟩

/-- Any number of steps, by induction on it. -/
theorem takeFor (side : Side) (n : Nat) (h : I t) :
    ∃ x, Traversal.takeFor (Traversal.takeEntry side s) n t = .ok x ∧ I x.2 := by
  induction n generalizing t with
  | zero => exact ⟨_, rfl, h⟩
  | succ n ih =>
    rw [Traversal.takeFor]
    refine exists_ok_bind (hI.takeEntry hp side h) ?_
    rintro ⟨_ | e, t'⟩ hI'
    · exact ⟨_, rfl, hI'⟩
    · exact exists_ok_bind (ih hI') fun x hx => ⟨_, rfl, hx⟩

/-- Entries that are skipped are taken all the same. -/
theorem skipThen (side : Side) (n : Nat) (h : I t) :
    ∃ x, Traversal.skipThen (Traversal.takeEntry side s) n t = .ok x ∧ I x.2 := by
  refine exists_ok_bind (hI.takeFor hp side _ h) ?_
  rintro ⟨es, t'⟩ hI'
  dsimp only
  split
  · exact ⟨_, rfl, hI'⟩
  · exact hI.takeEntry hp side hI'

/-- What remains is taken from the front. -/
theorem drain (h : I t) : ∃ x, t.drain s = .ok x ∧ I x.2 := hI.takeFor hp .left _ h

theorem drainBack (h : I t) : ∃ x, t.drainBack s = .ok x ∧ I x.2 := hI.takeFor hp .right _ h

/-- What one step keeps every use keeps, and every use can be made. -/
theorem pull (h : I t) (use : Pull) : ∃ x, t.pull s use = .ok x ∧ I x.2 := by
  cases use with
  | next => exact exists_ok_bind (hI.takeEntry hp .left h) fun x hx => ⟨_, rfl, hx⟩
  | nextBack => exact exists_ok_bind (hI.takeEntry hp .right h) fun x hx => ⟨_, rfl, hx⟩
  | remaining => exact ⟨_, rfl, h⟩
  | bounds => exact ⟨_, rfl, h⟩
  | nth n => exact exists_ok_bind (hI.skipThen hp .left n h) fun x hx => ⟨_, rfl, hx⟩
  | nthBack n => exact exists_ok_bind (hI.skipThen hp .right n h) fun x hx => ⟨_, rfl, hx⟩
  | drain => exact exists_ok_bind (hI.drain hp h) fun x hx => ⟨_, rfl, hx⟩
  | drainBack => exact exists_ok_bind (hI.drainBack hp h) fun x hx => ⟨_, rfl, hx⟩
  | fork => exact exists_ok_bind (hI.drain hp h) fun x hx => ⟨_, rfl, h⟩
  | forkBack => exact exists_ok_bind (hI.drainBack hp h) fun x hx => ⟨_, rfl, h⟩

/-- Whatever a traversal is used for, one use after another. -/
theorem pulls (uses : List Pull) (h : I t) : ∃ x, t.pulls s uses = .ok x ∧ I x.2 := by
  induction uses generalizing t with
  | nil => exact ⟨_, rfl, h⟩
  | cons use uses ih =>
    refine exists_ok_bind (hI.pull hp h use) fun x hx => ?_
    exact exists_ok_bind (ih hx) fun y hy => ⟨_, rfl, hy⟩

end Steady

/-- A traversal within a kept tree can be driven to its end. -/
theorem drain_ok (hs : s.Sound c F) (hp : s.Unfolds p) (h : t.Fits p) :
    ∃ x, t.drain s = .ok x ∧ x.2.Fits p :=
  (steady_fits hs hp).drain hp h

theorem drainBack_ok (hs : s.Sound c F) (hp : s.Unfolds p) (h : t.Fits p) :
    ∃ x, t.drainBack s = .ok x ∧ x.2.Fits p :=
  (steady_fits hs hp).drainBack hp h

/-- A traversal can be used in every way, and goes on among the slots of its tree. -/
theorem pull_ok (hs : s.Sound c F) (hp : s.Unfolds p) (h : t.Fits p) (use : Pull) :
    ∃ x, t.pull s use = .ok x ∧ x.2.Fits p :=
  (steady_fits hs hp).pull hp h use

/-- It can be used in any way, and stays within the tree. -/
theorem pulls_ok (hs : s.Sound c F) (hp : s.Unfolds p) (uses : List Pull) (h : t.Fits p) :
    ∃ x, t.pulls s uses = .ok x ∧ x.2.Fits p :=
  (steady_fits hs hp).pulls hp uses h

/-- A traversal of a part of the tree starts in the tree. -/
theorem full_ok (hs : s.Sound c F) (hp : s.Unfolds p) :
    ∃ t, full s p.root = .ok t ∧ t.Fits p :=
  ⟨_, full_eq hs hp, fits_of_slots (spine_subset .left p) (spine_subset .right p)⟩

/-- A range starts in the tree, whatever the keys are and wherever the bounds lie. -/
theorem range_ok [Ord Q] [KeyView K Q] (hs : s.Sound c F) (hp : s.Unfolds p)
    (start stop : Bound Q) : ∃ t, range s p.root start stop = .ok t ∧ t.Fits p := by
  have hdepth := Nat.le_of_lt (hs.depth_lt hp)
  obtain ⟨front, hfront, hfits⟩ := Store.walkFor_within (fun i c stack =>
      .ok (if start.keyBelow c.data.key then (stack, c.right) else (i :: stack, c.left))) id
    (fun l i d r stack _ => by
      dsimp only
      split
      · exact ⟨r, stack, .inr (.inl rfl), rfl, List.subset_cons_self _ _⟩
      · exact ⟨l, i :: stack, .inl rfl, rfl, fun _ hj => hj⟩) [] (List.nil_subset _) hp hdepth
  obtain ⟨back, hback, hfits'⟩ := Store.walkFor_within (fun i c stack =>
      .ok (if stop.keyWithin c.data.key then (i :: stack, c.right) else (stack, c.left))) id
    (fun l i d r stack _ => by
      dsimp only
      split
      · exact ⟨r, i :: stack, .inr (.inl rfl), rfl, fun _ hj => hj⟩
      · exact ⟨l, stack, .inl rfl, rfl, List.subset_cons_self _ _⟩) [] (List.nil_subset _) hp hdepth
  obtain ⟨skipped, hskipped⟩ := Subtree.countWhile_ok hs hp start.keyBelow
  obtain ⟨taken, htaken⟩ := Subtree.countWhile_ok hs hp stop.keyWithin
  rw [range, Store.walk, Store.walk, bind_of_eq_ok hfront, bind_of_eq_ok hback,
    bind_of_eq_ok hskipped, bind_of_eq_ok htaken]
  exact ⟨_, rfl, fits_of_slots hfits hfits'⟩

end Traversal

/-- The entries of a subtree, as they are read, are those of the tree that is kept there. -/
theorem Subtree.entries_spec (hs : s.Sound c F) (hp : s.Unfolds p)
    (hsize : p.bare.size.toNat = p.count) : Subtree.entries s p.root = .ok p.bare.entries := by
  obtain ⟨t, hfull, hboth⟩ := Traversal.full_spec hs hp hsize
  obtain ⟨t', hdrain, -⟩ := hboth.takeAll .left hs
  have hentries : p.toList.map (·.2.entry) = p.bare.entries := by
    rw [Tree.entries, Tree.bare, Tree.toList_map, List.map_map]
    rfl
  rw [Subtree.entries, hfull]
  refine (bind_of_eq_ok hdrain).trans ?_
  rw [hentries]
  rfl

end

end SharedForest

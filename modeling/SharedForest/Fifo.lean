/-
A first-in first-out queue, held as two lists.

`front` is read from its head; `back` holds what was put in last, newest first.
`toList` is the view every law is stated in: oldest element first.
-/
set_option autoImplicit false

namespace SharedForest

/-- A queue. -/
structure Fifo (α : Type) where
  front : List α := []
  back : List α := []

namespace Fifo

variable {α : Type}

/-- The queue with nothing in it. -/
def empty : Fifo α := {}

/-- The elements, oldest first. -/
def toList (q : Fifo α) : List α := q.front ++ q.back.reverse

/-- The number of elements. -/
def size (q : Fifo α) : Nat := q.front.length + q.back.length

/-- Put an element at the end. -/
def enqueue (q : Fifo α) (a : α) : Fifo α := { q with back := a :: q.back }

/-- Take the oldest element. -/
def dequeue? (q : Fifo α) : Option (α × Fifo α) :=
  match q.front with
  | a :: front => some (a, { q with front })
  | [] =>
    match q.back.reverse with
    | a :: front => some (a, { front, back := [] })
    | [] => none

@[simp] theorem toList_empty : (empty : Fifo α).toList = [] := rfl

/-- The view has as many elements as the queue. -/
@[simp] theorem length_toList (q : Fifo α) : q.toList.length = q.size := by
  simp [toList, size]

/-- What is put in stands last in the view. -/
@[simp] theorem toList_enqueue (q : Fifo α) (a : α) :
    (q.enqueue a).toList = q.toList ++ [a] := by
  simp [toList, enqueue]

/-- What is taken is the head of the view, and the rest of the view stays. -/
theorem dequeue?_eq_some {q rest : Fifo α} {a : α} (h : q.dequeue? = some (a, rest)) :
    q.toList = a :: rest.toList := by
  unfold dequeue? at h
  split at h
  · rename_i front hf
    obtain ⟨rfl, rfl⟩ := by simpa using h
    simp [toList, hf]
  · rename_i hf
    split at h
    · rename_i front hb
      obtain ⟨rfl, rfl⟩ := by simpa using h
      simp [toList, hf, hb]
    · simp at h

/-- Nothing can be taken exactly from an empty queue. -/
theorem dequeue?_eq_none_iff {q : Fifo α} : q.dequeue? = none ↔ q.toList = [] := by
  unfold dequeue? toList
  split
  · simp [*]
  · split <;> simp_all

end Fifo

end SharedForest

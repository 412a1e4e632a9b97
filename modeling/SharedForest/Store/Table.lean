/-
A table of places that grows by segments.

The created segments are always the first ones, so a table is just the list of
them; `get?` answers for exactly the slots of created segments, and `ensure`
creates every segment up to a given one.  That each segment has its proper size is
part of the type, so `get?` has no other way to fail (`isSome_get?_iff`).  What else
a caller needs to know is one look-up law per operation (`get?_modify_self`,
`get?_modify_other`, `get?_ensure_of_isSome`, `get?_append_of_none`) and how `modify`
moves a count over all places (`count_modify`).
-/
import SharedForest.Store.Address

set_option autoImplicit false

namespace SharedForest

open Address

/-- Places in created segments, each of its proper size. -/
structure Table (β : Type) where
  segments : Array (Array β)
  sized : ∀ (s : Nat) (h : s < segments.size), segments[s].size = segmentSize s

namespace Table

variable {β : Type}

/-- No segment yet. -/
def empty : Table β := ⟨#[], by simp⟩

/-- What slot `i` holds; nothing outside the created segments. -/
def get? (t : Table β) (i : Nat) : Option β :=
  t.segments[(locate i).segment]?.bind (·[(locate i).offset]?)

/-- Change what slot `i` holds; outside the created segments nothing changes. -/
def modify (t : Table β) (i : Nat) (f : β → β) : Table β where
  segments := t.segments.modify (locate i).segment fun places =>
    places.modify (locate i).offset f
  sized s h := by
    have := t.sized s (by simpa using h)
    simp only [Array.getElem_modify]
    split <;> simp [this]

/-- One more segment, with `blank` in every place. -/
def push (blank : β) (t : Table β) : Table β where
  segments := t.segments.push (Array.replicate (segmentSize t.segments.size) blank)
  sized s h := by
    simp only [Array.getElem_push]
    split
    · exact t.sized s _
    · have : s = t.segments.size := by
        simp only [Array.size_push] at h
        omega
      simp [this]

/-- Append `n` more segments. -/
def append (blank : β) : Nat → Table β → Table β
  | 0, t => t
  | n + 1, t => append blank n (t.push blank)

/-- Create every segment up to number `s` that is not there yet. -/
def ensure (blank : β) (t : Table β) (s : Nat) : Table β :=
  append blank (s + 1 - t.segments.size) t

/-- The sum of `g` over a list. -/
def total {γ : Type} (g : γ → Nat) : List γ → Nat
  | [] => 0
  | a :: l => g a + total g l

/-- How many places have been created. -/
def size (t : Table β) : Nat := total Array.size t.segments.toList

/-- How many created places satisfy `p`. -/
def count (p : β → Bool) (t : Table β) : Nat :=
  total (fun places => places.toList.countP p) t.segments.toList

/-! ## Look-up laws -/

/-- A slot has a place exactly when its segment has been created. -/
theorem isSome_get?_iff (t : Table β) (i : Nat) :
    (t.get? i).isSome ↔ (locate i).segment < t.segments.size := by
  constructor
  · intro h
    refine Nat.lt_of_not_le fun hn => ?_
    simp [get?, Array.getElem?_eq_none hn] at h
  · intro h
    have hoff : (locate i).offset < t.segments[(locate i).segment].size := by
      rw [t.sized _ h]
      exact locate_offset_lt i
    simp [get?, Array.getElem?_eq_getElem h, Array.getElem?_eq_getElem hoff]

/-- The slot that is changed. -/
theorem get?_modify_self (t : Table β) (i : Nat) (f : β → β) :
    (t.modify i f).get? i = (t.get? i).map f := by
  simp only [get?, modify, Array.getElem?_modify, if_pos]
  cases t.segments[(locate i).segment]? with
  | none => rfl
  | some places => simp [Array.getElem?_modify]

/-- The others hold what they held, also in the same segment. -/
theorem get?_modify_other (t : Table β) {i j : Nat} (f : β → β) (h : i ≠ j) :
    (t.modify i f).get? j = t.get? j := by
  simp only [get?, modify, Array.getElem?_modify]
  split
  · rename_i hs
    rw [← hs]
    cases t.segments[(locate i).segment]? with
    | none => rfl
    | some places =>
      have ho : (locate i).offset ≠ (locate j).offset := by
        intro ho
        apply h
        apply locate_injective
        have hi : locate i = ⟨(locate i).segment, (locate i).offset⟩ := rfl
        rw [hi, hs, ho]
      simp [Array.getElem?_modify, ho]
  · rfl

/-- A change creates no segment. -/
@[simp] theorem size_segments_modify (t : Table β) (i : Nat) (f : β → β) :
    (t.modify i f).segments.size = t.segments.size := by
  simp [modify]

/-- A pushed segment is blank, and nothing else changes. -/
theorem get?_push (blank : β) (t : Table β) (i : Nat) :
    (t.push blank).get? i
      = if (locate i).segment = t.segments.size then some blank else t.get? i := by
  simp only [get?, push, Array.getElem?_push]
  split
  · rename_i h
    have := locate_offset_lt i
    rw [h] at this
    simp [this]
  · rfl

@[simp] theorem size_segments_push (blank : β) (t : Table β) :
    (t.push blank).segments.size = t.segments.size + 1 := by
  simp [push]

/-- As many more segments as were asked for. -/
theorem size_segments_append (blank : β) : ∀ (n : Nat) (t : Table β),
    (append blank n t).segments.size = t.segments.size + n
  | 0, _ => rfl
  | n + 1, t => by
    rw [append, size_segments_append blank n, size_segments_push]
    omega

/-- All segments up to `s` are there, and no more if they were there before. -/
theorem size_segments_ensure (blank : β) (t : Table β) (s : Nat) :
    (t.ensure blank s).segments.size = max t.segments.size (s + 1) := by
  rw [ensure, size_segments_append]
  omega

/-- New segments do not move what is in the old ones. -/
theorem get?_append_of_isSome (blank : β) {i : Nat} : ∀ (n : Nat) (t : Table β),
    (t.get? i).isSome → (append blank n t).get? i = t.get? i
  | 0, _, _ => rfl
  | n + 1, t, h => by
    have hlt := (t.isSome_get?_iff i).1 h
    have hpush : (t.push blank).get? i = t.get? i := by
      rw [get?_push, if_neg (by omega)]
    rw [append, get?_append_of_isSome blank n _ (by rw [hpush]; exact h), hpush]

/-- A created place is left alone by the creation of segments. -/
theorem get?_ensure_of_isSome (blank : β) (t : Table β) (s : Nat) {i : Nat}
    (h : (t.get? i).isSome) : (t.ensure blank s).get? i = t.get? i :=
  get?_append_of_isSome blank _ t h

/-- A slot without a place is blank or still without one after `n` more segments. -/
theorem get?_append_of_none (blank : β) {i : Nat} : ∀ (n : Nat) (t : Table β),
    t.get? i = none →
      (append blank n t).get? i
        = if (locate i).segment < t.segments.size + n then some blank else none
  | 0, t, h => by
    have : ¬ (locate i).segment < t.segments.size := by
      rw [← isSome_get?_iff, h]
      simp
    simp [append, h, this]
  | n + 1, t, h => by
    have hge : ¬ (locate i).segment < t.segments.size := by
      rw [← isSome_get?_iff, h]
      simp
    rw [append]
    by_cases hs : (locate i).segment = t.segments.size
    · have hpush : (t.push blank).get? i = some blank := by
        rw [get?_push, if_pos hs]
      rw [get?_append_of_isSome blank n _ (by simp [hpush]), hpush, if_pos (by omega)]
    · have hpush : (t.push blank).get? i = none := by
        rw [get?_push, if_neg hs, h]
      rw [get?_append_of_none blank n _ hpush, size_segments_push]
      congr 1
      apply propext
      omega

/-! ## Counting

Both levels of a table are lists, and on a list one change moves a sum by the
difference at the changed element. -/

/-- A sum over a list changes by what one element changes. -/
theorem total_modify {γ : Type} (g : γ → Nat) (f : γ → γ) {x : γ} :
    ∀ {l : List γ} {n : Nat}, l[n]? = some x →
      total g (l.modify n f) + g x = total g l + g (f x)
  | a :: l, 0, h => by
    obtain rfl : a = x := by simpa using h
    simp only [List.modify_zero_cons, total]
    omega
  | a :: l, n + 1, h => by
    have ih := total_modify g f (l := l) (n := n) (by simpa using h)
    simp only [List.modify_succ_cons, total]
    omega

/-- So does a count. -/
theorem countP_modify {γ : Type} (p : γ → Bool) (f : γ → γ) {x : γ} :
    ∀ {l : List γ} {n : Nat}, l[n]? = some x →
      (l.modify n f).countP p + (p x).toNat = l.countP p + (p (f x)).toNat
  | a :: l, 0, h => by
    obtain rfl : a = x := by simpa using h
    cases ha : p a <;> cases hfa : p (f a) <;> simp [ha, hfa]
  | a :: l, n + 1, h => by
    have ih := countP_modify p f (l := l) (n := n) (by simpa using h)
    cases ha : p a <;> simp [ha] <;> omega

/-- Changing one place moves the count by what happens at that place. -/
theorem count_modify (p : β → Bool) (t : Table β) {i : Nat} (f : β → β) {x : β}
    (h : t.get? i = some x) :
    (t.modify i f).count p + (p x).toNat = t.count p + (p (f x)).toNat := by
  obtain ⟨places, hseg, hoff⟩ := Option.bind_eq_some_iff.1 h
  have hinner : (places.modify (locate i).offset f).toList.countP p + (p x).toNat
      = places.toList.countP p + (p (f x)).toNat := by
    rw [Array.toList_modify]
    exact countP_modify p f (by simpa using hoff)
  have houter := total_modify (fun places : Array β => places.toList.countP p)
    (fun places => places.modify (locate i).offset f)
    (l := t.segments.toList) (n := (locate i).segment) (x := places) (by simpa using hseg)
  simp only [count, modify, Array.toList_modify]
  omega

/-- A change that keeps `p` at the changed place keeps the count. -/
theorem count_modify_of_eq (p : β → Bool) (t : Table β) (i : Nat) (f : β → β)
    (h : ∀ x, p (f x) = p x) : (t.modify i f).count p = t.count p := by
  simp only [count, modify, Array.toList_modify]
  cases hseg : t.segments.toList[(locate i).segment]? with
  | none =>
    rw [List.modify_eq_self (by simpa using hseg)]
  | some places =>
    have hinner : (places.modify (locate i).offset f).toList.countP p
        = places.toList.countP p := by
      rw [Array.toList_modify]
      cases hoff : places.toList[(locate i).offset]? with
      | none => rw [List.modify_eq_self (by simpa using hoff)]
      | some x =>
        have := countP_modify p f hoff
        rw [h x] at this
        omega
    have := total_modify (fun places : Array β => places.toList.countP p)
      (fun places => places.modify (locate i).offset f) hseg
    omega

theorem total_append {γ : Type} (g : γ → Nat) (l l' : List γ) :
    total g (l ++ l') = total g l + total g l' := by
  induction l with
  | nil => simp [total]
  | cons a l ih =>
    simp only [List.cons_append, total, ih]
    omega

/-- Blank segments count for nothing where blank places do. -/
theorem count_append (p : β → Bool) (blank : β) (h : p blank = false) : ∀ (n : Nat) (t : Table β),
    (append blank n t).count p = t.count p
  | 0, _ => rfl
  | n + 1, t => by
    rw [append, count_append p blank h n]
    simp [count, push, total_append, total, h]

/-- Blank places do not count. -/
theorem count_ensure (p : β → Bool) (blank : β) (h : p blank = false) (t : Table β) (s : Nat) :
    (t.ensure blank s).count p = t.count p :=
  count_append p blank h _ t

/-- The sizes of segments in a row, and once more that of the first, make the size of the next. -/
theorem total_size_of_sized : ∀ (l : List (Array β)) (m : Nat),
    (∀ (k : Nat) (h : k < l.length), l[k].size = segmentSize (m + k)) →
      total Array.size l + segmentSize m = segmentSize (m + l.length)
  | [], m, _ => by simp [total]
  | a :: l, m, h => by
    have hhead : a.size = segmentSize m := h 0 (by simp)
    have ih := total_size_of_sized l (m + 1) fun k hk => by
      have hk' := h (k + 1) (by simpa using hk)
      rw [Nat.add_right_comm, Nat.add_assoc]
      exact hk'
    rw [segmentSize_succ, Nat.add_right_comm] at ih
    rw [total, hhead, List.length_cons, ← Nat.add_assoc]
    omega

/-- The places of a table are those before the segment that would come next. -/
theorem size_eq (t : Table β) : t.size = segmentStart t.segments.size := by
  have h := total_size_of_sized t.segments.toList 0 fun k hk => by
    rw [Nat.zero_add]
    exact t.sized k (by simpa using hk)
  rw [Nat.zero_add, Array.length_toList] at h
  have hsize := segmentStart_add t.segments.size
  have hzero : segmentSize 0 = 64 := rfl
  rw [size]
  omega

/-- The slots of created segments are the first ones. -/
theorem isSome_get?_iff_lt_size (t : Table β) (i : Nat) : (t.get? i).isSome ↔ i < t.size := by
  rw [isSome_get?_iff, locate_segment_lt_iff, size_eq]

end Table

end SharedForest

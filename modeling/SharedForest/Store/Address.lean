/-
Where a slot lives.

A store grows by whole segments, each twice as large as the one before, so that
growing never moves a place that is already in use.  A *slot* is the number of a
place, a plain natural number.  This module holds the arithmetic alone: `locate`
sends a slot to a segment and an offset in it.

What is proved: the offset is inside the segment (`locate_offset_lt`), the slot
number can be read back (`locate_start_add_offset`), hence two slots never share
an address (`locate_injective`), and a slot below `segmentStart n` is in one of
the first `n` segments (`locate_segment_lt_iff`).  The one awkward thing is that
the segment is read off a base-two logarithm, so every bound below goes through
`Nat.log2_lt` and its converse.
-/
set_option autoImplicit false

namespace SharedForest

/-- A segment and a place in it, both counted from zero. -/
structure Address where
  segment : Nat
  offset : Nat
deriving DecidableEq

namespace Address

/-- How many places segment `s` holds: 64 for the first, then always twice as many. -/
def segmentSize (s : Nat) : Nat := 64 <<< s

/-- The first slot of segment `s`: the places of all earlier segments together. -/
def segmentStart (s : Nat) : Nat := (64 <<< s) - 64

/-- The address of a slot.  Shifting the slot by 64 makes segment boundaries powers of two. -/
def locate (i : Nat) : Address :=
  let shifted := i + 64
  let segment := shifted.log2 - 6
  ⟨segment, shifted - segmentSize segment⟩

/-- Sizes are powers of two, from 64 on. -/
theorem segmentSize_eq (s : Nat) : segmentSize s = 64 * Nat.pow 2 s := Nat.shiftLeft_eq 64 s

theorem segmentSize_succ (s : Nat) : segmentSize (s + 1) = 2 * segmentSize s :=
  Nat.shiftLeft_succ 64 s

theorem segmentSize_mono {s t : Nat} (h : s ≤ t) : segmentSize s ≤ segmentSize t := by
  induction h with
  | refl => exact Nat.le_refl _
  | step _ ih =>
    rw [segmentSize_succ]
    omega

/-- No segment is smaller than the first. -/
theorem segmentSize_ge (s : Nat) : 64 ≤ segmentSize s :=
  segmentSize_mono (Nat.zero_le s)

/-- All segments before one are as large as it is, but for 64 places. -/
theorem segmentStart_add (s : Nat) : segmentStart s + 64 = segmentSize s := by
  have := segmentSize_ge s
  unfold segmentStart segmentSize at *
  omega

/-- A shifted slot lies between the size of its segment and twice that size. -/
theorem segmentSize_le_shifted (i : Nat) :
    segmentSize (locate i).segment ≤ i + 64 ∧ i + 64 < 2 * segmentSize (locate i).segment := by
  have hne : i + 64 ≠ 0 := by omega
  have h6 : 6 ≤ (i + 64).log2 := (Nat.le_log2 hne).2 (by omega)
  have hsplit : segmentSize ((i + 64).log2 - 6) = Nat.pow 2 (i + 64).log2 := by
    have hlog : (i + 64).log2 = 6 + ((i + 64).log2 - 6) := by omega
    rw [segmentSize_eq]
    conv => rhs; rw [hlog]
    exact (Nat.pow_add 2 6 _).symm
  have hlow : Nat.pow 2 (i + 64).log2 ≤ i + 64 := Nat.log2_self_le hne
  have hhigh : i + 64 < Nat.pow 2 ((i + 64).log2 + 1) := Nat.lt_log2_self
  have htwice : Nat.pow 2 ((i + 64).log2 + 1) = Nat.pow 2 (i + 64).log2 * 2 := rfl
  constructor
  · show segmentSize ((i + 64).log2 - 6) ≤ i + 64
    omega
  · show i + 64 < 2 * segmentSize ((i + 64).log2 - 6)
    omega

/-- The offset of an address is inside its segment. -/
theorem locate_offset_lt (i : Nat) :
    (locate i).offset < segmentSize (locate i).segment := by
  have h := segmentSize_le_shifted i
  show i + 64 - segmentSize (locate i).segment < _
  omega

/-- A slot is the start of its segment plus its offset. -/
theorem locate_start_add_offset (i : Nat) :
    segmentStart (locate i).segment + (locate i).offset = i := by
  have h := segmentSize_le_shifted i
  have hsize := segmentStart_add (locate i).segment
  have hoff : (locate i).offset = i + 64 - segmentSize (locate i).segment := rfl
  omega

/-- Two slots never share an address. -/
theorem locate_injective {i j : Nat} (h : locate i = locate j) : i = j := by
  rw [← locate_start_add_offset i, ← locate_start_add_offset j, h]

/-- A slot is in one of the first `n` segments exactly when it is below the start of the next. -/
theorem locate_segment_lt_iff (i n : Nat) :
    (locate i).segment < n ↔ i < segmentStart n := by
  have h := segmentSize_le_shifted i
  have hn := segmentStart_add n
  constructor
  · intro hs
    have hmono := segmentSize_mono (Nat.succ_le_of_lt hs)
    rw [Nat.succ_eq_add_one, segmentSize_succ] at hmono
    omega
  · intro hi
    refine Nat.lt_of_not_le fun hle => ?_
    have hmono := segmentSize_mono hle
    omega

end Address

end SharedForest

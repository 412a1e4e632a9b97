/-
Every slot has its own address.

`Store/Address.lean` has the arithmetic on natural numbers.  A slot is a 32-bit word, though,
and an address is worked out in 64-bit words: widen, add, count leading zeros, shift, subtract.
`locateWord` is that computation, and `locateWord_spec` says that no step of it wraps, so what
is known of `locate` is known of the words.

The rest is what the table needs of addresses over the whole range of slots: segments are among
the `maxSegments` there is room for, two slots are two places, and going from one slot to the
next goes through a segment to its end and on to the start of the next one.  The one place where
the range matters is its top: the last 64 slots alone need the last segment.
-/
import SharedForest.Proofs.Ledger

set_option autoImplicit false

namespace SharedForest

namespace Address

/-! ## Addresses in words -/

/-- The address of a slot in 64-bit words, with the segment read off the leading zeros. -/
def locateWord (i : UInt32) : UInt64 × UInt64 :=
  let shifted := i.toUInt64 + 64
  let segment := 63 - UInt64.ofBitVec shifted.toBitVec.clz - 6
  (segment, shifted - (64 <<< segment))

/-- The leading zeros of a word and its logarithm make up the word. -/
theorem toNat_clz (w : UInt64) (h : w ≠ 0) : w.toBitVec.clz.toNat + w.toNat.log2 = 63 := by
  have hne : w.toBitVec ≠ 0#64 := fun h0 => h (UInt64.toBitVec_inj.1 h0)
  have hne' : w.toNat ≠ 0 := fun h0 => h (UInt64.toNat_inj.1 h0)
  have hle : w.toBitVec.clz.toNat < 64 := BitVec.clz_lt_iff_ne_zero.2 hne
  have hlow : 2 ^ (63 - w.toBitVec.clz.toNat) ≤ w.toNat :=
    BitVec.two_pow_sub_clz_le_toNat_of_ne_zero (by decide) hne
  have hhigh : w.toNat < 2 ^ (64 - w.toBitVec.clz.toNat) := BitVec.toNat_lt_two_pow_sub_clz
  have := (Nat.le_log2 hne').2 hlow
  have := (Nat.log2_lt hne').2 hhigh
  omega

/-- The shift by 64 stays far below the largest 64-bit word. -/
theorem toNat_shifted (i : UInt32) : (i.toUInt64 + 64).toNat = i.toNat + 64 := by
  have := i.toNat_lt
  rw [UInt64.toNat_add, UInt32.toNat_toUInt64]
  exact Nat.mod_eq_of_lt (show i.toNat + 64 < 2 ^ 64 by omega)

/-- The shift of a slot is at least 64 and has fewer than 34 bits. -/
theorem log2_shifted (i : UInt32) : 6 ≤ (i.toNat + 64).log2 ∧ (i.toNat + 64).log2 < 33 := by
  have := i.toNat_lt
  have hne : i.toNat + 64 ≠ 0 := by omega
  exact ⟨(Nat.le_log2 hne).2 (by omega), (Nat.log2_lt hne).2 (by omega)⟩

/-- In words the segment is the same. -/
theorem toNat_locateWord_fst (i : UInt32) :
    (locateWord i).1.toNat = (locate i.toNat).segment := by
  have hshift := toNat_shifted i
  have hlog := log2_shifted i
  have hclz := toNat_clz (i.toUInt64 + 64) fun h0 => by
    have := congrArg UInt64.toNat h0
    rw [hshift] at this
    exact absurd this (by simp)
  rw [hshift] at hclz
  show (63 - UInt64.ofBitVec (i.toUInt64 + 64).toBitVec.clz - 6).toNat = (i.toNat + 64).log2 - 6
  have hword : (UInt64.ofBitVec (i.toUInt64 + 64).toBitVec.clz).toNat
      = 63 - (i.toNat + 64).log2 := by
    show (i.toUInt64 + 64).toBitVec.clz.toNat = _
    omega
  have hle : UInt64.ofBitVec (i.toUInt64 + 64).toBitVec.clz ≤ 63 := by
    rw [UInt64.le_iff_toNat_le, hword]
    exact Nat.sub_le _ _
  have hfirst : (63 - UInt64.ofBitVec (i.toUInt64 + 64).toBitVec.clz).toNat
      = (i.toNat + 64).log2 := by
    rw [UInt64.toNat_sub_of_le _ _ hle, hword]
    show 63 - _ = _
    omega
  rw [UInt64.toNat_sub_of_le, hfirst]
  · rfl
  · rw [UInt64.le_iff_toNat_le, hfirst]
    exact hlog.1

/-- In words the offset is the same: the shift of a 64 by a segment number loses no bit. -/
theorem toNat_locateWord_snd (i : UInt32) :
    (locateWord i).2.toNat = (locate i.toNat).offset := by
  have hseg := toNat_locateWord_fst i
  have hlog := log2_shifted i
  have hsegment : (locate i.toNat).segment = (i.toNat + 64).log2 - 6 := rfl
  have hbounds := segmentSize_le_shifted i.toNat
  have hi := i.toNat_lt
  have hsize : ((64 : UInt64) <<< (locateWord i).1).toNat
      = segmentSize (locate i.toNat).segment := by
    rw [UInt64.toNat_shiftLeft, hseg, Nat.mod_eq_of_lt (by omega : (locate i.toNat).segment < 64)]
    exact Nat.mod_eq_of_lt (by
      show segmentSize _ < _
      omega)
  show (i.toUInt64 + 64 - ((64 : UInt64) <<< (locateWord i).1)).toNat
    = i.toNat + 64 - segmentSize (locate i.toNat).segment
  rw [UInt64.toNat_sub_of_le, toNat_shifted, hsize]
  rw [UInt64.le_iff_toNat_le, toNat_shifted, hsize]
  exact hbounds.1

/-- **Addresses in words.**  None of the steps wraps, for any 32-bit slot. -/
theorem locateWord_spec (i : UInt32) :
    (⟨(locateWord i).1.toNat, (locateWord i).2.toNat⟩ : Address) = locate i.toNat := by
  rw [toNat_locateWord_fst, toNat_locateWord_snd]

/-! ## The whole range of slots -/

/-- There is room in the table for the segment of every 32-bit slot. -/
theorem word_segment_lt (i : UInt32) : (locate i.toNat).segment < Store.maxSegments :=
  (locate_segment_lt_iff i.toNat Store.maxSegments).2
    (Nat.lt_of_lt_of_le i.toNat_lt (by decide +kernel))

/-- A slot is all places of the segments before its own, and its offset. -/
theorem eq_places_add_offset (i : Nat) :
    i = 64 * (2 ^ (locate i).segment - 1) + (locate i).offset := by
  have hi := locate_start_add_offset i
  have hstart := segmentStart_add (locate i).segment
  have hsize : segmentSize (locate i).segment = 64 * 2 ^ (locate i).segment := segmentSize_eq _
  omega

/-- An address with its offset inside its segment is the address of one slot only. -/
theorem locate_eq {i s o : Nat} (ho : o < segmentSize s) (hi : i = segmentStart s + o) :
    locate i = ⟨s, o⟩ := by
  have hstart := segmentStart_add s
  have hnext := segmentStart_add (s + 1)
  rw [segmentSize_succ] at hnext
  have hlow : ¬ (locate i).segment < s := by
    rw [locate_segment_lt_iff]
    omega
  have hhigh : (locate i).segment < s + 1 := by
    rw [locate_segment_lt_iff]
    omega
  have hseg : (locate i).segment = s := by omega
  have hback := locate_start_add_offset i
  rw [hseg] at hback
  have hoff : (locate i).offset = o := by omega
  rw [← hseg, ← hoff]

/-- The next slot is the next place of the segment, or the first of the next segment. -/
theorem locate_succ (i : Nat) :
    locate (i + 1) = if (locate i).offset + 1 < segmentSize (locate i).segment
      then ⟨(locate i).segment, (locate i).offset + 1⟩ else ⟨(locate i).segment + 1, 0⟩ := by
  have hi := locate_start_add_offset i
  have hoff := locate_offset_lt i
  split
  · rename_i hin
    exact locate_eq hin (by omega)
  · have hstart := segmentStart_add (locate i).segment
    have hnext := segmentStart_add ((locate i).segment + 1)
    rw [segmentSize_succ] at hnext
    have hpos := segmentSize_ge ((locate i).segment + 1)
    exact locate_eq (by omega) (by omega)

/-- Segments follow one another in the order of the slots. -/
theorem locate_segment_mono {i j : Nat} (h : i ≤ j) :
    (locate i).segment ≤ (locate j).segment := by
  have hj := (locate_segment_lt_iff j ((locate j).segment + 1)).1 (Nat.lt_succ_self _)
  exact Nat.le_of_lt_succ ((locate_segment_lt_iff i _).2 (Nat.lt_of_le_of_lt h hj))

/-- The slot that is a 32-bit number but is kept out of use shares the last segment. -/
theorem locate_segment_maxPlaces :
    (locate maxPlaces).segment = (locate (maxPlaces - 1)).segment := by decide +kernel

/-! ## A new store -/

variable {ν : Type}

/-- The segments of a new store are those up to the one of the last place asked for.  No more
than `maxPlaces` can be asked for, but one slot more than that would still have a place. -/
theorem isSome_get?_new {config : Config} {i : Nat} (hcap : i < config.initialCapacity)
    (hmax : i < config.maxNodes) (hi : i ≤ maxPlaces) :
    ((Store.new config : Store ν).table.get? i).isSome := by
  have hpos : 0 < maxPlaces := by decide
  have hreserve : min config.initialCapacity (min config.maxNodes maxPlaces) ≠ 0 := by omega
  have hseg : (locate i).segment
      ≤ (locate (min config.initialCapacity (min config.maxNodes maxPlaces) - 1)).segment := by
    rcases Nat.lt_or_eq_of_le hi with hlt | rfl
    · exact locate_segment_mono (by omega)
    · have hlast : min config.initialCapacity (min config.maxNodes maxPlaces) = maxPlaces := by
        omega
      rw [hlast, locate_segment_maxPlaces]
  rw [Table.isSome_get?_iff]
  simp only [Store.new, if_neg hreserve, Table.size_segments_ensure]
  omega

/-- **Slots never share a place.**  For every 32-bit slot the address, as worked out in 64-bit
words, is a place inside one of the segments there is room for, and the slot can be read back
from it; so a change of the place of one slot leaves the place of every other alone.  The slots
in their order fill each segment to its end before the next one, and in a new store all slots
below the capacity asked for and below the largest number of nodes have their segment. -/
theorem slots_apart :
    (∀ i : UInt32,
      (⟨(locateWord i).1.toNat, (locateWord i).2.toNat⟩ : Address) = locate i.toNat ∧
      (locate i.toNat).segment < Store.maxSegments ∧
      (locate i.toNat).offset < 64 * 2 ^ (locate i.toNat).segment ∧
      i.toNat = 64 * (2 ^ (locate i.toNat).segment - 1) + (locate i.toNat).offset) ∧
    (∀ i j : UInt32, i ≠ j → locate i.toNat ≠ locate j.toNat ∧
      ∀ (t : Table (Place ν)) (f : Place ν → Place ν),
        (t.modify i.toNat f).get? j.toNat = t.get? j.toNat) ∧
    locate 0 = ⟨0, 0⟩ ∧
    (∀ i : UInt32, locate (i.toNat + 1)
      = if (locate i.toNat).offset + 1 < 64 * 2 ^ (locate i.toNat).segment
        then ⟨(locate i.toNat).segment, (locate i.toNat).offset + 1⟩
        else ⟨(locate i.toNat).segment + 1, 0⟩) ∧
    ∀ (capacity nodes : UInt32) (policy : Reclamation) (i : UInt32),
      i.toNat < min capacity.toNat nodes.toNat →
      ((Store.new ⟨capacity.toNat, nodes.toNat, policy⟩ : Store ν).table.get? i.toNat).isSome := by
  have hsize : ∀ s, segmentSize s = 64 * 2 ^ s := segmentSize_eq
  refine ⟨fun i => ⟨locateWord_spec i, word_segment_lt i, ?_, eq_places_add_offset i.toNat⟩,
    fun i j hne => ?_, rfl, fun i => ?_, fun capacity nodes policy i hi => ?_⟩
  · rw [← hsize]
    exact locate_offset_lt i.toNat
  · have hne' : i.toNat ≠ j.toNat := fun h => hne (UInt32.toNat_inj.1 h)
    exact ⟨fun h => hne' (locate_injective h), fun t f => Table.get?_modify_other t f hne'⟩
  · rw [← hsize]
    exact locate_succ i.toNat
  · obtain ⟨hcap, hmax⟩ := Nat.lt_min.1 hi
    have hword := nodes.toNat_lt
    exact isSome_get?_new hcap hmax (show i.toNat ≤ 4294967294 by omega)

/-- The two slots at the first boundary, and a store of as many places as there are slots. -/
theorem slots_apart_boundary :
    (63 : UInt32) ≠ 64 ∧ locate 63 ≠ locate 64 ∧
    4294967294 < min (4294967295 : UInt32).toNat (4294967295 : UInt32).toNat ∧
    ((Store.new ⟨4294967295, 4294967295, .immediate⟩ : Store Unit).table.get? 4294967294).isSome :=
  ⟨by decide, ((@slots_apart Unit).2.1 63 64 (by decide)).1, by decide,
    (@slots_apart Unit).2.2.2.2 4294967295 4294967295 .immediate 4294967294 (by decide)⟩

end Address

end SharedForest

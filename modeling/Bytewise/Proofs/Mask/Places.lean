import Bytewise.ByteSet.Order
import Bytewise.Mask
import Mathlib.Algebra.BigOperators.Fin
import Mathlib.Data.Finset.Interval

/-!
# Masks as sets of places

A byte is the set of the places of its bits, one of the 256 subsets of eight places.

* `places_injective`, `exists_places_eq`: bytes and sets of places correspond one to one;
* `covers_iff`, `meets_iff`: covering is inclusion, meeting is a common place;
* `meets_bit`, `covers_not_bit`: one place is tested by the byte that has no other, or lacks no
  other;
* `length_filter_covers`, `length_filter_not_meets`: as many bytes cover a mask, and as many do not
  meet it, as `coverCount` says.
-/

namespace Bytewise.Mask

/-- The places of the bits set. -/
def places (b : Byte) : Finset (Fin 8) := Finset.univ.filter fun i => b.toBitVec.getLsbD i = true

theorem mem_places {b : Byte} {i : Fin 8} : i ∈ places b ↔ b.toBitVec.getLsbD i = true := by
  simp [places]

theorem places_injective : Function.Injective places := by
  intro a b h
  apply UInt8.toBitVec_inj.mp
  apply BitVec.eq_of_getLsbD_eq
  intro i hi
  have hm : (⟨i, hi⟩ : Fin 8) ∈ places a ↔ (⟨i, hi⟩ : Fin 8) ∈ places b := by rw [h]
  rw [mem_places, mem_places] at hm
  exact Bool.eq_iff_iff.mpr hm

/-- Every set of places is that of a byte: there are as many of either. -/
theorem exists_places_eq (t : Finset (Fin 8)) : ∃ b, places b = t := by
  have hcard : (Byte.all.toFinset.image places).card = Fintype.card (Finset (Fin 8)) := by
    rw [Finset.card_image_of_injective _ places_injective,
      List.toFinset_card_of_nodup (Byte.pairwise_all.imp UInt8.ne_of_lt), Byte.length_all,
      Fintype.card_finset, Fintype.card_fin]
    rfl
  have ht : t ∈ Byte.all.toFinset.image places := by
    rw [Finset.eq_univ_of_card _ hcard]
    exact Finset.mem_univ t
  obtain ⟨b, _, hb⟩ := Finset.mem_image.mp ht
  exact ⟨b, hb⟩

theorem places_and (a b : Byte) : places (a &&& b) = places a ∩ places b := by
  refine Finset.ext fun i => ?_
  simp [mem_places]

theorem places_or (a b : Byte) : places (a ||| b) = places a ∪ places b := by
  refine Finset.ext fun i => ?_
  simp [mem_places]

theorem places_eq_empty_iff {b : Byte} : places b = ∅ ↔ b = 0 := by
  have h0 : places 0 = ∅ := by decide
  rw [← h0]
  exact places_injective.eq_iff

theorem places_all : places 255 = Finset.univ := by decide

theorem card_places (b : Byte) : (places b).card = weight b := by
  have hrange : weight b = ((Finset.range 8).filter fun i => b.toBitVec.getLsbD i = true).card := by
    have hlist : ((Finset.range 8).filter fun i => b.toBitVec.getLsbD i = true).card =
        ((List.range 8).filter fun i => decide (b.toBitVec.getLsbD i = true)).length := rfl
    rw [weight, BitVec.toNat_cpop, ByteSet.cpopNatRec_eq_countP, List.countP_eq_length_filter,
      hlist]
    simp only [Bool.decide_eq_true]
  rw [hrange, places, Finset.card_filter, Finset.card_filter]
  exact Fin.sum_univ_eq_sum_range (fun i => if b.toBitVec.getLsbD i = true then 1 else 0) 8

theorem isSingleBit_iff {b : Byte} : isSingleBit b = true ↔ ∃ i, places b = {i} := by
  rw [isSingleBit, beq_iff_eq, ← card_places, Finset.card_eq_one]

theorem covers_eq_true_iff {mask b : Byte} : covers mask b = true ↔ b &&& mask = mask := by
  rw [covers, beq_iff_eq]

theorem meets_eq_true_iff {mask b : Byte} : meets mask b = true ↔ b &&& mask ≠ 0 := by
  rw [meets, bne_iff_ne]

theorem covers_iff {mask b : Byte} : covers mask b = true ↔ places mask ⊆ places b := by
  rw [covers_eq_true_iff, ← places_injective.eq_iff, places_and, Finset.inter_eq_right]

theorem meets_iff {mask b : Byte} : meets mask b = true ↔ ∃ i, i ∈ places b ∧ i ∈ places mask := by
  rw [meets_eq_true_iff, ne_eq, ← places_eq_empty_iff, places_and, ← ne_eq,
    ← Finset.nonempty_iff_ne_empty]
  simp [Finset.Nonempty]

theorem covers_all (mask : Byte) : covers mask 255 = true := by
  rw [covers_iff, places_all]
  exact Finset.subset_univ _

/-! ## Single places -/

/-- The byte with one bit, at the given place. -/
def bit (j : Fin 8) : Byte := UInt8.ofNat (2 ^ j.val)

theorem toNat_bit (j : Fin 8) : (bit j).toNat = 2 ^ j.val := by
  revert j
  decide

theorem toNat_not_bit (j : Fin 8) : (~~~bit j).toNat = 255 - 2 ^ j.val := by
  revert j
  decide

theorem places_bit (j : Fin 8) : places (bit j) = {j} := by
  revert j
  decide

theorem places_not_bit (j : Fin 8) : places (~~~bit j) = {j}ᶜ := by
  revert j
  decide

theorem meets_bit {mask : Byte} {j : Fin 8} : meets mask (bit j) = true ↔ j ∈ places mask := by
  rw [meets_iff, places_bit]
  simp

theorem covers_not_bit {mask : Byte} {j : Fin 8} :
    covers mask (~~~bit j) = true ↔ j ∉ places mask := by
  rw [covers_iff, places_not_bit, Finset.subset_compl_singleton]

theorem two_pow_le_of_mem_places {b : Byte} {j : Fin 8} (h : j ∈ places b) :
    2 ^ j.val ≤ b.toNat := by
  rw [mem_places, ← BitVec.testBit_toNat] at h
  exact Nat.ge_two_pow_of_testBit h

/-! ## How many bytes -/

/-- The bytes with given places and no bits outside given places. The places between are free. -/
theorem length_filter_eq_two_pow {p : Byte → Bool} {lo hi : Finset (Fin 8)} (h : lo ⊆ hi)
    (hp : ∀ b, p b = true ↔ lo ⊆ places b ∧ places b ⊆ hi) :
    (Byte.all.filter p).length = 2 ^ (hi.card - lo.card) := by
  have hnodup : (Byte.all.filter p).Nodup := (Byte.pairwise_all.imp UInt8.ne_of_lt).filter _
  have himage : (Byte.all.filter p).toFinset.image places = Finset.Icc lo hi := by
    refine Finset.ext fun t => ?_
    simp only [Finset.mem_image, List.mem_toFinset, List.mem_filter, Byte.mem_all, true_and, hp,
      Finset.mem_Icc]
    constructor
    · rintro ⟨b, hb, rfl⟩
      exact hb
    · intro ht
      obtain ⟨b, rfl⟩ := exists_places_eq t
      exact ⟨b, ht, rfl⟩
  rw [← List.toFinset_card_of_nodup hnodup, ← Finset.card_image_of_injective _ places_injective,
    himage, Finset.card_Icc_finset h]

theorem length_filter_covers (mask : Byte) :
    (Byte.all.filter (covers mask)).length = coverCount mask := by
  rw [length_filter_eq_two_pow (Finset.subset_univ (places mask)), card_places, Finset.card_univ,
    Fintype.card_fin, coverCount, Nat.one_shiftLeft]
  intro b
  rw [covers_iff]
  exact ⟨fun h => ⟨h, Finset.subset_univ _⟩, And.left⟩

/-- The bytes that do not meet a mask have bits outside it only. -/
theorem length_filter_not_meets (mask : Byte) :
    (Byte.all.filter fun b => !meets mask b).length = coverCount mask := by
  rw [length_filter_eq_two_pow (Finset.empty_subset (places mask)ᶜ), Finset.card_compl, card_places,
    Finset.card_empty, Fintype.card_fin, coverCount, Nat.one_shiftLeft, Nat.sub_zero]
  intro b
  rw [Bool.not_eq_true', ← Bool.not_eq_true, meets_iff, not_exists]
  constructor
  · intro h
    refine ⟨Finset.empty_subset _, fun i hi => ?_⟩
    exact Finset.mem_compl.mpr fun hm => h i ⟨hi, hm⟩
  · rintro ⟨_, h⟩ i ⟨hi, hm⟩
    exact Finset.mem_compl.mp (h hi) hm

end Bytewise.Mask

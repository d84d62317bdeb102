import Bytewise.Proofs.ByteSet.Recognition

/-!
# Where shapes meet

Some sets have two shapes, and some have a complement with a shape of its own. What follows for the
parameters of one shape when the other is missing, and when the size of the set is known.

* `card_covering`, `card_complement_meeting`: a mask is covered by as many bytes as do not meet it;
* `meeting_eq_covering`: a single bit is met by the bytes that cover it;
* `ne_upFrom_of_covering`, `ne_upFrom_of_meeting`: where the complement is no interval, the mask is
  not made of the highest bits;
* `inner_of_complement`: nor does an interval hold the first byte or the last.
-/

namespace Bytewise

/-! ## The highest bits -/

namespace Mask

/-- The bits from a place up. -/
def upFrom (k : Nat) : Byte := UInt8.ofNat (255 <<< k)

theorem upFrom_of_le {k : Nat} (h : 8 ≤ k) : upFrom k = 0 := by
  obtain ⟨j, rfl⟩ := Nat.exists_eq_add_of_le h
  apply UInt8.toNat_inj.mp
  rw [upFrom, UInt8.toNat_ofNat', Nat.shiftLeft_eq, pow_add]
  simp [Nat.mul_left_comm 255]

/-- A byte has all of the highest bits from the least such byte on. -/
theorem covers_upFrom {k : Nat} (hk : k < 8) :
    ∀ b, covers (upFrom k) b = decide (upFrom k ≤ b) := by
  refine Byte.forall_of_lt ?_
  revert k
  decide +kernel

/-- A byte has one of the highest bits from the lowest of them on. -/
theorem meets_upFrom {k : Nat} (hk : k < 8) :
    ∀ b, meets (upFrom k) b = decide (UInt8.ofNat (2 ^ k) ≤ b) := by
  refine Byte.forall_of_lt ?_
  revert k
  decide +kernel

/-- Masks with every bit or none are covered by one byte or by all. -/
theorem weight_of_coverCount {mask : Byte} (h : 2 ≤ coverCount mask ∧ coverCount mask ≤ 254) :
    1 ≤ weight mask ∧ weight mask ≤ 7 := by
  have hle := weight_le mask
  have h0 : weight mask ≠ 0 := by
    intro h0
    simp [coverCount, h0] at h
  have h8 : weight mask ≠ 8 := by
    intro h8
    simp [coverCount, h8] at h
  omega

end Mask

namespace ByteSet

open Mask

variable {s : ByteSet} {mask m : Byte} {i : Span} {l : Letter}

/-! ## Listed members -/

theorem toList_eq_span_iff : s.toList = i.toList ↔ s.span? = some i := by
  rw [toList_eq_iff i.pairwise_toList, span?_eq_some_iff]
  simp only [Span.mem_toList, Span.contains_iff]

theorem toList_eq_letter_iff : s.toList = l.toList ↔ s.letter? = some l := by
  rw [letter?_eq_some_iff]
  exact toList_eq_cases_iff l.isUpper_upper

/-! ## Sizes -/

theorem contains_ofPred (p : Byte → Bool) : (ofPred p).contains = p :=
  funext fun _ => Bool.eq_iff_iff.mpr mem_ofPred

theorem card_covering (mask : Byte) : (covering mask).card = coverCount mask := by
  rw [card_eq_length_toList, toList, covering, contains_ofPred, length_filter_covers]

theorem card_complement_meeting (mask : Byte) :
    (meeting mask).complement.card = coverCount mask := by
  rw [card_eq_length_toList, ← missing_eq_toList_complement, missing, meeting, contains_ofPred,
    length_filter_not_meets]

/-! ## Masks of either kind -/

theorem meeting_eq_covering (h : weight mask = 1) : meeting mask = covering mask := by
  rw [← card_places, Finset.card_eq_one] at h
  obtain ⟨j, hj⟩ := h
  refine ext fun b => ?_
  rw [mem_meeting, mem_covering, ← meets_eq_true_iff, ← covers_eq_true_iff, meets_iff, covers_iff,
    hj, Finset.singleton_subset_iff]
  simp

/-! ## Intervals at the ends -/

theorem span?_ne_none_iff :
    s.span? ≠ none ↔ ∃ i : Span, ∀ b, b ∈ s ↔ i.first ≤ b ∧ b ≤ i.last := by
  rw [Option.ne_none_iff_exists']
  exact exists_congr fun i => span?_eq_some_iff

/-- The bytes below a byte are an interval. -/
theorem span?_ne_none_of_below (hm : m ≠ 0) (h : ∀ b, b ∈ s ↔ b < m) : s.span? ≠ none := by
  have hpos : 1 ≤ m.toNat := Nat.pos_of_ne_zero fun h0 => hm (UInt8.toNat_inj.mp h0)
  have hpred : (m - 1).toNat = m.toNat - 1 :=
    UInt8.toNat_sub_of_le _ _ (UInt8.le_iff_toNat_le.mpr hpos)
  refine span?_ne_none_iff.mpr ⟨⟨0, m - 1, UInt8.zero_le⟩, fun b => ?_⟩
  rw [h, UInt8.lt_iff_toNat_lt, UInt8.le_iff_toNat_le, UInt8.le_iff_toNat_le, hpred,
    UInt8.toNat_zero]
  omega

/-- The bytes above a byte are an interval. -/
theorem span?_ne_none_of_above (hm : m ≠ 255) (h : ∀ b, b ∈ s ↔ m < b) : s.span? ≠ none := by
  have hmax : m.toNat ≠ 255 := fun he => hm (UInt8.toNat_inj.mp he)
  have hlt := m.toNat_lt
  have h255 : (255 : Byte).toNat = 255 := rfl
  have hsucc := Byte.toNat_succ_of_lt (b := m) (by omega)
  refine span?_ne_none_iff.mpr ⟨⟨m + 1, 255, ?_⟩, fun b => ?_⟩
  · rw [UInt8.le_iff_toNat_le, hsucc]
    omega
  · have hb := b.toNat_lt
    show b ∈ s ↔ m + 1 ≤ b ∧ b ≤ 255
    rw [h, UInt8.lt_iff_toNat_lt, UInt8.le_iff_toNat_le, UInt8.le_iff_toNat_le, hsucc]
    omega

/-- The bytes that do not have all of the highest bits lie below a byte. -/
theorem ne_upFrom_of_covering (hmask : mask ≠ 0) (h : (covering mask).complement.span? = none)
    (k : Nat) : mask ≠ upFrom k := by
  rintro rfl
  have hk : k < 8 := Nat.lt_of_not_le fun hle => hmask (upFrom_of_le hle)
  refine span?_ne_none_of_below hmask (fun b => ?_) h
  rw [mem_complement, mem_covering, ← covers_eq_true_iff, covers_upFrom hk]
  simp

/-- The bytes that have none of the highest bits lie below a byte. -/
theorem ne_upFrom_of_meeting (hmask : mask ≠ 0) (h : (meeting mask).complement.span? = none)
    (k : Nat) : mask ≠ upFrom k := by
  rintro rfl
  have hk : k < 8 := Nat.lt_of_not_le fun hle => hmask (upFrom_of_le hle)
  have hbit : ∀ k, k < 8 → UInt8.ofNat (2 ^ k) ≠ 0 := by decide
  refine span?_ne_none_of_below (hbit k hk) (fun b => ?_) h
  rw [mem_complement, mem_meeting, ← meets_eq_true_iff, meets_upFrom hk]
  simp

/-- The bytes outside an interval that holds the first byte lie above it, and those outside one that
holds the last lie below it. -/
theorem inner_of_complement (hs : s.span? = some i) (hcard : s.card ≠ 256)
    (h : s.complement.span? = none) : 0 < i.first ∧ i.last < 255 := by
  rw [span?_eq_some_iff] at hs
  have hothers : ∀ b, b ∈ s.complement ↔ b < i.first ∨ i.last < b := by
    intro b
    rw [mem_complement, hs, not_and_or, UInt8.not_le, UInt8.not_le]
  have hnotall : ¬ (i.first = 0 ∧ i.last = 255) := by
    rintro ⟨hfirst, hlast⟩
    refine hcard (card_eq_256_iff.mpr (ext fun b => iff_of_true ?_ (mem_full b)))
    rw [hs, hfirst, hlast]
    exact ⟨UInt8.zero_le, b.le_last⟩
  constructor
  · by_contra hle
    have hfirst : i.first = 0 := UInt8.le_antisymm (UInt8.not_lt.mp hle) UInt8.zero_le
    refine span?_ne_none_of_above (fun hlast => hnotall ⟨hfirst, hlast⟩) (fun b => ?_) h
    rw [hothers, hfirst]
    exact or_iff_right (UInt8.not_lt.mpr UInt8.zero_le)
  · by_contra hle
    have hlast : i.last = 255 := UInt8.le_antisymm i.last.le_last (UInt8.not_lt.mp hle)
    refine span?_ne_none_of_below (fun hfirst => hnotall ⟨hfirst, hlast⟩) (fun b => ?_) h
    rw [hothers, hlast]
    exact or_iff_left (UInt8.not_lt.mpr b.le_last)

end ByteSet

end Bytewise

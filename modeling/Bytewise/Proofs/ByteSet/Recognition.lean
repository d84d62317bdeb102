import Bytewise.ByteSet.Shape
import Bytewise.Proofs.ByteSet.Ascending
import Bytewise.Proofs.Mask.Places

/-!
# Shapes are recognized exactly

Each shape of `Bytewise.ByteSet.Shape` computes one candidate and checks it. The check makes the
answer right; that no other candidate has to be tried is what is shown here. A set has a shape, for
whatever parameter, exactly when the shape's function finds that parameter.

* `allBitsMask?_eq_some_iff`: the bits common to all members;
* `anyBitMask?_eq_some_iff`: the members with one bit;
* `span?_eq_some_iff`: the ends and the size;
* `casePair?_eq_some_iff`, `letter?_eq_some_iff`: two letters 32 apart.
-/

namespace Bytewise

/-! ## Cases of letters -/

namespace Byte

/-- Letters are 32 apart when they are the two cases of one, upper case first. No lower-case letter
has a letter 32 above it. -/
theorem letters_apart_iff {lo hi : Byte} :
    isLetter lo = true ∧ isLetter hi = true ∧ hi - lo = 32 ↔
      isUpper lo = true ∧ hi = toLower lo := by
  constructor
  · rintro ⟨hlo, hhi, hdiff⟩
    have hsum : hi = lo + 32 := by
      rw [← hdiff, UInt8.add_comm, UInt8.sub_add_cancel]
    have hup : isUpper lo = true := by
      rw [hsum] at hhi
      rw [isLetter_iff, isUpper_iff, isLower_iff] at hlo hhi
      rw [isUpper_iff]
      simp only [UInt8.le_iff_toNat_le, UInt8.toNat_add, UInt8.reduceToNat] at *
      omega
    exact ⟨hup, hsum.trans (toLower_of_isUpper hup).symm⟩
  · rintro ⟨hup, rfl⟩
    rw [toLower_of_isUpper hup]
    refine ⟨isLetter_iff.mpr (Or.inl hup), ?_, ?_⟩
    · rw [isUpper_iff] at hup
      rw [isLetter_iff, isUpper_iff, isLower_iff]
      simp only [UInt8.le_iff_toNat_le, UInt8.toNat_add, UInt8.reduceToNat] at *
      omega
    · rw [UInt8.add_comm, UInt8.add_sub_cancel]

end Byte

/-! ## Folds of masks -/

namespace Mask

theorem mem_places_foldl_and (bs : List Byte) (a : Byte) (i : Fin 8) :
    i ∈ places (bs.foldl (· &&& ·) a) ↔ i ∈ places a ∧ ∀ b ∈ bs, i ∈ places b := by
  induction bs generalizing a with
  | nil => simp
  | cons b bs ih =>
    rw [List.foldl_cons, ih, places_and, Finset.mem_inter, List.forall_mem_cons, and_assoc]

theorem mem_places_foldl_or (bs : List Byte) (a : Byte) (i : Fin 8) :
    i ∈ places (bs.foldl (· ||| ·) a) ↔ i ∈ places a ∨ ∃ b ∈ bs, i ∈ places b := by
  induction bs generalizing a with
  | nil => simp
  | cons b bs ih =>
    rw [List.foldl_cons, ih, places_or, Finset.mem_union, List.exists_mem_cons_iff, or_assoc]

end Mask

namespace ByteSet

open Mask

/-! ## Masks -/

theorem covering_eq_iff {s : ByteSet} {mask : Byte} :
    covering mask = s ↔ ∀ b, b ∈ s ↔ b &&& mask = mask := by
  constructor
  · rintro rfl b
    exact mem_covering
  · intro h
    exact ext fun b => mem_covering.trans (h b).symm

theorem meeting_eq_iff {s : ByteSet} {mask : Byte} :
    meeting mask = s ↔ ∀ b, b ∈ s ↔ b &&& mask ≠ 0 := by
  constructor
  · rintro rfl b
    exact mem_meeting
  · intro h
    exact ext fun b => mem_meeting.trans (h b).symm

/-- The mask itself covers the mask, and all that cover it have its bits. -/
theorem foldl_and_toList_covering (mask : Byte) :
    (covering mask).toList.foldl (· &&& ·) 255 = mask := by
  apply places_injective
  refine Finset.ext fun i => ?_
  rw [mem_places_foldl_and, places_all]
  simp only [Finset.mem_univ, true_and, mem_toList, mem_covering, ← covers_eq_true_iff, covers_iff]
  constructor
  · intro h
    exact h mask (Finset.Subset.refl _)
  · intro hi b hb
    exact hb hi

/-- A byte with one bit meets the mask exactly when that bit is one of the mask's. -/
theorem foldl_or_singleBits_meeting (mask : Byte) :
    ((meeting mask).toList.filter isSingleBit).foldl (· ||| ·) 0 = mask := by
  apply places_injective
  refine Finset.ext fun i => ?_
  rw [mem_places_foldl_or, places_eq_empty_iff.mpr rfl]
  simp only [Finset.notMem_empty, false_or, List.mem_filter, mem_toList, mem_meeting,
    ← meets_eq_true_iff, meets_iff, isSingleBit_iff]
  constructor
  · rintro ⟨b, ⟨⟨j, hjb, hjm⟩, k, hk⟩, hi⟩
    rw [hk, Finset.mem_singleton] at hjb hi
    rw [hi, ← hjb]
    exact hjm
  · intro hi
    have hib : i ∈ places (bit i) := by rw [places_bit]; exact Finset.mem_singleton_self i
    exact ⟨bit i, ⟨⟨i, hib, hi⟩, i, places_bit i⟩, hib⟩

/-- **The mask covered by exactly the members is found.** -/
theorem allBitsMask?_eq_some_iff {s : ByteSet} {mask : Byte} :
    s.allBitsMask? = some mask ↔ ∀ b, b ∈ s ↔ b &&& mask = mask := by
  rw [← covering_eq_iff]
  constructor
  · intro h
    simp only [allBitsMask?] at h
    split at h
    · cases h
    · split at h
      · rename_i hs
        rw [← Option.some.inj h]
        exact hs
      · cases h
  · rintro rfl
    have hne : ¬ (covering mask).isEmpty = true := by
      rw [isEmpty_iff]
      intro h
      have hm : mask ∈ covering mask := mem_covering.mpr (UInt8.and_self)
      rw [h] at hm
      exact not_mem_empty mask hm
    simp only [allBitsMask?, foldl_and_toList_covering, if_neg hne, if_true]

/-- **The mask met by exactly the members is found.** -/
theorem anyBitMask?_eq_some_iff {s : ByteSet} {mask : Byte} :
    s.anyBitMask? = some mask ↔ mask ≠ 0 ∧ ∀ b, b ∈ s ↔ b &&& mask ≠ 0 := by
  rw [← meeting_eq_iff]
  constructor
  · intro h
    simp only [anyBitMask?] at h
    split at h
    · cases h
    · split at h
      · rename_i hne hs
        rw [← Option.some.inj h]
        exact ⟨hne, hs⟩
      · cases h
  · rintro ⟨hne, rfl⟩
    simp only [anyBitMask?, foldl_or_singleBits_meeting, if_neg hne, if_true]

/-! ## One member, and all but one -/

theorem mem_iff_eq_iff {s : ByteSet} {v : Byte} :
    (∀ b, b ∈ s ↔ b = v) ↔ s.card = 1 ∧ s.min? = some v := by
  have hlist : s.toList = [v] ↔ ∀ b, b ∈ s ↔ b = v := by
    rw [toList_eq_iff (List.pairwise_singleton ..)]
    simp only [List.mem_singleton]
  rw [← hlist, card_eq_length_toList, min?_eq_head?]
  constructor
  · intro h
    rw [h]
    exact ⟨rfl, rfl⟩
  · rintro ⟨hlen, hhead⟩
    obtain ⟨a, ha⟩ := List.length_eq_one_iff.mp hlen
    rw [ha] at hhead ⊢
    rw [Option.some.inj hhead]

theorem mem_complement_iff_eq_iff {s : ByteSet} {v : Byte} :
    (∀ b, b ∈ s.complement ↔ b = v) ↔ s.card = 255 ∧ s.missing.head? = some v := by
  have hsum := s.card_complement
  rw [mem_iff_eq_iff, missing_eq_toList_complement, min?_eq_head?]
  constructor
  · rintro ⟨hcard, hhead⟩
    exact ⟨by omega, hhead⟩
  · rintro ⟨hcard, hhead⟩
    exact ⟨by omega, hhead⟩

theorem complement_eq_empty_iff {s : ByteSet} : s.complement = empty ↔ s.card = 256 := by
  have hsum := s.card_complement
  rw [← card_eq_zero_iff]
  omega

/-! ## Intervals -/

/-- As many members as the interval between the ends has bytes leave no byte of it out. -/
theorem toList_eq_of_ends {s : ByteSet} {i : Span} (hmin : s.min? = some i.first)
    (hmax : s.max? = some i.last) (hcard : s.card = i.size) : s.toList = i.toList := by
  have hbounds : ∀ b ∈ s, i.contains b = true := by
    intro b hb
    have hlo := (min?_eq_some_iff.mp hmin).2 b hb
    have hhi := (max?_eq_some_iff.mp hmax).2 b hb
    exact Span.contains_iff.mpr ⟨hlo, hhi⟩
  have hsub : s.toList = i.toList.filter s.contains := by
    rw [toList_eq_iff (i.pairwise_toList.filter _)]
    intro b
    rw [List.mem_filter, Span.mem_toList]
    exact ⟨fun hb => ⟨hbounds b hb, hb⟩, And.right⟩
  have hlen : (i.toList.filter s.contains).length = i.toList.length := by
    rw [← hsub, ← card_eq_length_toList, hcard, Span.length_toList]
  rw [hsub]
  exact List.filter_eq_self.mpr (List.length_filter_eq_length_iff.mp hlen)

/-- **The interval that the set is, is found.** -/
theorem span?_eq_some_iff {s : ByteSet} {i : Span} :
    s.span? = some i ↔ ∀ b, b ∈ s ↔ i.first ≤ b ∧ b ≤ i.last := by
  constructor
  · intro h b
    simp only [span?] at h
    split at h
    · rename_i lo hi hmin hmax
      split at h
      · rename_i hcard
        obtain ⟨rfl, rfl⟩ := Span.ofEnds?_eq_some_iff.mp h
        rw [← mem_toList, toList_eq_of_ends hmin hmax hcard.symm, Span.mem_toList,
          Span.contains_iff]
      · cases h
    · cases h
  · intro h
    have hmin : s.min? = some i.first :=
      min?_eq_some_iff.mpr ⟨(h _).mpr ⟨UInt8.le_refl _, i.first_le_last⟩,
        fun b hb => ((h b).mp hb).1⟩
    have hmax : s.max? = some i.last :=
      max?_eq_some_iff.mpr ⟨(h _).mpr ⟨i.first_le_last, UInt8.le_refl _⟩,
        fun b hb => ((h b).mp hb).2⟩
    have hlist : s.toList = i.toList := by
      rw [toList_eq_iff i.pairwise_toList]
      intro b
      rw [h, Span.mem_toList, Span.contains_iff]
    have hcard : (i.last - i.first).toNat + 1 = s.card := by
      rw [card_eq_length_toList, hlist, Span.length_toList]
      rfl
    simp only [span?, hmin, hmax]
    rw [if_pos hcard]
    exact Span.ofEnds?_eq_some_iff.mpr ⟨rfl, rfl⟩

/-! ## Letters -/

theorem toList_eq_pair_iff {s : ByteSet} {lo hi : Byte} :
    s.toList = [lo, hi] ↔ s.card = 2 ∧ s.min? = some lo ∧ s.max? = some hi := by
  rw [card_eq_length_toList, min?_eq_head?, max?_eq_getLast?]
  constructor
  · intro h
    rw [h]
    exact ⟨rfl, rfl, rfl⟩
  · rintro ⟨hcard, hmin, hmax⟩
    obtain ⟨a, b, hab⟩ := List.length_eq_two.mp hcard
    have ha : a = lo := by simpa [hab] using hmin
    have hb : b = hi := by simpa [hab] using hmax
    rw [hab, ha, hb]

theorem toList_eq_cases_iff {s : ByteSet} {c : Byte} (hc : Byte.isUpper c = true) :
    s.toList = [c, Byte.toLower c] ↔ ∀ b, b ∈ s ↔ b = c ∨ b = Byte.toLower c := by
  rw [toList_eq_iff (List.pairwise_pair.mpr (Byte.lt_toLower hc))]
  simp only [List.mem_cons, List.not_mem_nil, or_false]

/-- **The upper-case byte is found when the set is that byte and its lower case.** -/
theorem casePair?_eq_some_iff {s : ByteSet} {c : Byte} :
    s.casePair? = some c ↔
      Byte.isUpper c = true ∧ ∀ b, b ∈ s ↔ b = c ∨ b = Byte.toLower c := by
  constructor
  · intro h
    simp only [casePair?] at h
    split at h
    · rename_i hcard
      split at h
      · rename_i lo hi hmin hmax
        split at h
        · rename_i hcond
          simp only [Bool.and_eq_true, beq_iff_eq, and_assoc] at hcond
          obtain ⟨hup, rfl⟩ := Byte.letters_apart_iff.mp hcond
          obtain rfl := Option.some.inj h
          have hlist := toList_eq_pair_iff.mpr ⟨hcard, hmin, hmax⟩
          exact ⟨hup, (toList_eq_cases_iff hup).mp hlist⟩
        · cases h
      · cases h
    · cases h
  · rintro ⟨hup, hs⟩
    obtain ⟨hcard, hmin, hmax⟩ := toList_eq_pair_iff.mp ((toList_eq_cases_iff hup).mpr hs)
    have hcond : (Byte.isLetter c && Byte.isLetter (Byte.toLower c) &&
        Byte.toLower c - c == 32) = true := by
      simp only [Bool.and_eq_true, beq_iff_eq, and_assoc]
      exact Byte.letters_apart_iff.mpr ⟨hup, rfl⟩
    simp only [casePair?, hcard, hmin, hmax, hcond, if_true]

/-- **The letter whose two cases the set is, is found.** -/
theorem letter?_eq_some_iff {s : ByteSet} {l : Letter} :
    s.letter? = some l ↔ ∀ b, b ∈ s ↔ b = l.upper ∨ b = l.lower := by
  rw [letter?, Option.bind_eq_some_iff]
  constructor
  · rintro ⟨c, hpair, hl⟩
    obtain ⟨hup, hs⟩ := casePair?_eq_some_iff.mp hpair
    rw [Letter.ofByte?_of_isUpper hup] at hl
    rw [← Option.some.inj hl]
    exact hs
  · intro h
    exact ⟨l.upper, casePair?_eq_some_iff.mpr ⟨l.isUpper_upper, h⟩,
      Letter.ofByte?_of_isUpper l.isUpper_upper⟩

end ByteSet

end Bytewise

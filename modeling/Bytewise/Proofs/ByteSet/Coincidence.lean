import Bytewise.Proofs.ByteSet.Overlap
import Mathlib.Data.Nat.Log

/-!
# Sets of two shapes

Where two shapes fit one set, or a set and its complement, the order in which shapes are tried
decides what is found. Only few sets are of that sort.

* `eq_of_both_masks`: a mask that is covered and met by the same bytes has one bit;
* `span_of_allBitsMask?`, `span_of_anyBitMask?`: a mask whose bytes are an interval has the highest
  bits;
* `eq_none_of_letter?`: the cases of a letter have no other shape;
* `span?_complement_iff`: an interval and its complement;
* `shapes_overlap`: all of this together, and that no set of a mask is the complement of another.
-/

namespace Bytewise.ByteSet

open Mask

variable {s : ByteSet} {mask mask' : Byte} {i : Span} {l : Letter}

theorem last_mem_of_allBitsMask? (h : s.allBitsMask? = some mask) : (255 : Byte) ∈ s := by
  rw [allBitsMask?_eq_some_iff.mp h, ← covers_eq_true_iff]
  exact covers_all mask

theorem last_mem_of_anyBitMask? (h : s.anyBitMask? = some mask) : (255 : Byte) ∈ s := by
  obtain ⟨hne, hmeets⟩ := anyBitMask?_eq_some_iff.mp h
  rw [hmeets, covers_eq_true_iff.mp (covers_all mask)]
  exact hne

/-- The byte with every bit covers all masks, and meets those that any byte meets. -/
theorem last_mem_of_mask (h : s.allBitsMask? ≠ none ∨ s.anyBitMask? ≠ none) : (255 : Byte) ∈ s := by
  rcases h with h | h
  · obtain ⟨mask, hmask⟩ := Option.ne_none_iff_exists'.mp h
    exact last_mem_of_allBitsMask? hmask
  · obtain ⟨mask, hmask⟩ := Option.ne_none_iff_exists'.mp h
    exact last_mem_of_anyBitMask? hmask

theorem first_mem_of_span? (h : s.span? = some i) : i.first ∈ s :=
  (span?_eq_some_iff.mp h _).mpr ⟨UInt8.le_refl _, i.first_le_last⟩

theorem last_eq_of_span? (hspan : s.span? = some i) (h : (255 : Byte) ∈ s) : i.last = 255 :=
  UInt8.le_antisymm i.last.le_last ((span?_eq_some_iff.mp hspan 255).mp h).2

/-! ## Two masks -/

/-- The bits that meet the one mask have to cover the other. -/
theorem eq_of_both_masks (hall : s.allBitsMask? = some mask) (hany : s.anyBitMask? = some mask') :
    mask = mask' ∧ weight mask = 1 := by
  rw [allBitsMask?_eq_some_iff] at hall
  obtain ⟨_, hany⟩ := anyBitMask?_eq_some_iff.mp hany
  have hboth : ∀ b, covers mask b = true ↔ meets mask' b = true := by
    intro b
    rw [covers_eq_true_iff, meets_eq_true_iff, ← hall, ← hany]
  have hsub : ∀ j ∈ places mask', places mask ⊆ {j} := by
    intro j hj
    have hcovers := (hboth (bit j)).mpr (meets_bit.mpr hj)
    rwa [covers_iff, places_bit] at hcovers
  -- a mask covers itself, so that the two have a bit in common
  obtain ⟨k, hk, hk'⟩ := meets_iff.mp ((hboth mask).mp (covers_self mask))
  have hone : places mask = {k} :=
    Finset.Subset.antisymm (hsub k hk') (Finset.singleton_subset_iff.mpr hk)
  have hone' : places mask' = {k} := by
    refine Finset.eq_singleton_iff_unique_mem.mpr ⟨hk', fun j hj => ?_⟩
    exact (Finset.mem_singleton.mp (hsub j hj hk)).symm
  refine ⟨places_injective (hone.trans hone'.symm), ?_⟩
  rw [← card_places, hone, Finset.card_singleton]

/-! ## Masks and intervals -/

/-- A mask is the least byte that covers it. -/
theorem first_eq_of_allBitsMask? (hall : s.allBitsMask? = some mask) (hspan : s.span? = some i) :
    i.first = mask := by
  rw [allBitsMask?_eq_some_iff] at hall
  have hcovers : i.first &&& mask = mask := (hall i.first).mp (first_mem_of_span? hspan)
  have hmem : mask ∈ s := (hall mask).mpr UInt8.and_self
  refine UInt8.le_antisymm ((span?_eq_some_iff.mp hspan mask).mp hmem).1 ?_
  rw [← hcovers, UInt8.le_iff_toNat_le, UInt8.toNat_and]
  exact Nat.and_le_left

/-- The byte that lacks one bit only does not cover the mask if the bit is the mask's. It is a high
bit then, for the byte lies below all that cover the mask. -/
theorem span_of_allBitsMask? (hall : s.allBitsMask? = some mask) (hspan : s.span? = some i) :
    mask = 0 ∨ ∃ k < 8, ∀ j : Fin 8, j ∈ places mask ↔ k ≤ j.val := by
  have hfirst := first_eq_of_allBitsMask? hall hspan
  have hlast := last_eq_of_span? hspan (last_mem_of_allBitsMask? hall)
  rw [allBitsMask?_eq_some_iff] at hall
  rw [span?_eq_some_iff] at hspan
  have hbit : ∀ j : Fin 8, j ∈ places mask ↔ 256 - mask.toNat ≤ 2 ^ j.val := by
    intro j
    have hpow : 2 ^ j.val ≤ 2 ^ 7 := Nat.pow_le_pow_right (by decide) (Nat.le_of_lt_succ j.isLt)
    rw [← not_iff_not, ← covers_not_bit, covers_eq_true_iff, ← hall, hspan, hfirst, hlast,
      and_iff_left (Byte.le_last _), UInt8.le_iff_toNat_le, toNat_not_bit]
    generalize 2 ^ j.val = p at hpow
    omega
  have hplace : ∀ j : Fin 8, j ∈ places mask ↔ Nat.clog 2 (256 - mask.toNat) ≤ j.val := fun j =>
    (hbit j).trans (Nat.clog_le_iff_le_pow (by decide)).symm
  by_cases hk : Nat.clog 2 (256 - mask.toNat) < 8
  · exact Or.inr ⟨_, hk, hplace⟩
  · refine Or.inl (places_eq_empty_iff.mp (Finset.eq_empty_of_forall_notMem fun j hj => ?_))
    have hle := (hplace j).mp hj
    omega

/-- The least byte that meets the mask has a bit of it, and nothing besides, for this bit alone
meets the mask as well. -/
theorem span_of_anyBitMask? (hany : s.anyBitMask? = some mask) (hspan : s.span? = some i) :
    (∃ k, i.first.toNat = 2 ^ k) ∧ ∀ j : Fin 8, j ∈ places mask ↔ i.first.toNat ≤ 2 ^ j.val := by
  have hlast := last_eq_of_span? hspan (last_mem_of_anyBitMask? hany)
  have hmem := first_mem_of_span? hspan
  obtain ⟨_, hany⟩ := anyBitMask?_eq_some_iff.mp hany
  rw [span?_eq_some_iff] at hspan
  have hbit : ∀ j : Fin 8, j ∈ places mask ↔ i.first.toNat ≤ 2 ^ j.val := by
    intro j
    rw [← meets_bit, meets_eq_true_iff, ← hany, hspan, hlast, and_iff_left (Byte.le_last _),
      UInt8.le_iff_toNat_le, toNat_bit]
  rw [hany, ← meets_eq_true_iff, meets_iff] at hmem
  obtain ⟨k, hk, hkmask⟩ := hmem
  exact ⟨⟨k, Nat.le_antisymm ((hbit k).mp hkmask) (two_pow_le_of_mem_places hk)⟩, hbit⟩

/-! ## Letters -/

/-- The cases of a letter lie below the byte with every bit, and are not neighbours. -/
theorem eq_none_of_letter? (hletter : s.letter? = some l) :
    s.allBitsMask? = none ∧ s.anyBitMask? = none ∧ s.span? = none := by
  rw [letter?_eq_some_iff] at hletter
  have hupper := Byte.isUpper_iff.mp l.isUpper_upper
  have hlower : l.lower = l.upper + 32 := Byte.toLower_of_isUpper l.isUpper_upper
  have hlast : (255 : Byte) ∉ s := by
    rw [hletter, hlower]
    grind
  refine ⟨?_, ?_, ?_⟩
  · by_contra hall
    exact hlast (last_mem_of_mask (Or.inl hall))
  · by_contra hany
    exact hlast (last_mem_of_mask (Or.inr hany))
  · by_contra hspan
    obtain ⟨i, hi⟩ := span?_ne_none_iff.mp hspan
    have hfrom := (hi l.upper).mp ((hletter _).mpr (Or.inl rfl))
    have hto := (hi l.lower).mp ((hletter _).mpr (Or.inr rfl))
    have hnext : l.upper + 1 ∈ s := (hi _).mpr (by grind)
    rw [hletter] at hnext
    grind

/-! ## Complements -/

/-- A set and its complement are both intervals when one ends where the other begins. -/
theorem span?_complement_iff :
    s.span? ≠ none ∧ s.complement.span? ≠ none ↔
      s ≠ .empty ∧ s ≠ .full ∧ ((∃ k, ∀ b, b ∈ s ↔ b ≤ k) ∨ ∃ k, ∀ b, b ∈ s ↔ k ≤ b) := by
  constructor
  · rintro ⟨hspan, hspan'⟩
    obtain ⟨i, hi⟩ := Option.ne_none_iff_exists'.mp hspan
    obtain ⟨j, hj⟩ := Option.ne_none_iff_exists'.mp hspan'
    have hfirst := first_mem_of_span? hi
    have hfirst' := mem_complement.mp (first_mem_of_span? hj)
    rw [span?_eq_some_iff] at hi hj
    refine ⟨fun he => not_mem_empty _ (he ▸ hfirst), fun he => hfirst' (he ▸ mem_full _), ?_⟩
    by_cases h0 : (0 : Byte) ∈ s
    · have hzero : i.first = 0 := UInt8.le_antisymm ((hi 0).mp h0).1 UInt8.zero_le
      exact Or.inl ⟨i.last, fun b => by rw [hi, hzero, and_iff_right UInt8.zero_le]⟩
    · by_cases h255 : (255 : Byte) ∈ s
      · have hlast : i.last = 255 := UInt8.le_antisymm i.last.le_last ((hi 255).mp h255).2
        exact Or.inr ⟨i.first, fun b => by rw [hi, hlast, and_iff_left b.le_last]⟩
      · -- the complement has both ends, hence every byte
        have hfrom := ((hj 0).mp (mem_complement.mpr h0)).1
        have hto := ((hj 255).mp (mem_complement.mpr h255)).2
        have hall : i.first ∈ s.complement :=
          (hj _).mpr ⟨UInt8.le_trans hfrom UInt8.zero_le, UInt8.le_trans i.first.le_last hto⟩
        exact absurd hfirst (mem_complement.mp hall)
  · rintro ⟨_, hfull, ⟨k, hk⟩ | ⟨k, hk⟩⟩
    · have hne : k ≠ 255 := fun he =>
        hfull (ext fun b => iff_of_true ((hk b).mpr (he ▸ b.le_last)) (mem_full b))
      constructor
      · exact span?_ne_none_iff.mpr ⟨⟨0, k, UInt8.zero_le⟩, fun b => by
          rw [hk, and_iff_right UInt8.zero_le]⟩
      · exact span?_ne_none_of_above hne fun b => by rw [mem_complement, hk, UInt8.not_le]
    · have hne : k ≠ 0 := fun he =>
        hfull (ext fun b => iff_of_true ((hk b).mpr (he ▸ UInt8.zero_le)) (mem_full b))
      constructor
      · exact span?_ne_none_iff.mpr ⟨⟨k, 255, k.le_last⟩, fun b => by
          rw [hk, and_iff_left b.le_last]⟩
      · exact span?_ne_none_of_below hne fun b => by rw [mem_complement, hk, UInt8.not_le]

/-! ## All overlaps -/

/-- **Which sets have two shapes.** Masks of both kinds are the same single bit. A mask that is
covered by an interval is its first byte, one that is met by an interval has just the bits that do
not lie below the first byte, a power of two; either way the interval ends with the last byte and
the mask is made of the highest bits. The cases of a letter have no other shape. No two sets of
masks, of whichever kinds, are complements of each other, and two intervals are complements only if
each has one of the ends. -/
theorem shapes_overlap (s : ByteSet) :
    (∀ mask mask', s.allBitsMask? = some mask → s.anyBitMask? = some mask' →
      mask = mask' ∧ weight mask = 1) ∧
    (∀ mask i, s.allBitsMask? = some mask → s.span? = some i →
      i.last = 255 ∧ i.first = mask ∧
        (mask = 0 ∨ ∃ k < 8, ∀ j : Fin 8, j ∈ places mask ↔ k ≤ j.val)) ∧
    (∀ mask i, s.anyBitMask? = some mask → s.span? = some i →
      i.last = 255 ∧ (∃ k, i.first.toNat = 2 ^ k) ∧
        ∀ j : Fin 8, j ∈ places mask ↔ i.first.toNat ≤ 2 ^ j.val) ∧
    (∀ l, s.letter? = some l → s.allBitsMask? = none ∧ s.anyBitMask? = none ∧ s.span? = none) ∧
    ¬ ((s.allBitsMask? ≠ none ∨ s.anyBitMask? ≠ none) ∧
      (s.complement.allBitsMask? ≠ none ∨ s.complement.anyBitMask? ≠ none)) ∧
    (s.span? ≠ none ∧ s.complement.span? ≠ none ↔
      s ≠ .empty ∧ s ≠ .full ∧ ((∃ k, ∀ b, b ∈ s ↔ b ≤ k) ∨ ∃ k, ∀ b, b ∈ s ↔ k ≤ b)) := by
  refine ⟨fun mask mask' => eq_of_both_masks, ?_, ?_, fun l => eq_none_of_letter?, ?_,
    span?_complement_iff⟩
  · intro mask i hall hspan
    exact ⟨last_eq_of_span? hspan (last_mem_of_allBitsMask? hall),
      first_eq_of_allBitsMask? hall hspan, span_of_allBitsMask? hall hspan⟩
  · intro mask i hany hspan
    exact ⟨last_eq_of_span? hspan (last_mem_of_anyBitMask? hany), span_of_anyBitMask? hany hspan⟩
  · rintro ⟨hs, hs'⟩
    exact mem_complement.mp (last_mem_of_mask hs') (last_mem_of_mask hs)

theorem shapes_overlap_high_half_and_letter :
    (ofList (Byte.between 128 255)).allBitsMask? = some 128 ∧
    (ofList (Byte.between 128 255)).anyBitMask? = some 128 ∧ weight 128 = 1 ∧
    (ofList (Byte.between 128 255)).span? = some ⟨128, 255, by decide⟩ ∧
    (∃ k < 8, ∀ j : Fin 8, j ∈ places 128 ↔ k ≤ j.val) ∧
    (∀ j : Fin 8, j ∈ places 128 ↔ (128 : Byte).toNat ≤ 2 ^ j.val) ∧
    (ofList (Byte.between 128 255)).complement.span? ≠ none ∧
    (ofList [65, 97]).letter? = some ⟨65, by decide⟩ ∧ (ofList [65, 97]).span? = none := by
  have hall : (ofList (Byte.between 128 255)).allBitsMask? = some 128 := by decide +kernel
  have hany : (ofList (Byte.between 128 255)).anyBitMask? = some 128 := by decide +kernel
  have hspan : (ofList (Byte.between 128 255)).span? = some ⟨128, 255, by decide⟩ := by
    decide +kernel
  have hempty : ofList (Byte.between 128 255) ≠ .empty := by decide +kernel
  have hfull : ofList (Byte.between 128 255) ≠ .full := by decide +kernel
  have hfrom : ∀ b, b ∈ ofList (Byte.between 128 255) ↔ 128 ≤ b := fun b => by
    rw [mem_ofList, Byte.mem_between, and_iff_left b.le_last]
  have hletter : (ofList [65, 97]).letter? = some ⟨65, by decide⟩ := by decide +kernel
  obtain ⟨hmasks, hcovers, hmeets, _, _, hspans⟩ := shapes_overlap (ofList (Byte.between 128 255))
  obtain ⟨_, _, _, hothers, _, _⟩ := shapes_overlap (ofList [65, 97])
  refine ⟨hall, hany, (hmasks _ _ hall hany).2, hspan, ?_, (hmeets _ _ hany hspan).2.2,
    (hspans.mpr ⟨hempty, hfull, Or.inr ⟨128, hfrom⟩⟩).2, hletter, (hothers _ hletter).2.2⟩
  exact (hcovers _ _ hall hspan).2.2.resolve_left (by decide)

end Bytewise.ByteSet

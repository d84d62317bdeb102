import Bytewise.Proofs.ByteSet.Recognition

/-!
# One candidate for each shape

A set is tried for a shape with the one candidate that its members make. If the candidate fails, so
would every other parameter: a trial of all of them comes to nothing else.

* `Answers`: an answer that settles for all parameters whether they have a property, and what
  follows from that alone;
* `ByteSet.allBitsMask?_needs_one_candidate`, `ByteSet.anyBitMask?_needs_one_candidate`: masks, with
  the bits common to all members and the bits that are members themselves as candidates;
* `ByteSet.span?_eq_none_iff_card`, `ByteSet.span?_eq_none_iff_gap`: what the number of the members
  tells about those between the ends;
* `ByteSet.span?_leaves_no_gap`: intervals.
-/

namespace Bytewise

/-! ## Answers -/

/-- The answer is a parameter with the property, and there is an answer if there is a parameter. No
two parameters can have the property then. -/
def Answers {α : Type} (answer : Option α) (p : α → Prop) : Prop := ∀ a, answer = some a ↔ p a

namespace Answers

variable {α : Type} {answer : Option α} {p : α → Prop}

theorem eq_none_iff (h : Answers answer p) : answer = none ↔ ¬ ∃ a, p a := by
  rw [Option.eq_none_iff_forall_ne_some, not_exists]
  exact forall_congr' fun a => not_congr (h a)

theorem unique (h : Answers answer p) {a b : α} (ha : p a) (hb : p b) : a = b :=
  Option.some.inj (((h a).mpr ha).symm.trans ((h b).mpr hb))

/-- Where only one parameter can have the property, it alone is tried. -/
theorem eq_ite [DecidablePred p] (h : Answers answer p) {c : α} (hc : ∀ a, p a → a = c) :
    answer = if p c then some c else none := by
  split
  · rename_i hpc
    exact (h c).mpr hpc
  · rename_i hpc
    rw [h.eq_none_iff]
    rintro ⟨a, ha⟩
    exact hpc (hc a ha ▸ ha)

/-- A search through all parameters comes to the same answer. -/
theorem eq_find? [DecidablePred p] (h : Answers answer p) {as : List α} (hall : ∀ a, a ∈ as) :
    answer = as.find? (p ·) := by
  cases hfind : as.find? (p ·) with
  | none =>
    rw [h.eq_none_iff]
    rintro ⟨a, ha⟩
    exact List.find?_eq_none.mp hfind a (hall a) (decide_eq_true ha)
  | some a =>
    rw [h a]
    simpa using List.find?_some hfind

end Answers

/-! ## Single bits -/

/-- The bytes with one bit are the powers of two. -/
theorem Mask.isSingleBit_iff_exists_pow {b : Byte} :
    isSingleBit b = true ↔ ∃ k, b.toNat = 2 ^ k := by
  have hall : ∀ b : Byte, isSingleBit b = true ↔ ∃ k < 8, b.toNat = 2 ^ k :=
    Byte.forall_of_lt (by decide +kernel)
  rw [hall]
  constructor
  · rintro ⟨k, _, hk⟩
    exact ⟨k, hk⟩
  · rintro ⟨k, hk⟩
    have hlt : 2 ^ k < 2 ^ 8 := hk ▸ b.toNat_lt
    exact ⟨k, (Nat.pow_lt_pow_iff_right (by decide)).mp hlt, hk⟩

namespace ByteSet

variable {s : ByteSet} {mask lo hi : Byte}

/-! ## Masks that are covered -/

/-- The members are the bytes with every bit of the mask. -/
def IsCovering (s : ByteSet) (mask : Byte) : Prop := ∀ b, b ∈ s ↔ b &&& mask = mask

instance (s : ByteSet) : DecidablePred s.IsCovering :=
  fun _ => decidable_of_iff _ covering_eq_iff

/-- The bits that all members have. -/
def commonBits (s : ByteSet) : Byte := s.toList.foldl (· &&& ·) 255

/-- Every member has the mask's bits, and the mask is a member. -/
theorem IsCovering.eq_commonBits (h : s.IsCovering mask) : mask = s.commonBits := by
  rw [← covering_eq_iff.mpr h]
  exact (foldl_and_toList_covering mask).symm

theorem answers_allBitsMask? (s : ByteSet) : Answers s.allBitsMask? s.IsCovering :=
  fun _ => allBitsMask?_eq_some_iff

/-- **All bits of a mask: one candidate.** A mask is found exactly when the members are the bytes
that cover it, and none is found exactly when there is no such mask, as for the empty set. There is
at most one such mask, and it is made of the bits common to all members: to try this one comes to
the same as to search through all masks. -/
theorem allBitsMask?_needs_one_candidate (s : ByteSet) :
    (∀ mask, s.allBitsMask? = some mask ↔ ∀ b, b ∈ s ↔ b &&& mask = mask) ∧
    (s.allBitsMask? = none ↔ ¬ ∃ mask, ∀ b, b ∈ s ↔ b &&& mask = mask) ∧
    empty.allBitsMask? = none ∧
    (∀ mask mask', s.IsCovering mask → s.IsCovering mask' → mask = mask') ∧
    (∀ mask, s.IsCovering mask → mask = s.commonBits) ∧
    s.allBitsMask? = (if s.IsCovering s.commonBits then some s.commonBits else none) ∧
    s.allBitsMask? = Byte.all.find? (s.IsCovering ·) := by
  have hs := s.answers_allBitsMask?
  refine ⟨hs, hs.eq_none_iff, ?_, fun mask mask' => hs.unique, fun mask => IsCovering.eq_commonBits,
    hs.eq_ite fun mask => IsCovering.eq_commonBits, hs.eq_find? Byte.mem_all⟩
  -- a mask covers itself
  rw [empty.answers_allBitsMask?.eq_none_iff]
  rintro ⟨mask, hmask⟩
  exact not_mem_empty mask ((hmask mask).mpr UInt8.and_self)

theorem allBitsMask?_needs_one_candidate_odd :
    (ofPred (· % 2 == 1)).IsCovering 1 ∧ (ofPred (· % 2 == 1)).commonBits = 1 ∧
      (ofPred (· % 2 == 1)).allBitsMask? = some 1 := by
  have hodd : (ofPred (· % 2 == 1)).IsCovering 1 := by decide +kernel
  have hcommon : (ofPred (· % 2 == 1)).IsCovering (ofPred (· % 2 == 1)).commonBits := by
    decide +kernel
  obtain ⟨hfound, _, _, hunique, _⟩ := allBitsMask?_needs_one_candidate (ofPred (· % 2 == 1))
  exact ⟨hodd, hunique _ _ hcommon hodd, (hfound 1).mpr hodd⟩

/-! ## Masks that are met -/

/-- The members are the bytes with some bit of the mask. -/
def IsMeeting (s : ByteSet) (mask : Byte) : Prop := ∀ b, b ∈ s ↔ b &&& mask ≠ 0

instance (s : ByteSet) : DecidablePred s.IsMeeting :=
  fun _ => decidable_of_iff _ meeting_eq_iff

/-- The bits that are members by themselves. -/
def singleBits (s : ByteSet) : Byte := (s.toList.filter Mask.isSingleBit).foldl (· ||| ·) 0

/-- Of the single bits, just those of the mask are members. -/
theorem IsMeeting.eq_singleBits (h : s.IsMeeting mask) : mask = s.singleBits := by
  rw [← meeting_eq_iff.mpr h]
  exact (foldl_or_singleBits_meeting mask).symm

theorem answers_anyBitMask? (s : ByteSet) :
    Answers s.anyBitMask? fun mask => mask ≠ 0 ∧ s.IsMeeting mask :=
  fun _ => anyBitMask?_eq_some_iff

/-- The byte with every bit meets all masks that any byte meets. -/
theorem IsMeeting.foldl_or_toList (hmask : mask ≠ 0) (h : s.IsMeeting mask) :
    s.toList.foldl (· ||| ·) 0 = 255 := by
  have hmem : (255 : Byte) ∈ s.toList := by
    rw [mem_toList, h]
    rwa [show (255 : Byte) &&& mask = mask from UInt8.neg_one_and]
  apply Mask.places_injective
  apply Finset.ext
  intro i
  rw [Mask.mem_places_foldl_or, Mask.places_all]
  have hi : i ∈ Mask.places 255 := Mask.places_all ▸ Finset.mem_univ i
  exact iff_of_true (Or.inr ⟨255, hmem, hi⟩) (Finset.mem_univ i)

/-- **Some bit of a mask: one candidate.** A mask is found exactly when it is not zero and the
members are the bytes that meet it, and none is found exactly when there is no such mask. There is
at most one mask that just the members meet, and it is made of the powers of two among them: to try
this one comes to the same as to search through all masks. The bits of all members would be no
candidate, for together they are all bits. -/
theorem anyBitMask?_needs_one_candidate (s : ByteSet) :
    (∀ mask, s.anyBitMask? = some mask ↔ mask ≠ 0 ∧ ∀ b, b ∈ s ↔ b &&& mask ≠ 0) ∧
    (s.anyBitMask? = none ↔ ¬ ∃ mask, mask ≠ 0 ∧ ∀ b, b ∈ s ↔ b &&& mask ≠ 0) ∧
    (∀ mask mask', s.IsMeeting mask → s.IsMeeting mask' → mask = mask') ∧
    (∀ mask, s.IsMeeting mask → mask = s.singleBits) ∧
    (∀ b, Mask.isSingleBit b = true ↔ ∃ k, b.toNat = 2 ^ k) ∧
    s.anyBitMask? =
      (if s.singleBits ≠ 0 ∧ s.IsMeeting s.singleBits then some s.singleBits else none) ∧
    s.anyBitMask? = Byte.all.find? (fun mask => mask ≠ 0 ∧ s.IsMeeting mask) ∧
    (∀ mask, mask ≠ 0 → s.IsMeeting mask → s.toList.foldl (· ||| ·) 0 = 255) := by
  have hs := s.answers_anyBitMask?
  refine ⟨hs, hs.eq_none_iff, fun mask mask' h h' => ?_, fun mask => IsMeeting.eq_singleBits,
    fun b => Mask.isSingleBit_iff_exists_pow, hs.eq_ite fun mask h => h.2.eq_singleBits,
    hs.eq_find? Byte.mem_all, fun mask => IsMeeting.foldl_or_toList⟩
  rw [h.eq_singleBits, h'.eq_singleBits]

theorem anyBitMask?_needs_one_candidate_not_fourfold :
    (ofPred (· % 4 != 0)).IsMeeting 3 ∧ (ofPred (· % 4 != 0)).singleBits = 3 ∧
      (ofPred (· % 4 != 0)).toList.foldl (· ||| ·) 0 = 255 := by
  have hthree : (ofPred (· % 4 != 0)).IsMeeting 3 := by decide +kernel
  have hsingle : (ofPred (· % 4 != 0)).IsMeeting (ofPred (· % 4 != 0)).singleBits := by
    decide +kernel
  obtain ⟨_, _, hunique, _, _, _, _, hall⟩ := anyBitMask?_needs_one_candidate (ofPred (· % 4 != 0))
  exact ⟨hthree, hunique _ _ hsingle hthree, hall 3 (by decide) hthree⟩

/-! ## Intervals -/

theorem min?_le_max? (hmin : s.min? = some lo) (hmax : s.max? = some hi) : lo ≤ hi :=
  (min?_eq_some_iff.mp hmin).2 hi (max?_eq_some_iff.mp hmax).1

theorem one_le_card_of_min? (hmin : s.min? = some lo) : 1 ≤ s.card := by
  refine Nat.one_le_iff_ne_zero.mpr fun h0 => ?_
  rw [min?_eq_none_iff.mpr (card_eq_zero_iff.mp h0)] at hmin
  cases hmin

/-- An interval is found when the ends are as far apart as there are members after the first. -/
theorem span?_eq_none_iff_card (hmin : s.min? = some lo) (hmax : s.max? = some hi) :
    s.span? = none ↔ (hi - lo).toNat ≠ s.card - 1 := by
  have hcard := one_le_card_of_min? hmin
  have hends : Span.ofEnds? lo hi = some ⟨lo, hi, min?_le_max? hmin hmax⟩ :=
    Span.ofEnds?_eq_some_iff.mpr ⟨rfl, rfl⟩
  simp only [span?, hmin, hmax, hends]
  rw [ite_eq_right_iff]
  simp only [reduceCtorEq, imp_false]
  omega

/-- What keeps a set from being an interval is a gap between its ends. -/
theorem span?_eq_none_iff_gap (hmin : s.min? = some lo) (hmax : s.max? = some hi) :
    s.span? = none ↔ ∃ gap, lo < gap ∧ gap < hi ∧ gap ∉ s := by
  obtain ⟨hlo, hleast⟩ := min?_eq_some_iff.mp hmin
  obtain ⟨hhi, hmost⟩ := max?_eq_some_iff.mp hmax
  constructor
  · intro hnone
    by_contra hgap
    have hspan : s.span? = some ⟨lo, hi, min?_le_max? hmin hmax⟩ := by
      rw [span?_eq_some_iff]
      intro b
      constructor
      · intro hb
        exact ⟨hleast b hb, hmost b hb⟩
      · rintro ⟨hlob, hbhi⟩
        by_contra hb
        have hne : lo ≠ b := fun he => hb (he ▸ hlo)
        have hne' : b ≠ hi := fun he => hb (he ▸ hhi)
        exact hgap ⟨b, UInt8.lt_of_le_of_ne hlob hne, UInt8.lt_of_le_of_ne hbhi hne', hb⟩
    rw [hnone] at hspan
    cases hspan
  · rintro ⟨gap, hlogap, hgaphi, hgap⟩
    rw [Option.eq_none_iff_forall_ne_some]
    intro i hspan
    rw [span?_eq_some_iff] at hspan
    have hbelow := ((hspan lo).mp hlo).1
    have habove := ((hspan hi).mp hhi).2
    refine hgap ((hspan gap).mpr ⟨?_, ?_⟩)
    · exact UInt8.le_trans hbelow (UInt8.le_of_lt hlogap)
    · exact UInt8.le_trans (UInt8.le_of_lt hgaphi) habove

theorem answers_span? (s : ByteSet) :
    Answers (s.span?.map fun i => (i.first, i.last)) fun ends =>
      ends.1 ≤ ends.2 ∧ ∀ b, b ∈ s ↔ ends.1 ≤ b ∧ b ≤ ends.2 := by
  rintro ⟨lo, hi⟩
  rw [Option.map_eq_some_iff]
  constructor
  · rintro ⟨i, hspan, hends⟩
    cases hends
    exact ⟨i.first_le_last, span?_eq_some_iff.mp hspan⟩
  · rintro ⟨hle, h⟩
    exact ⟨⟨lo, hi, hle⟩, span?_eq_some_iff.mpr h, rfl⟩

/-- **An interval has no gap.** Two ends are found exactly when they are in order and the members
are the bytes from one to the other, and none are found exactly when there are no such ends. The
empty set has none. Any other set has a first member, a last that does not lie below it, and a size
of one at least, so that neither of the differences that are compared falls below zero. They are
equal unless a byte between the ends is missing, and then no ends are found. -/
theorem span?_leaves_no_gap (s : ByteSet) :
    (∀ lo hi, s.span?.map (fun i => (i.first, i.last)) = some (lo, hi) ↔
      lo ≤ hi ∧ ∀ b, b ∈ s ↔ lo ≤ b ∧ b ≤ hi) ∧
    (s.span? = none ↔ ¬ ∃ lo hi, lo ≤ hi ∧ ∀ b, b ∈ s ↔ lo ≤ b ∧ b ≤ hi) ∧
    empty.span? = none ∧
    (s ≠ .empty → ∃ lo hi, s.min? = some lo ∧ s.max? = some hi ∧
      lo ≤ hi ∧ (hi - lo).toNat = hi.toNat - lo.toNat ∧ 1 ≤ s.card ∧
      (s.span? = none ↔ (hi - lo).toNat ≠ s.card - 1) ∧
      (s.span? = none ↔ ∃ gap, lo < gap ∧ gap < hi ∧ gap ∉ s)) := by
  have hs := s.answers_span?
  refine ⟨fun lo hi => hs (lo, hi), ?_, ?_, ?_⟩
  · have hnone := hs.eq_none_iff
    rw [Option.map_eq_none_iff] at hnone
    rw [hnone, Prod.exists]
  · rw [span?, min?_eq_none_iff.mpr rfl]
  · intro hne
    obtain ⟨lo, hmin⟩ := Option.ne_none_iff_exists'.mp (mt min?_eq_none_iff.mp hne)
    obtain ⟨hi, hmax⟩ := Option.ne_none_iff_exists'.mp (mt max?_eq_none_iff.mp hne)
    have hle := min?_le_max? hmin hmax
    exact ⟨lo, hi, hmin, hmax, hle, UInt8.toNat_sub_of_le _ _ hle, one_le_card_of_min? hmin,
      span?_eq_none_iff_card hmin hmax, span?_eq_none_iff_gap hmin hmax⟩

theorem span?_leaves_no_gap_odd_pair :
    ofList [1, 3] ≠ .empty ∧ (ofList [1, 3]).min? = some 1 ∧ (ofList [1, 3]).max? = some 3 ∧
      1 ≤ (ofList [1, 3]).card ∧ (ofList [1, 3]).span? = none := by
  have hne : ofList [1, 3] ≠ .empty := by decide +kernel
  have hfirst : (ofList [1, 3]).min? = some 1 := by decide +kernel
  have hlast : (ofList [1, 3]).max? = some 3 := by decide +kernel
  obtain ⟨_, _, _, hends⟩ := span?_leaves_no_gap (ofList [1, 3])
  obtain ⟨lo, hi, hmin, hmax, _, _, hcard, _, hgap⟩ := hends hne
  obtain rfl : 1 = lo := Option.some.inj (hfirst.symm.trans hmin)
  obtain rfl : 3 = hi := Option.some.inj (hlast.symm.trans hmax)
  exact ⟨hne, hfirst, hlast, hcard, hgap.mpr ⟨2, by decide, by decide, by decide +kernel⟩⟩

end ByteSet

end Bytewise

import Bytewise.Proofs.Matcher.Reading

/-!
# Parameters and accepted bytes

Within one kind, and one sense where the kind has two, the accepted bytes determine the parameters:
each parameter is read off bytes that it accepts, or off those that it refuses. Masks show their
sense as well, since the byte with every bit covers every mask and the zero byte meets none.

* `Mask.covers_injective`, `Mask.meets_injective`, `Span.contains_injective`,
  `Letter.folds_injective`, `Listing.contains_injective`: one parameter each;
* `Rule.eq_of_accepts_eq`: a rule of a given kind;
* `Matcher.eq_iff_accepts_eq`: a matcher of a given kind and sense.
-/

namespace Bytewise

/-! ## One parameter -/

namespace Mask

/-- A mask is covered by itself, and by nothing with fewer bits. -/
theorem covers_injective : Function.Injective covers := by
  intro mask mask' h
  have hself : covers mask' mask = true := by rw [← h, covers_self]
  have hself' : covers mask mask' = true := by rw [h, covers_self]
  rw [covers_iff] at hself hself'
  exact places_injective (hself'.antisymm hself)

/-- The single bits that meet a mask are the bits of the mask. -/
theorem meets_injective : Function.Injective meets := by
  intro mask mask' h
  apply places_injective
  apply Finset.ext
  intro i
  rw [← meets_bit, ← meets_bit, h]

theorem zero_not_meets (mask : Byte) : meets mask 0 = false := by simp [meets]

end Mask

namespace Span

theorem contains_first (s : Span) : s.contains s.first = true :=
  contains_iff.mpr ⟨UInt8.le_refl _, s.first_le_last⟩

theorem contains_last (s : Span) : s.contains s.last = true :=
  contains_iff.mpr ⟨s.first_le_last, UInt8.le_refl _⟩

/-- The ends of an interval lie in every interval with the same bytes. -/
theorem contains_injective : Function.Injective contains := by
  intro s s' h
  have hfirst : s'.contains s.first = true := by rw [← h, contains_first]
  have hlast : s'.contains s.last = true := by rw [← h, contains_last]
  have hfirst' : s.contains s'.first = true := by rw [h, contains_first]
  have hlast' : s.contains s'.last = true := by rw [h, contains_last]
  rw [contains_iff] at hfirst hlast hfirst' hlast'
  exact Span.ext (UInt8.le_antisymm hfirst'.1 hfirst.1) (UInt8.le_antisymm hlast.2 hlast'.2)

end Span

/-- Either case of a letter folds to its upper case. -/
theorem Letter.folds_injective : Function.Injective folds := by
  intro l l' h
  have hself : l.folds l.upper = true := folds_iff.mpr (Or.inl rfl)
  have hself' : l'.folds l.upper = true := by rw [← h, hself]
  rw [folds, beq_iff_eq] at hself hself'
  exact Letter.ext (hself.symm.trans hself')

theorem Listing.contains_injective : Function.Injective contains := by
  intro l l' h
  rw [← toList_inj, toList_eq_filter, toList_eq_filter, h]

/-! ## Rules -/

namespace Rule

theorem eq_of_accepts_eq {r r' : Rule} (hkind : r.kind = r'.kind) (h : r.accepts = r'.accepts) :
    r = r' := by
  cases sameKind_of_kind_eq hkind with
  | allBits mask mask' => exact congrArg allBits (Mask.covers_injective h)
  | anyBit mask mask' => exact congrArg anyBit (Mask.meets_injective h)
  | span s s' => exact congrArg span (Span.contains_injective h)
  | listed l l' => exact congrArg listed (Listing.contains_injective h)
  | table s s' => exact congrArg table (ByteSet.eq_iff_contains_eq.mpr (congrFun h))

end Rule

/-! ## Matchers -/

namespace Matcher

variable {m₁ m₂ : Matcher}

/-- Whether a rule is turned round. The other encodings have one sense only. -/
def inverted? : Matcher → Option Bool
  | rule _ inverted => some inverted
  | _ => none

theorem eq_of_accepts_eq (hkind : m₁.kind = m₂.kind) (hsense : m₁.inverted? = m₂.inverted?)
    (h : ∀ b, m₁.accepts b = m₂.accepts b) : m₁ = m₂ := by
  cases sameKind_of_kind_eq hkind with
  | one v v' =>
    have hv := h v
    simp only [accepts, BEq.rfl] at hv
    rw [beq_iff_eq.mp hv.symm]
  | allBut v v' =>
    have hv := h v
    simp only [accepts, bne_self_eq_false] at hv
    rw [bne_eq_false_iff_eq.mp hv.symm]
  | any => rfl
  | letter l l' => exact congrArg letter (Letter.folds_injective (funext h))
  | @rule r r' hrule i i' =>
    obtain rfl : i = i' := Option.some.inj hsense
    have haccepts : ∀ b, r.accepts b = r'.accepts b := fun b => Bool.bne_left_inj.mp (h b)
    rw [Rule.eq_of_accepts_eq hrule (funext haccepts)]

/-- A byte on which two rules agree tells apart the senses in which they are asked. -/
theorem accepts_rule_eq_iff {r r' : Rule} {i i' : Bool} {b : Byte}
    (hb : r.accepts b = r'.accepts b) : (rule r i).accepts b = (rule r' i').accepts b ↔ i = i' := by
  rw [accepts, accepts, hb, Bool.bne_right_inj]

/-- So between rules of one kind that agree somewhere the sense need not be known. -/
theorem rule_eq_iff {r r' : Rule} {i i' : Bool} {b : Byte} (hkind : r.kind = r'.kind)
    (hb : r.accepts b = r'.accepts b) :
    rule r i = rule r' i' ↔ ∀ c, (rule r i).accepts c = (rule r' i').accepts c := by
  constructor
  · intro he c
    rw [he]
  · intro h
    have hsense := (accepts_rule_eq_iff hb).mp (h b)
    exact eq_of_accepts_eq hkind (congrArg some hsense) h

theorem allBits_agree (mask mask' : Byte) :
    (Rule.allBits mask).accepts 255 = (Rule.allBits mask').accepts 255 :=
  (Mask.covers_all mask).trans (Mask.covers_all mask').symm

theorem anyBit_agree (mask mask' : Byte) :
    (Rule.anyBit mask).accepts 0 = (Rule.anyBit mask').accepts 0 :=
  (Mask.zero_not_meets mask).trans (Mask.zero_not_meets mask').symm

/-- **Within one kind the accepted bytes determine the matcher.** Two matchers of one kind and one
sense are equal if they accept the same bytes. For masks of one kind the sense need not be known:
in different senses they never accept the same bytes. -/
theorem eq_iff_accepts_eq :
    (∀ m₁ m₂ : Matcher, m₁.kind = m₂.kind → m₁.inverted? = m₂.inverted? →
      (m₁ = m₂ ↔ ∀ b, m₁.accepts b = m₂.accepts b)) ∧
    (∀ (mask mask' : Byte) (i i' : Bool),
      (rule (.allBits mask) i = rule (.allBits mask') i' ↔
        ∀ b, (rule (.allBits mask) i).accepts b = (rule (.allBits mask') i').accepts b) ∧
      (rule (.anyBit mask) i = rule (.anyBit mask') i' ↔
        ∀ b, (rule (.anyBit mask) i).accepts b = (rule (.anyBit mask') i').accepts b)) ∧
    (∀ mask mask' : Byte,
      (∃ b, (rule (.allBits mask) true).accepts b ≠ (rule (.allBits mask') false).accepts b) ∧
      (∃ b, (rule (.anyBit mask) true).accepts b ≠ (rule (.anyBit mask') false).accepts b)) := by
  refine ⟨fun m₁ m₂ hkind hsense => ?_, fun mask mask' i i' => ?_, fun mask mask' => ?_⟩
  · constructor
    · intro he b
      rw [he]
    · exact eq_of_accepts_eq hkind hsense
  · exact ⟨rule_eq_iff rfl (allBits_agree mask mask'), rule_eq_iff rfl (anyBit_agree mask mask')⟩
  · constructor
    · refine ⟨255, fun h => ?_⟩
      cases (accepts_rule_eq_iff (allBits_agree mask mask')).mp h
    · refine ⟨0, fun h => ?_⟩
      cases (accepts_rule_eq_iff (anyBit_agree mask mask')).mp h

/-- One listing had from two lists, and two intervals that are not quite the same. -/
theorem eq_iff_accepts_eq_listings_and_intervals :
    rule (.listed (.ofSet (.ofList [3, 1, 255, 3]))) true =
      rule (.listed (.ofSet (.ofList [255, 3, 1]))) true ∧
    rule (.span ⟨0, 254, by decide⟩) true ≠ rule (.span ⟨1, 254, by decide⟩) true := by
  obtain ⟨hequal, _⟩ := eq_iff_accepts_eq
  constructor
  · refine (hequal _ _ rfl rfl).mpr (Byte.forall_of_lt ?_)
    decide +kernel
  · rw [Ne, hequal _ _ (by rfl) (by rfl)]
    intro h
    exact absurd (h 0) (by decide)

/-- Two intervals in different senses can accept the same bytes. -/
example : ∀ b, (rule (.span ⟨0, 127, by decide⟩) true).accepts b =
    (rule (.span ⟨128, 255, by decide⟩) false).accepts b :=
  Byte.forall_of_lt (by decide +kernel)

end Matcher

end Bytewise

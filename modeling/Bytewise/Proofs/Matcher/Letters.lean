import Bytewise.Proofs.ByteSet.Candidates
import Bytewise.Proofs.Matcher.Views

/-!
# Sets of a letter and their matcher

A set is recognized as a letter by its ends, two letters 32 apart, and the smaller is the answer.
What is recognized that way is always an upper-case byte together with its lower case, so that
nothing is folded when the letter is made of it. The matcher of the letter, had from either of the
two, accepts just these.

* `Letter.ofByte_eq_ok_iff`: the bytes that a letter is made from;
* `ByteSet.answers_casePair?`: the sets that are recognized;
* `ByteSet.map_upper_letter?`: the letter of a set keeps the byte that was found;
* `Matcher.accepts_letter_iff`, `Matcher.yields_letter`: the matcher of a letter;
* `ByteSet.casePair?_fits_matcher`: recognition and matcher together.
-/

namespace Bytewise

theorem Letter.ofByte_eq_ok_iff {b : Byte} {l : Letter} :
    ofByte b = .ok l ↔ b = l.upper ∨ b = l.lower := by
  rw [← ofByte?_eq_some_iff, ofByte]
  cases ofByte? b <;> simp

namespace ByteSet

variable {s : ByteSet} {c : Byte}

/-- The members are an upper-case letter and its lower case. -/
def IsCasePair (s : ByteSet) (c : Byte) : Prop :=
  Byte.isUpper c = true ∧ ∀ b, b ∈ s ↔ b = c ∨ b = Byte.toLower c

theorem answers_casePair? (s : ByteSet) : Answers s.casePair? s.IsCasePair :=
  fun _ => casePair?_eq_some_iff

/-- Of two members in whichever order, one is the upper case of the other, or nothing is found. -/
theorem casePair?_eq_none_of_pair {v w : Byte} (hs : ∀ b, b ∈ s ↔ b = v ∨ b = w)
    (hvw : ¬ (Byte.isUpper v = true ∧ w = Byte.toLower v))
    (hwv : ¬ (Byte.isUpper w = true ∧ v = Byte.toLower w)) : s.casePair? = none := by
  rw [s.answers_casePair?.eq_none_iff]
  rintro ⟨c, hc, hpair⟩
  have hne : Byte.toLower c ≠ c := (UInt8.ne_of_lt (Byte.lt_toLower hc)).symm
  have hmem := (hs c).mp ((hpair c).mpr (Or.inl rfl))
  have hmem' := (hs _).mp ((hpair _).mpr (Or.inr rfl))
  rcases hmem with rfl | rfl
  · exact hvw ⟨hc, (hmem'.resolve_left hne).symm⟩
  · exact hwv ⟨hc, (hmem'.resolve_right hne).symm⟩

/-- What is found is in upper case already. -/
theorem map_upper_letter? (s : ByteSet) : s.letter?.map Letter.upper = s.casePair? := by
  rw [letter?]
  cases hpair : s.casePair? with
  | none => rfl
  | some c =>
    have hup := (casePair?_eq_some_iff.mp hpair).1
    rw [Option.bind_some, Letter.ofByte?_of_isUpper hup, Option.map_some]

end ByteSet

/-! ## The matcher of a letter -/

namespace Matcher

variable {s : ByteSet} {l : Letter}

/-- The folding of bytes to upper case accepts the members of a recognized set. -/
theorem accepts_letter_iff (h : s.letter? = some l) (b : Byte) :
    (letter l).accepts b = true ↔ b ∈ s := by
  rw [accepts, Letter.folds_iff, ByteSet.letter?_eq_some_iff.mp h]

theorem toList_letter (h : s.letter? = some l) : (letter l).toList = s.toList := by
  rw [toList_eq_filter, ByteSet.toList]
  exact List.filter_congr fun b _ => Bool.eq_iff_iff.mpr (accepts_letter_iff h b)

theorem yields_letter (l : Letter) : (letter l).cursor.Yields [l.upper, l.lower] :=
  (letter l).cursor.yields_toList

end Matcher

namespace ByteSet

/-- **A letter is recognized exactly, and fits its matcher.** The byte that is found is in upper
case and makes up the set together with its lower case, and it is found whenever the set is of that
sort. A letter is then made from either case, the same from both, and it is the letter of the set.
Its matcher accepts just the members and hands them out ascending. In sets of any other size nothing
is found, nor in two members that are not the two cases of a letter, however far apart they lie. The
letter of a set, where there is one, has the byte that was found. -/
theorem casePair?_fits_matcher (s : ByteSet) :
    (∀ c, s.casePair? = some c ↔
      Byte.isUpper c = true ∧ ∀ b, b ∈ s ↔ b = c ∨ b = Byte.toLower c) ∧
    (∀ c, s.casePair? = some c →
      ∃ l, Letter.ofByte c = .ok l ∧ Letter.ofByte (Byte.toLower c) = .ok l ∧ s.letter? = some l ∧
        (∀ b, (Matcher.letter l).accepts b = true ↔ b ∈ s) ∧
        (Matcher.letter l).cursor.Yields [c, Byte.toLower c] ∧ c < Byte.toLower c ∧
        (Matcher.letter l).toList = s.toList) ∧
    (s.card ≠ 2 → s.casePair? = none) ∧
    (∀ v w, (∀ b, b ∈ s ↔ b = v ∨ b = w) → ¬ (Byte.isUpper v = true ∧ w = Byte.toLower v) →
      ¬ (Byte.isUpper w = true ∧ v = Byte.toLower w) → s.casePair? = none) ∧
    s.letter?.map Letter.upper = s.casePair? := by
  refine ⟨s.answers_casePair?, ?_, casePair?_of_card_ne, fun v w => casePair?_eq_none_of_pair,
    s.map_upper_letter?⟩
  intro c hc
  rw [← s.map_upper_letter?] at hc
  obtain ⟨l, hl, rfl⟩ := Option.map_eq_some_iff.mp hc
  exact ⟨l, Letter.ofByte_eq_ok_iff.mpr (Or.inl rfl), Letter.ofByte_eq_ok_iff.mpr (Or.inr rfl), hl,
    Matcher.accepts_letter_iff hl, Matcher.yields_letter l, l.upper_lt_lower,
    Matcher.toList_letter hl⟩

theorem casePair?_fits_matcher_pairs :
    (ofList [122, 90]).casePair? = some 90 ∧
    (∃ l, Letter.ofByte 90 = .ok l ∧ Letter.ofByte 122 = .ok l ∧
      (Matcher.letter l).toList = (ofList [122, 90]).toList) ∧
    (ofList [65, 66, 97]).casePair? = none ∧ (ofList [64, 96]).casePair? = none ∧
    (ofList [122, 154]).casePair? = none := by
  have hpair : ∀ v w b, b ∈ ofList [v, w] ↔ b = v ∨ b = w := fun v w b => by simp [mem_ofList]
  have hz : (ofList [122, 90]).casePair? = some 90 := by
    refine ((casePair?_fits_matcher _).1 90).mpr ⟨by decide, fun b => ?_⟩
    exact (hpair 122 90 b).trans Or.comm
  have hcard : (ofList [65, 66, 97]).card ≠ 2 := by decide +kernel
  refine ⟨hz, ?_, (casePair?_fits_matcher _).2.2.1 hcard, ?_, ?_⟩
  · obtain ⟨l, hupper, hlower, _, _, _, _, hlist⟩ := (casePair?_fits_matcher _).2.1 90 hz
    exact ⟨l, hupper, hlower, hlist⟩
  · exact (casePair?_fits_matcher _).2.2.2.1 64 96 (hpair 64 96) (by decide) (by decide)
  · exact (casePair?_fits_matcher _).2.2.2.1 122 154 (hpair 122 154) (by decide) (by decide)

end ByteSet

end Bytewise

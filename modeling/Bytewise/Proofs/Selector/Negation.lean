import Bytewise.Proofs.Selector.Attempts
import Bytewise.Proofs.Selector.Target

/-!
# Requests negated

The negated request names the same set in the other sense, so that its target is the complement of
the target. An answer does not just change its sense with the request: a rule asked as it is need
not come back turned round, as there may be something cheaper on the other side. In the other
direction it does, but for the two cases of a letter, which have a form of their own as a target
and none as the complement of one.

* `sized_complement_of_one`, `sized_complement_of_allBut`: one byte against all bytes but one;
* `chosen_negated`: the attempts of the negated request;
* `select_negated`: the answers to a request and to its negation.
-/

namespace Bytewise

namespace Selector

variable {sel : Selector} {s t : ByteSet} {inverse : Bool} {r : Rule} {m : Matcher} {v : Byte}
  {l : Letter}

/-! ## The attempts of the negated request -/

theorem sized_complement_of_one (h : Sized t (.one v)) : Sized t.complement (.allBut v) := by
  cases h with
  | one h =>
    refine .allBut ?_
    rwa [ByteSet.complement_complement]

theorem sized_complement_of_allBut (h : Sized t (.allBut v)) : Sized t.complement (.one v) := by
  cases h with
  | allBut h => exact .one h

/-- Where the target has no form of its own, the complement has one as a letter only. -/
theorem sizedForm?_complement (h : sizedForm? t = none) (hletter : t.complement.letter? = none) :
    sizedForm? t.complement = none := by
  have hcard := card_of_sizedForm?_eq_none h
  have hsum := t.card_complement
  exact sizedForm?_eq_none_iff.mpr ⟨by omega, hletter⟩

theorem kind_ne_table_of_rule? (h : sel.rule? s = some r) : r.kind ≠ .table := by
  cases settled_of_rule?_eq_some h <;> simp [Rule.kind]

theorem kind_ne_table_of_sizedForm? (h : sizedForm? t = some m) : m.kind ≠ .table := by
  cases sizedForm?_eq_some_iff.mp h <;> simp [Matcher.kind, Rule.kind]

/-- A rule turned round was found for what is now the target, and where no rule was found for either
side, none is found now. -/
theorem chosen_negated (h : Chosen sel s inverse m)
    (hletter : (s.complementIf inverse).complement.letter? = none) :
    (∀ r, m = .rule r true → m.kind ≠ .table → Chosen sel s (!inverse) (.rule r false)) ∧
    (m.kind = .table → m = .rule (.table s) inverse ∧
      Chosen sel s (!inverse) (.rule (.table s) (!inverse))) := by
  have hnot := s.complementIf_not inverse
  cases h with
  | sized hsized =>
    refine ⟨fun r hr _ => ?_, fun hkind => absurd hkind (kind_ne_table_of_sizedForm? hsized)⟩
    rw [hr] at hsized
    cases sizedForm?_eq_some_iff.mp hsized
  | direct hsized hdirect =>
    refine ⟨fun r hr _ => ?_, fun hkind => absurd hkind (kind_ne_table_of_rule? hdirect)⟩
    cases hr
  | turned hsized hdirect hturned =>
    refine ⟨fun r hr _ => ?_, fun hkind => absurd hkind (kind_ne_table_of_rule? hturned)⟩
    cases hr
    refine .direct ?_ ?_
    · rw [hnot]
      exact sizedForm?_complement hsized hletter
    · rw [hnot]
      exact hturned
  | table hsized hdirect hturned =>
    refine ⟨fun r _ hkind => absurd rfl hkind, fun _ => ⟨rfl, .table ?_ ?_ ?_⟩⟩
    · rw [hnot]
      exact sizedForm?_complement hsized hletter
    · rw [hnot]
      exact hturned
    · rw [hnot, ByteSet.complement_complement]
      exact hdirect

/-! ## Answers -/

theorem choose_of_sized (h : Sized (s.complementIf inverse) m) : sel.choose s inverse = m :=
  choose_eq_iff_chosen.mpr (.sized (sizedForm?_eq_some_iff.mpr h))

/-- What is no rule was found by its size. -/
theorem sized_of_choose (h : sel.choose s inverse = m) (hm : ∀ r i, m ≠ .rule r i) :
    Sized (s.complementIf inverse) m := by
  cases choose_eq_iff_chosen.mp h with
  | sized hsized => exact sizedForm?_eq_some_iff.mp hsized
  | direct | turned | table => exact absurd rfl (hm _ _)

/-- The two cases of a letter are refused and all else is accepted. -/
def AllButLetter (m : Matcher) (l : Letter) : Prop :=
  ∀ b, m.accepts b = false ↔ b = l.upper ∨ b = l.lower

theorem allButLetter_choose_iff : AllButLetter (sel.choose s inverse) l ↔
    (s.complementIf (!inverse)).letter? = some l := by
  rw [ByteSet.letter?_eq_some_iff, ByteSet.complementIf_not]
  refine forall_congr' fun b => ?_
  rw [ByteSet.mem_complement, ← sel.decides_choose s inverse b, Bool.not_eq_true]

theorem not_allButLetter (h : ∀ b, Byte.isUpper b = true → m.accepts b = true) (l : Letter) :
    ¬ AllButLetter m l := by
  intro hl
  have hrefused := (hl l.upper).mpr (Or.inl rfl)
  rw [h l.upper l.isUpper_upper] at hrefused
  cases hrefused

/-- **Negating a request.** One byte is answered by all bytes but that one, and the other way round.
If just the two cases of a letter are refused, the negated request is answered by the letter.
Otherwise a rule turned round is asked as it is, and a table changes its sense. -/
theorem select_negated (sel : Selector) (s : ByteSet) (inverse : Bool) (h : s ≠ .empty) :
    ∃ m m', sel.select s inverse = .ok m ∧ sel.select s (!inverse) = .ok m' ∧
      (∀ v, m = .one v → m' = .allBut v) ∧
      (∀ v, m = .allBut v → m' = .one v) ∧
      (∀ l, AllButLetter m l → m' = .letter l) ∧
      ((∀ l, ¬ AllButLetter m l) →
        (∀ r, m = .rule r true → m.kind ≠ .table → m' = .rule r false) ∧
        (m.kind = .table → m = .rule (.table s) inverse ∧ m' = .rule (.table s) (!inverse))) := by
  have hnot := s.complementIf_not inverse
  refine ⟨_, _, sel.select_of_ne_empty h inverse, sel.select_of_ne_empty h (!inverse),
    fun v hv => ?_, fun v hv => ?_, fun l hl => ?_, fun hl => ?_⟩
  · have hsized := sized_complement_of_one (sized_of_choose hv nofun)
    rw [← hnot] at hsized
    exact choose_of_sized hsized
  · have hsized := sized_complement_of_allBut (sized_of_choose hv nofun)
    rw [← hnot] at hsized
    exact choose_of_sized hsized
  · rw [allButLetter_choose_iff, ByteSet.letter?_eq_some_iff] at hl
    exact choose_of_sized (.letter hl)
  · have hletter : (s.complementIf inverse).complement.letter? = none := by
      rw [← hnot, Option.eq_none_iff_forall_ne_some]
      exact fun l he => hl l (allButLetter_choose_iff.mpr he)
    obtain ⟨hturned, htable⟩ := chosen_negated (sel.chosen_choose s inverse) hletter
    refine ⟨fun r hr hkind => ?_, fun hkind => ?_⟩
    · exact choose_eq_iff_chosen.mpr (hturned r hr hkind)
    · exact ⟨(htable hkind).1, choose_eq_iff_chosen.mpr (htable hkind).2⟩

/-- One byte, the letter `A`, and a pair of bytes that is listed or kept in a table. -/
theorem select_negated_byte_letter_and_pair :
    Selector.select {} (.ofList [5]) (!false) = .ok (.allBut 5) ∧
    Selector.select {} (.ofList [5]) (!true) = .ok (.one 5) ∧
    Selector.select {} (.ofList [65, 97]) (!true) = .ok (.letter ⟨65, by decide⟩) ∧
    Selector.select {} (.ofList [1, 5]) (!true) =
      .ok (.rule (.listed (.ofSet (.ofList [1, 5]))) false) ∧
    Selector.select ⟨0⟩ (.ofList [1, 5]) (!true) = .ok (.rule (.table (.ofList [1, 5])) false) := by
  have hfive : ByteSet.ofList [5] ≠ .empty := by decide +kernel
  have hcases : ByteSet.ofList [65, 97] ≠ .empty := by decide +kernel
  have hpair : ByteSet.ofList [1, 5] ≠ .empty := by decide +kernel
  refine ⟨?_, ?_, ?_, ?_, ?_⟩
  · obtain ⟨m, m', hm, hm', hone, _⟩ := select_negated {} (.ofList [5]) false hfive
    have hanswer : Selector.select {} (.ofList [5]) false = .ok (.one 5) := by decide +kernel
    rw [hm', hone 5 (Except.ok.inj (hm.symm.trans hanswer))]
  · obtain ⟨m, m', hm, hm', _, hbut, _⟩ := select_negated {} (.ofList [5]) true hfive
    have hanswer : Selector.select {} (.ofList [5]) true = .ok (.allBut 5) := by decide +kernel
    rw [hm', hbut 5 (Except.ok.inj (hm.symm.trans hanswer))]
  · obtain ⟨m, m', hm, hm', _, _, hletter, _⟩ := select_negated {} (.ofList [65, 97]) true hcases
    have hanswer : Selector.select {} (.ofList [65, 97]) true =
        .ok (.rule (.listed (.ofSet (.ofList [65, 97]))) true) := by decide +kernel
    have hrefused : AllButLetter (.rule (.listed (.ofSet (.ofList [65, 97]))) true)
        ⟨65, by decide⟩ := Byte.forall_of_lt (by decide +kernel)
    rw [← Except.ok.inj (hm.symm.trans hanswer)] at hrefused
    rw [hm', hletter _ hrefused]
  · obtain ⟨m, m', hm, hm', _, _, _, hother⟩ := select_negated {} (.ofList [1, 5]) true hpair
    have hanswer : Selector.select {} (.ofList [1, 5]) true =
        .ok (.rule (.listed (.ofSet (.ofList [1, 5]))) true) := by decide +kernel
    obtain rfl := Except.ok.inj (hm.symm.trans hanswer)
    have hno : ∀ l, ¬ AllButLetter (.rule (.listed (.ofSet (.ofList [1, 5]))) true) l :=
      not_allButLetter (Byte.forall_of_lt (by decide +kernel))
    rw [hm', (hother hno).1 _ rfl (by decide)]
  · obtain ⟨m, m', hm, hm', _, _, _, hother⟩ := select_negated ⟨0⟩ (.ofList [1, 5]) true hpair
    have hanswer : Selector.select ⟨0⟩ (.ofList [1, 5]) true =
        .ok (.rule (.table (.ofList [1, 5])) true) := by decide +kernel
    obtain rfl := Except.ok.inj (hm.symm.trans hanswer)
    have hno : ∀ l, ¬ AllButLetter (.rule (.table (.ofList [1, 5])) true) l :=
      not_allButLetter (Byte.forall_of_lt (by decide +kernel))
    rw [hm', ((hother hno).2 rfl).2]
    rfl

end Selector

end Bytewise

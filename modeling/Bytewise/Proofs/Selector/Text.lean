import Bytewise.Proofs.Matcher.Reading
import Bytewise.Proofs.Selector.Target

/-!
# Texts of answers

Matchers of different kinds can have one text, but two answers of one selector cannot. The text
shows what is accepted, which is the target, and the target settles the kind; within the kind, the
text shows the parameters.

* `Selector.choose_eq_of_text_eq`: answers with one text are equal;
* `Selector.select_eq_iff_text_eq`: the same of requests, and how it fails for other matchers.
-/

namespace Bytewise

namespace Selector

variable {sel : Selector} {s₁ s₂ : ByteSet} {i₁ i₂ : Bool} {style : Style}

theorem target_eq_of_text_eq (h : (sel.choose s₁ i₁).text style = (sel.choose s₂ i₂).text style) :
    s₁.complementIf i₁ = s₂.complementIf i₂ := by
  rw [← (sel.decides_choose s₁ i₁).toSet_eq, ← (sel.decides_choose s₂ i₂).toSet_eq]
  exact Matcher.toSet_eq_of_text_eq h

theorem kind_eq_of_target_eq (h : s₁.complementIf i₁ = s₂.complementIf i₂) :
    (sel.choose s₁ i₁).kind = (sel.choose s₂ i₂).kind := by
  rcases sel.choose_of_target_eq h with ⟨_, heq⟩ | ⟨htable₁, htable₂⟩
  · rw [heq]
  · rw [htable₁, htable₂]
    rfl

theorem choose_eq_of_text_eq (h : (sel.choose s₁ i₁).text style = (sel.choose s₂ i₂).text style) :
    sel.choose s₁ i₁ = sel.choose s₂ i₂ :=
  Matcher.eq_of_text_eq (kind_eq_of_target_eq (target_eq_of_text_eq h)) h

/-- **The text of an answer identifies it.** Two answers of one selector are equal if they have the
same text in one of the styles, and only then. This is not so of all matchers: an interval of three
or more bytes has one text in three encodings. -/
theorem select_eq_iff_text_eq (sel : Selector) :
    (∀ s₁ i₁ s₂ i₂, s₁ ≠ .empty → s₂ ≠ .empty →
      ∃ m₁ m₂, sel.select s₁ i₁ = .ok m₁ ∧ sel.select s₂ i₂ = .ok m₂ ∧
        ∀ style, m₁ = m₂ ↔ m₁.text style = m₂.text style) ∧
    (∀ (s : Span) (inverted : Bool), 3 ≤ s.size →
      (s.encodings inverted).map Matcher.kind = [.span, .listed, .table] ∧
      ∀ m₁ ∈ s.encodings inverted, ∀ m₂ ∈ s.encodings inverted,
        ∀ style, m₁.text style = m₂.text style) := by
  constructor
  · intro s₁ i₁ s₂ i₂ h₁ h₂
    refine ⟨_, _, sel.select_of_ne_empty h₁ i₁, sel.select_of_ne_empty h₂ i₂, fun style => ?_⟩
    exact ⟨congrArg (Matcher.text style), choose_eq_of_text_eq⟩
  · intro s inverted hsize
    refine ⟨rfl, fun m₁ h₁ m₂ h₂ style => ?_⟩
    rw [Span.text_encodings hsize inverted style m₁ h₁,
      Span.text_encodings hsize inverted style m₂ h₂]

/-- Two tables for one target, told apart by the text; and the digits in two encodings. -/
theorem select_eq_iff_text_eq_tables_and_digits :
    (∃ m₁ m₂, Selector.select ⟨0⟩ (.ofList [1, 5]) true = .ok m₁ ∧
      Selector.select ⟨0⟩ (ByteSet.ofList [1, 5]).complement false = .ok m₂ ∧
      ∀ style, m₁.text style ≠ m₂.text style) ∧
    (∀ style, (Matcher.rule (.span ⟨48, 57, by decide⟩) true).text style =
      (Matcher.rule (.table (.ofList (Byte.between 48 57))) true).text style) := by
  have hpair : ByteSet.ofList [1, 5] ≠ .empty := by decide +kernel
  have hothers : (ByteSet.ofList [1, 5]).complement ≠ .empty := by decide +kernel
  have hdiff : Selector.select ⟨0⟩ (.ofList [1, 5]) true ≠
      Selector.select ⟨0⟩ (ByteSet.ofList [1, 5]).complement false := by decide +kernel
  obtain ⟨hanswers, hshared⟩ := select_eq_iff_text_eq ⟨0⟩
  constructor
  · obtain ⟨m₁, m₂, h₁, h₂, htext⟩ := hanswers (.ofList [1, 5]) true _ false hpair hothers
    refine ⟨m₁, m₂, h₁, h₂, fun style h => ?_⟩
    rw [h₁, h₂, (htext style).mpr h] at hdiff
    exact hdiff rfl
  · obtain ⟨_, htext⟩ := hshared ⟨48, 57, by decide⟩ true (by decide +kernel)
    exact htext _ (by simp [Span.encodings]) _ (by simp [Span.encodings, Span.toList])

end Selector

end Bytewise

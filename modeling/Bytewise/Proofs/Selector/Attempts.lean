import Bytewise.Proofs.Selector.Preference

/-!
# Attempts found and failed

A choice is made in attempts, and each that is reached tells something about the target: what it
found, or that there was nothing to find. Said once here, so that what is chosen can be studied
attempt by attempt.

* `sizedForm?_eq_some_iff`: the form that the size suggests;
* `sizedForm?_eq_none_iff`: the targets without such a form;
* `settled_of_rule?_eq_some`, `rule?_eq_none_iff`: the rule for a set;
* `choose_eq_iff_chosen`: the choice.
-/

namespace Bytewise

namespace Selector

variable {sel : Selector} {s target : ByteSet} {inverse : Bool} {r : Rule} {m : Matcher}

/-! ## The size of the target -/

/-- The forms that a size suggests, each with the targets it is for. -/
inductive Sized (target : ByteSet) : Matcher → Prop
  | nothing : target = .empty → Sized target (.rule (.anyBit 0) false)
  | one {v : Byte} : (∀ b, b ∈ target ↔ b = v) → Sized target (.one v)
  | letter {l : Letter} : (∀ b, b ∈ target ↔ b = l.upper ∨ b = l.lower) → Sized target (.letter l)
  | allBut {v : Byte} : (∀ b, b ∈ target.complement ↔ b = v) → Sized target (.allBut v)
  | any : target = .full → Sized target .any

theorem card_of_letter?_eq_some {l : Letter} (h : target.letter? = some l) : target.card = 2 := by
  by_contra hcard
  rw [ByteSet.letter?_of_card_ne hcard] at h
  cases h

theorem sizedForm?_eq_some_iff : sizedForm? target = some m ↔ Sized target m := by
  constructor
  · intro h
    unfold sizedForm? at h
    split at h
    · rename_i hcard
      rw [← Option.some.inj h]
      exact .nothing (ByteSet.card_eq_zero_iff.mp hcard)
    · rename_i hcard
      obtain ⟨v, hv, rfl⟩ := Option.map_eq_some_iff.mp h
      exact .one (ByteSet.mem_iff_eq_iff.mpr ⟨hcard, hv⟩)
    · obtain ⟨l, hl, rfl⟩ := Option.map_eq_some_iff.mp h
      exact .letter (ByteSet.letter?_eq_some_iff.mp hl)
    · rename_i hcard
      obtain ⟨v, hv, rfl⟩ := Option.map_eq_some_iff.mp h
      exact .allBut (ByteSet.mem_complement_iff_eq_iff.mpr ⟨hcard, hv⟩)
    · rename_i hcard
      rw [← Option.some.inj h]
      exact .any (ByteSet.card_eq_256_iff.mp hcard)
    · cases h
  · intro h
    cases h with
    | nothing h =>
      simp [sizedForm?, ByteSet.card_eq_zero_iff.mpr h]
    | one h =>
      obtain ⟨hcard, hmin⟩ := ByteSet.mem_iff_eq_iff.mp h
      simp [sizedForm?, hcard, hmin]
    | letter h =>
      have hl := ByteSet.letter?_eq_some_iff.mpr h
      simp [sizedForm?, card_of_letter?_eq_some hl, hl]
    | allBut h =>
      obtain ⟨hcard, hmissing⟩ := ByteSet.mem_complement_iff_eq_iff.mp h
      simp [sizedForm?, hcard, hmissing]
    | any h =>
      simp [sizedForm?, ByteSet.card_eq_256_iff.mpr h]

/-- Targets of almost no bytes and of almost all have forms of their own. -/
theorem card_of_sizedForm?_eq_none (h : sizedForm? target = none) :
    2 ≤ target.card ∧ target.card ≤ 254 := by
  have hle := target.card_le
  have h0 : target.card ≠ 0 := by
    intro h0
    simp [sizedForm?, h0] at h
  have h1 : target.card ≠ 1 := by
    intro h1
    simp only [sizedForm?, h1, Option.map_eq_none_iff] at h
    exact h0 (ByteSet.card_eq_zero_iff.mpr (ByteSet.min?_eq_none_iff.mp h))
  have h255 : target.card ≠ 255 := by
    intro h255
    simp only [sizedForm?, h255, Option.map_eq_none_iff, List.head?_eq_none_iff] at h
    have hsum := target.card_complement
    have hmissing : target.complement.card = 0 := by
      rw [ByteSet.card_eq_length_toList, ← ByteSet.missing_eq_toList_complement, h]
      rfl
    omega
  have h256 : target.card ≠ 256 := by
    intro h256
    simp [sizedForm?, h256] at h
  omega

/-- Of the targets of any other size only the cases of a letter have a form. -/
theorem sizedForm?_of_card (h : 2 ≤ target.card ∧ target.card ≤ 254) :
    sizedForm? target = target.letter?.map .letter := by
  have hletter : target.card ≠ 2 → target.letter? = none := ByteSet.letter?_of_card_ne
  unfold sizedForm?
  split <;> simp_all

theorem sizedForm?_eq_none_iff :
    sizedForm? target = none ↔ (2 ≤ target.card ∧ target.card ≤ 254) ∧ target.letter? = none := by
  constructor
  · intro h
    have hcard := card_of_sizedForm?_eq_none h
    rw [sizedForm?_of_card hcard, Option.map_eq_none_iff] at h
    exact ⟨hcard, h⟩
  · rintro ⟨hcard, h⟩
    rw [sizedForm?_of_card hcard, h, Option.map_none]

/-! ## The rule for a set -/

/-- The rule that is found for a set, and that the rules tried before it do not fit. -/
inductive Settled (sel : Selector) (s : ByteSet) : Rule → Prop
  | allBits {mask : Byte} : s.allBitsMask? = some mask → Settled sel s (.allBits mask)
  | anyBit {mask : Byte} : s.allBitsMask? = none → s.anyBitMask? = some mask →
      Settled sel s (.anyBit mask)
  | span {i : Span} : s.allBitsMask? = none → s.anyBitMask? = none → s.span? = some i →
      Settled sel s (.span i)
  | listed : s.allBitsMask? = none → s.anyBitMask? = none → s.span? = none →
      s.card < sel.listBelow → Settled sel s (.listed (.ofSet s))

theorem settled_of_rule?_eq_some (h : sel.rule? s = some r) : Settled sel s r := by
  unfold rule? at h
  cases hall : s.allBitsMask? with
  | some mask =>
    have hr : Rule.allBits mask = r := by simpa [hall] using h
    exact hr ▸ .allBits hall
  | none =>
    cases hany : s.anyBitMask? with
    | some mask =>
      have hr : Rule.anyBit mask = r := by simpa [hall, hany] using h
      exact hr ▸ .anyBit hall hany
    | none =>
      cases hspan : s.span? with
      | some i =>
        have hr : Rule.span i = r := by simpa [hall, hany, hspan] using h
        exact hr ▸ .span hall hany hspan
      | none =>
        have hr : s.card < sel.listBelow ∧ Rule.listed (.ofSet s) = r := by
          simpa [hall, hany, hspan] using h
        exact hr.2 ▸ .listed hall hany hspan hr.1

theorem rule?_eq_none_iff : sel.rule? s = none ↔
    s.allBitsMask? = none ∧ s.anyBitMask? = none ∧ s.span? = none ∧ sel.listBelow ≤ s.card := by
  unfold rule?
  cases s.allBitsMask? <;> cases s.anyBitMask? <;> cases s.span? <;> simp

/-! ## The choice -/

/-- The attempt that succeeded, after the failure of those before it. -/
inductive Chosen (sel : Selector) (s : ByteSet) (inverse : Bool) : Matcher → Prop
  | sized {m : Matcher} : sizedForm? (s.complementIf inverse) = some m → Chosen sel s inverse m
  | direct {r : Rule} : sizedForm? (s.complementIf inverse) = none →
      sel.rule? (s.complementIf inverse) = some r → Chosen sel s inverse (.rule r false)
  | turned {r : Rule} : sizedForm? (s.complementIf inverse) = none →
      sel.rule? (s.complementIf inverse) = none →
      sel.rule? (s.complementIf inverse).complement = some r → Chosen sel s inverse (.rule r true)
  | table : sizedForm? (s.complementIf inverse) = none →
      sel.rule? (s.complementIf inverse) = none →
      sel.rule? (s.complementIf inverse).complement = none →
      Chosen sel s inverse (.rule (.table s) inverse)

/-- **The choice, attempt by attempt.** -/
theorem choose_eq_iff_chosen : sel.choose s inverse = m ↔ Chosen sel s inverse m := by
  rw [choose_eq]
  constructor
  · rintro rfl
    unfold cheap?
    cases hsized : sizedForm? (s.complementIf inverse) with
    | some m => exact .sized hsized
    | none =>
      cases hdirect : sel.rule? (s.complementIf inverse) with
      | some r => exact .direct hsized hdirect
      | none =>
        cases hturned : sel.rule? (s.complementIf inverse).complement with
        | some r => exact .turned hsized hdirect hturned
        | none => exact .table hsized hdirect hturned
  · intro h
    cases h with
    | sized h => simp [cheap?, h]
    | direct h₁ h₂ => simp [cheap?, h₁, h₂]
    | turned h₁ h₂ h₃ => simp [cheap?, h₁, h₂, h₃]
    | table h₁ h₂ h₃ => simp [cheap?, h₁, h₂, h₃]

theorem chosen_choose (sel : Selector) (s : ByteSet) (inverse : Bool) :
    Chosen sel s inverse (sel.choose s inverse) :=
  choose_eq_iff_chosen.mp rfl

end Selector

end Bytewise

import Bytewise.Audit
import Bytewise.Proofs.Matcher.Steps
import Bytewise.Proofs.Selector.Target

/-!
# Agreement with an expected set

An audit compares one view of a matcher after another with a set. All views come down to acceptance:
a matcher that accepts the right bytes passes every comparison, and one that does not fails the
first. So what an audit reports is always a byte, and the smallest that is in dispute.

* `Byte.find?_all_eq_some_iff`: a search through all bytes ends at the smallest that passes;
* `Matcher.Agrees`, `Matcher.agrees_iff`: the comparisons, and that the first implies the others;
* `Matcher.audit_eq_map`: no other comparison ever decides an audit;
* `Matcher.audit_eq_none_iff`, `Matcher.audit_eq_some_iff`: the outcomes of an audit;
* `Matcher.audit_names_smallest_byte`: the outcomes, also for the answers to requests.
-/

namespace Bytewise

theorem Byte.find?_all_eq_some_iff {p : Byte → Bool} {b : Byte} :
    all.find? p = some b ↔ p b = true ∧ ∀ c, c < b → p c = false := by
  rw [← List.head?_filter, head?_eq_some_iff (pairwise_all.filter _)]
  simp only [List.mem_filter, mem_all, true_and]
  refine and_congr_right fun _ => forall_congr' fun c => ?_
  rw [← UInt8.not_lt, imp_not_comm, Bool.not_eq_true]

namespace Matcher

variable {m : Matcher} {expected : ByteSet} {b : Byte} {d : Discrepancy}

/-! ## The first comparison -/

theorem firstDisagreement?_eq_some_iff :
    m.firstDisagreement? expected = some b ↔
      m.accepts b ≠ expected.contains b ∧ ∀ c, c < b → m.accepts c = expected.contains c := by
  rw [firstDisagreement?, Byte.find?_all_eq_some_iff, bne_iff_ne]
  simp only [bne_eq_false_iff_eq]

theorem firstDisagreement?_eq_none_iff :
    m.firstDisagreement? expected = none ↔ ∀ b, m.accepts b = expected.contains b := by
  rw [firstDisagreement?, List.find?_eq_none]
  simp

/-! ## The comparisons after it -/

/-- Everything that an audit compares is as expected. -/
structure Agrees (m : Matcher) (expected : ByteSet) : Prop where
  accepts : ∀ b, m.accepts b = expected.contains b
  cardinality : m.cardinality = expected.card
  toList : m.toList = expected.toList
  length : m.toList.length = m.cardinality
  acceptsAt : ∀ p, p < 256 → m.acceptsAt Byte.all p = expected.contains (UInt8.ofNat p)
  pastEnd : m.acceptsAt Byte.all Byte.all.length = false

/-- The byte at a place of the row of all bytes is the one that numbers the place. -/
theorem acceptsAt_all {p : Nat} (h : p < 256) :
    m.acceptsAt Byte.all p = m.accepts (UInt8.ofNat p) := by
  rw [acceptsAt, Byte.getElem?_all h]

theorem toList_eq_of_accepts_eq (h : ∀ b, m.accepts b = expected.contains b) :
    m.toList = expected.toList := by
  rw [toList_eq_filter, ByteSet.toList, funext h]

/-- **Acceptance settles the other views.** -/
theorem agrees_iff : m.Agrees expected ↔ ∀ b, m.accepts b = expected.contains b := by
  constructor
  · exact Agrees.accepts
  · intro h
    have hlist := toList_eq_of_accepts_eq h
    have hlength : m.toList.length = m.cardinality := m.cardinality_eq_length.symm
    refine ⟨h, ?_, hlist, hlength, fun p hp => ?_, acceptsAt_of_length_le (Nat.le_refl _)⟩
    · rw [← hlength, hlist, ByteSet.card_eq_length_toList]
    · rw [acceptsAt_all hp, h]

theorem Agrees.firstMisplaced?_eq_none (h : m.Agrees expected) :
    m.firstMisplaced? expected = none := by
  rw [firstMisplaced?, List.find?_eq_none]
  intro p hp
  rw [h.acceptsAt p (List.mem_range.mp hp), bne_self_eq_false]
  exact Bool.false_ne_true

/-! ## Audits -/

/-- **Only the first comparison can fail.** When it passes, so do the others. -/
theorem audit_eq_map :
    m.audit expected = (m.firstDisagreement? expected).map fun b =>
      .byte b (m.accepts b) (expected.contains b) := by
  cases hfirst : m.firstDisagreement? expected with
  | some b => rw [audit, hfirst, Option.map_some]
  | none =>
    have h : m.Agrees expected := agrees_iff.mpr (firstDisagreement?_eq_none_iff.mp hfirst)
    simp only [audit, hfirst]
    -- the other comparisons, in their order
    rw [if_neg (not_not_intro h.cardinality), firstDifference?_eq_none_iff.mpr h.toList,
      if_neg (not_not_intro h.length), h.firstMisplaced?_eq_none, h.pastEnd]
    rfl

theorem audit_eq_none_iff :
    m.audit expected = none ↔ ∀ b, m.accepts b = expected.contains b := by
  rw [audit_eq_map, Option.map_eq_none_iff, firstDisagreement?_eq_none_iff]

/-- An audit that fails does so at the smallest byte in dispute. -/
theorem audit_eq_some_iff :
    m.audit expected = some d ↔
      ∃ b, m.accepts b ≠ expected.contains b ∧
        (∀ c, c < b → m.accepts c = expected.contains c) ∧
        d = .byte b (m.accepts b) (expected.contains b) := by
  rw [audit_eq_map, Option.map_eq_some_iff]
  refine exists_congr fun b => ?_
  rw [firstDisagreement?_eq_some_iff, and_assoc, eq_comm (b := d)]

end Matcher

/-! ## Answers to requests -/

namespace Selector

variable (sel : Selector) (s : ByteSet) (inverse : Bool)

theorem accepts_choose_eq_contains (b : Byte) :
    (sel.choose s inverse).accepts b = (s.complementIf inverse).contains b :=
  Bool.eq_iff_iff.mpr (sel.decides_choose s inverse b)

theorem audit_choose : (sel.choose s inverse).audit (s.complementIf inverse) = none :=
  Matcher.audit_eq_none_iff.mpr (sel.accepts_choose_eq_contains s inverse)

/-- The target and its complement differ everywhere, hence at the first byte. -/
theorem audit_choose_complement :
    (sel.choose s inverse).audit (s.complementIf (!inverse)) =
      some (.byte 0 ((sel.choose s inverse).accepts 0) (!(sel.choose s inverse).accepts 0)) := by
  have hother : (s.complementIf (!inverse)).contains 0 = !(sel.choose s inverse).accepts 0 := by
    rw [ByteSet.complementIf_not, ByteSet.contains_complement, accepts_choose_eq_contains]
  rw [Matcher.audit_eq_some_iff]
  refine ⟨0, ?_, fun c hc => absurd hc UInt8.not_lt_zero, ?_⟩
  · rw [hother]
    exact Bool.self_ne_not _
  · rw [hother]

end Selector

namespace Matcher

/-- **An audit names the smallest byte in dispute.** It passes exactly the matchers that accept the
expected bytes, and these pass all its comparisons. It fails at the smallest byte where acceptance
is not as expected, with what the matcher says on the left and what the set says on the right, and
it fails nowhere else. The answer to a request passes for the target of the request, and fails for
the complement of the target at the zero byte. -/
theorem audit_names_smallest_byte :
    (∀ (m : Matcher) (expected : ByteSet),
      (m.audit expected = none ↔ ∀ b, m.accepts b = expected.contains b) ∧
      (m.Agrees expected ↔ ∀ b, m.accepts b = expected.contains b) ∧
      (∀ d, m.audit expected = some d ↔
        ∃ b, m.accepts b ≠ expected.contains b ∧
          (∀ c, c < b → m.accepts c = expected.contains c) ∧
          d = .byte b (m.accepts b) (expected.contains b)) ∧
      (∀ b, (Discrepancy.byte b (m.accepts b) (expected.contains b)).message m =
        Discrepancy.contrast
          ("matches(0x" ++ String.ofList (Hex.ofByte b) ++ ") for " ++ m.text .compact)
          (Wording.ofFlag (m.accepts b)) (Wording.ofFlag (expected.contains b)))) ∧
    (∀ (sel : Selector) (s : ByteSet) (inverse : Bool), s ≠ .empty →
      ∃ m, sel.select s inverse = .ok m ∧ m.audit (s.complementIf inverse) = none ∧
        m.audit (s.complementIf (!inverse)) = some (.byte 0 (m.accepts 0) (!m.accepts 0))) := by
  constructor
  · intro m expected
    exact ⟨audit_eq_none_iff, agrees_iff, fun d => audit_eq_some_iff, fun b => rfl⟩
  · intro sel s inverse hs
    exact ⟨sel.choose s inverse, sel.select_of_ne_empty hs inverse, sel.audit_choose s inverse,
      sel.audit_choose_complement s inverse⟩

theorem audit_names_smallest_byte_nine_and_pair :
    (Matcher.one 7).audit (.ofList [7, 9, 200]) = some (.byte 9 false true) ∧
    ∃ m, Selector.select ⟨0⟩ (.ofList [1, 5]) true = .ok m ∧
      m.audit (ByteSet.ofList [1, 5]).complement = none ∧
      m.audit (.ofList [1, 5]) = some (.byte 0 (m.accepts 0) (!m.accepts 0)) := by
  have hpair : ByteSet.ofList [1, 5] ≠ .empty := by decide +kernel
  constructor
  · obtain ⟨_, _, hfails, _⟩ := audit_names_smallest_byte.1 (.one 7) (.ofList [7, 9, 200])
    have hfirst : (Matcher.one 7).firstDisagreement? (.ofList [7, 9, 200]) = some 9 := by
      decide +kernel
    obtain ⟨hnine, hbelow⟩ := firstDisagreement?_eq_some_iff.mp hfirst
    exact (hfails _).mpr ⟨9, hnine, hbelow, by decide +kernel⟩
  · exact audit_names_smallest_byte.2 ⟨0⟩ (.ofList [1, 5]) true hpair

end Matcher

end Bytewise

import Bytewise.Proofs.Selector.Attempts
import Bytewise.Proofs.Selector.Target

/-!
# The limit of listings

Which listings count as short is the one thing that can be set in a selector. The limit enters twice
into a choice, for the target and then for its complement, and the masks and the interval of the
complement are tried in between. All the same a higher limit has one effect only: a listing that is
short now is taken, where before it was a rule turned round or the table.

* `rule?_of_limit_le`: one attempt, under two limits;
* `choose_of_limit_le`: the choice, under two limits;
* `select_of_limit_le`: the same of requests, and what follows for them.
-/

namespace Bytewise

namespace Selector

variable {sel : Selector} {s : ByteSet} {inverse : Bool} {lo hi : Nat} {m : Matcher}

/-! ## One attempt -/

/-- A higher limit lets an attempt find the listing where it found nothing, and changes nothing
else. -/
theorem rule?_of_limit_le (h : lo ≤ hi) (s : ByteSet) :
    rule? ⟨lo⟩ s = rule? ⟨hi⟩ s ∨
      rule? ⟨lo⟩ s = none ∧ rule? ⟨hi⟩ s = some (.listed (.ofSet s)) ∧
        lo ≤ s.card ∧ s.card < hi := by
  unfold rule?
  -- The limit is asked only when the masks and the interval have failed.
  cases s.allBitsMask? with
  | some mask => exact Or.inl rfl
  | none =>
    cases s.anyBitMask? with
    | some mask => exact Or.inl rfl
    | none =>
      cases s.span? with
      | some i => exact Or.inl rfl
      | none =>
        by_cases hlo : s.card < lo
        · have hhi : s.card < hi := Nat.lt_of_lt_of_le hlo h
          simp [hlo, hhi]
        · by_cases hhi : s.card < hi
          · simp [hlo, hhi, Nat.le_of_not_lt hlo]
          · simp [hlo, hhi]

/-! ## The choice -/

/-- A table, or a rule of whatever kind turned round: what is chosen when the target itself fits no
cheap form. -/
def Fallback : Matcher → Prop
  | .rule r inverted => r.kind = .table ∨ inverted = true
  | _ => False

theorem fallback_getD (sel : Selector) (s others : ByteSet) (inverse : Bool) :
    Fallback (((sel.rule? others).map (Matcher.rule · true)).getD (.rule (.table s) inverse)) := by
  cases sel.rule? others with
  | none => exact Or.inl rfl
  | some r => exact Or.inr rfl

/-- The encodings that are no rules, and the cheap rules asked as they are, are no fallbacks. -/
theorem not_fallback (h : m.kind ∈ [Kind.one, .allBut, .any, .letter] ∨
    m.kind ≠ .table ∧ ∃ r, m = .rule r false) : ¬ Fallback m := by
  cases m with
  | rule r inverted =>
    intro hfallback
    rcases h with h | ⟨hkind, r', h⟩
    · cases r <;> simp [Matcher.kind, Rule.kind] at h
    · injection h with _ hinverted
      rcases hfallback with htable | htrue
      · exact hkind htable
      · rw [htrue] at hinverted
        cases hinverted
  | _ => exact id

/-- **A higher limit has one effect only.** -/
theorem choose_of_limit_le (h : lo ≤ hi) (s : ByteSet) (inverse : Bool) :
    choose ⟨lo⟩ s inverse = choose ⟨hi⟩ s inverse ∨
      (∃ l i, choose ⟨hi⟩ s inverse = .rule (.listed l) i ∧
        lo ≤ l.size ∧ l.size < hi ∧ 2 ≤ l.size ∧ l.size ≤ 254) ∧
      Fallback (choose ⟨lo⟩ s inverse) := by
  rw [choose_eq, choose_eq]
  generalize s.complementIf inverse = target
  unfold cheap?
  cases hsized : sizedForm? target with
  | some m => exact Or.inl rfl
  | none =>
    have hcard := card_of_sizedForm?_eq_none hsized
    have hsum := target.card_complement
    rcases rule?_of_limit_le h target with heq | ⟨hlo, hhi, hcard₁, hcard₂⟩
    · rw [heq]
      cases rule? ⟨hi⟩ target with
      | some r => exact Or.inl rfl
      | none =>
        rcases rule?_of_limit_le h target.complement with heq | ⟨hlo, hhi, hcard₁, hcard₂⟩
        · rw [heq]
          exact Or.inl rfl
        · rw [hlo, hhi]
          refine Or.inr ⟨⟨_, _, rfl, ?_⟩, Or.inl rfl⟩
          rw [Listing.size_ofSet]
          omega
    · rw [hlo, hhi]
      refine Or.inr ⟨⟨_, _, rfl, ?_⟩, fallback_getD _ s _ inverse⟩
      rw [Listing.size_ofSet]
      omega

/-- **Raising the limit.** Under a higher limit a request gets the same answer, or a listing of so
many bytes that it has become short only now, in place of a table or of a rule turned round. So a
listing never turns into a table, an answer that is no fallback never changes, and above 254 the
limit makes no difference. -/
theorem select_of_limit_le (s : ByteSet) (inverse : Bool) (h : s ≠ .empty) (hle : lo ≤ hi) :
    ∃ m₁ m₂, select ⟨lo⟩ s inverse = .ok m₁ ∧ select ⟨hi⟩ s inverse = .ok m₂ ∧
      (m₁ = m₂ ∨
        (∃ l i, m₂ = .rule (.listed l) i ∧
          lo ≤ l.size ∧ l.size < hi ∧ 2 ≤ l.size ∧ l.size ≤ 254) ∧ Fallback m₁) ∧
      (m₁.kind = .listed → m₂.kind ≠ .table) ∧
      (m₁.kind ∈ [Kind.one, .allBut, .any, .letter] ∨
        m₁.kind ≠ .table ∧ (∃ r, m₁ = .rule r false) → m₁ = m₂) ∧
      (255 ≤ lo → m₁ = m₂) := by
  refine ⟨_, _, select_of_ne_empty _ h inverse, select_of_ne_empty _ h inverse, ?_⟩
  have hraise := choose_of_limit_le hle s inverse
  refine ⟨hraise, ?_, ?_, ?_⟩
  · intro hlisted
    rcases hraise with heq | ⟨⟨l, i, hanswer, _⟩, _⟩
    · rw [← heq, hlisted]
      decide
    · rw [hanswer]
      exact (by decide : Kind.listed ≠ .table)
  · intro hdirect
    exact hraise.resolve_right fun hchange => not_fallback hdirect hchange.2
  · intro hlimit
    refine hraise.resolve_right fun hchange => ?_
    obtain ⟨⟨l, _, _, hlo, _, _, hsize⟩, _⟩ := hchange
    omega

/-- Two bytes that are no interval are listed as soon as the limit admits them, and ever after; an
interval is one under every limit. -/
theorem select_of_limit_le_pair :
    (∃ m₁ m₂, select ⟨2⟩ (.ofList [1, 5]) false = .ok m₁ ∧
      select ⟨3⟩ (.ofList [1, 5]) false = .ok m₂ ∧
      (∃ l i, m₂ = .rule (.listed l) i ∧ 2 ≤ l.size ∧ l.size < 3) ∧ Fallback m₁) ∧
    (∃ m₁ m₂, select ⟨255⟩ (.ofList [1, 5]) false = .ok m₁ ∧
      select ⟨300⟩ (.ofList [1, 5]) false = .ok m₂ ∧ m₂.kind ≠ .table ∧ m₁ = m₂) ∧
    (∃ m₁ m₂, select ⟨0⟩ (.ofList [48, 49]) false = .ok m₁ ∧
      select ⟨3⟩ (.ofList [48, 49]) false = .ok m₂ ∧ m₁ = m₂) := by
  have hpair : ByteSet.ofList [1, 5] ≠ .empty := by decide +kernel
  have hdigits : ByteSet.ofList [48, 49] ≠ .empty := by decide +kernel
  have hdiff : select ⟨2⟩ (.ofList [1, 5]) false ≠ select ⟨3⟩ (.ofList [1, 5]) false := by
    decide +kernel
  have hlisted : select ⟨255⟩ (.ofList [1, 5]) false =
      .ok (.rule (.listed (.ofSet (.ofList [1, 5]))) false) := by decide +kernel
  have hspan : select ⟨0⟩ (.ofList [48, 49]) false =
      .ok (.rule (.span ⟨48, 49, by decide⟩) false) := by decide +kernel
  refine ⟨?_, ?_, ?_⟩
  · obtain ⟨m₁, m₂, h₁, h₂, hraise, _⟩ :=
      select_of_limit_le (.ofList [1, 5]) false hpair (by decide : 2 ≤ 3)
    rw [h₁, h₂] at hdiff
    obtain ⟨⟨l, i, hl, hlo, hhi, _⟩, hfallback⟩ :=
      hraise.resolve_left fun heq => hdiff (congrArg Except.ok heq)
    exact ⟨m₁, m₂, h₁, h₂, ⟨l, i, hl, hlo, hhi⟩, hfallback⟩
  · obtain ⟨m₁, m₂, h₁, h₂, _, hkeep, _, hsame⟩ :=
      select_of_limit_le (.ofList [1, 5]) false hpair (by decide : 255 ≤ 300)
    have hkind : m₁.kind = .listed := by
      rw [← Except.ok.inj (hlisted.symm.trans h₁)]
      rfl
    exact ⟨m₁, m₂, h₁, h₂, hkeep hkind, hsame (by decide)⟩
  · obtain ⟨m₁, m₂, h₁, h₂, _, _, hdirect, _⟩ :=
      select_of_limit_le (.ofList [48, 49]) false hdigits (by decide : 0 ≤ 3)
    have hm : m₁ = .rule (.span ⟨48, 49, by decide⟩) false :=
      (Except.ok.inj (hspan.symm.trans h₁)).symm
    refine ⟨m₁, m₂, h₁, h₂, hdirect (Or.inr ⟨?_, _, hm⟩)⟩
    rw [hm]
    exact (by decide : Kind.span ≠ .table)

end Selector

end Bytewise

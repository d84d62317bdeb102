import Bytewise.Proofs.Matcher.Views
import Bytewise.Proofs.Selector.Preference

/-!
# Answers and their targets

The answer to a request accepts the target and nothing else, and hardly anything but the target
enters into it: only a table shows which of the two sets was named.

* `Selector.select_exact`: only the empty set is refused, and every answer accepts its target;
* `Selector.select_determined_by_target`: answers are equal for equal targets, but for tables, and
  different for different ones.
-/

namespace Bytewise

/-! ## Matchers of a set -/

namespace Matcher

/-- The members of the set are accepted, and no other byte is. -/
def Decides (m : Matcher) (s : ByteSet) : Prop := ∀ b, m.accepts b = true ↔ b ∈ s

variable {m : Matcher} {s t : ByteSet}

theorem Decides.toSet_eq (h : m.Decides s) : m.toSet = s :=
  ByteSet.ext fun b => mem_toSet.trans (h b)

theorem Decides.eq (hs : m.Decides s) (ht : m.Decides t) : s = t :=
  ByteSet.ext fun b => (hs b).symm.trans (ht b)

/-- A rule for a set, turned round or not, decides the complement or the set. -/
theorem decides_rule {r : Rule} (h : ∀ b, r.accepts b = true ↔ b ∈ s) (inverted : Bool) :
    (rule r inverted).Decides (s.complementIf inverted) := by
  intro b
  have hb : r.accepts b = s.contains b := Bool.eq_iff_iff.mpr (h b)
  rw [ByteSet.mem_complementIf, ← hb]
  rfl

end Matcher

namespace Selector

variable {sel : Selector} {s s₁ s₂ target : ByteSet} {inverse i₁ i₂ : Bool} {m : Matcher}

/-! ## Every form is right -/

theorem sizedForms_sound (h : FirstOf (sizedForms target) m) :
    m.Decides target ∧ m.kind ≠ .table := by
  obtain ⟨p, hp, hm⟩ := exists_of_firstOf h
  simp only [sizedForms, List.mem_cons, List.not_mem_nil, or_false] at hp
  rcases hp with rfl | rfl | rfl | rfl
  · obtain ⟨v, hv, rfl⟩ := hm
    refine ⟨fun b => ?_, by simp [Matcher.kind]⟩
    rw [hv, Matcher.accepts, beq_iff_eq]
  · obtain ⟨l, hl, rfl⟩ := hm
    refine ⟨fun b => ?_, by simp [Matcher.kind]⟩
    rw [hl, Matcher.accepts, Letter.folds_iff]
  · obtain ⟨v, hv, rfl⟩ := hm
    refine ⟨fun b => ?_, by simp [Matcher.kind]⟩
    rw [Matcher.accepts, bne_iff_ne, Ne, ← hv, ByteSet.mem_complement, not_not]
  · obtain ⟨hnone, rfl⟩ := hm
    refine ⟨fun b => ?_, by simp [Matcher.kind]⟩
    have hb : b ∉ target.complement := hnone ▸ ByteSet.not_mem_empty b
    rw [ByteSet.mem_complement, not_not] at hb
    simp [Matcher.accepts, hb]

/-- Every rule form is some rule for the set, and none is a table. -/
theorem exists_rule_of_ruleForms {inverted : Bool} (h : FirstOf (sel.ruleForms s inverted) m) :
    ∃ r : Rule, (∀ b, r.accepts b = true ↔ b ∈ s) ∧ r.kind ≠ .table ∧ m = .rule r inverted := by
  obtain ⟨p, hp, hm⟩ := exists_of_firstOf h
  simp only [ruleForms, List.mem_cons, List.not_mem_nil, or_false] at hp
  rcases hp with rfl | rfl | rfl | rfl
  · obtain ⟨mask, hmask, rfl⟩ := hm
    refine ⟨.allBits mask, fun b => ?_, by simp [Rule.kind], rfl⟩
    rw [hmask]
    exact Mask.covers_eq_true_iff
  · obtain ⟨mask, ⟨_, hmask⟩, rfl⟩ := hm
    refine ⟨.anyBit mask, fun b => ?_, by simp [Rule.kind], rfl⟩
    rw [hmask]
    exact Mask.meets_eq_true_iff
  · obtain ⟨i, hi, rfl⟩ := hm
    refine ⟨.span i, fun b => ?_, by simp [Rule.kind], rfl⟩
    rw [hi]
    exact Span.contains_iff
  · obtain ⟨_, rfl⟩ := hm
    refine ⟨.listed (.ofSet s), fun b => ?_, by simp [Rule.kind], rfl⟩
    rw [Rule.accepts, Listing.contains_ofSet, ByteSet.mem_iff]

theorem ruleForms_sound {inverted : Bool} (h : FirstOf (sel.ruleForms s inverted) m) :
    m.Decides (s.complementIf inverted) ∧ m.kind ≠ .table := by
  obtain ⟨r, hr, hkind, rfl⟩ := exists_rule_of_ruleForms h
  exact ⟨Matcher.decides_rule hr inverted, hkind⟩

/-- The rules for the complement are turned round, which takes the complement back. -/
theorem cheapForms_sound (h : FirstOf (sel.cheapForms target) m) :
    m.Decides target ∧ m.kind ≠ .table := by
  rw [cheapForms, firstOf_append, firstOf_append] at h
  rcases h with h | ⟨_, h | ⟨_, h⟩⟩
  · exact sizedForms_sound h
  · exact ruleForms_sound h
  · have hm := ruleForms_sound h
    rw [ByteSet.complementIf, if_pos rfl, ByteSet.complement_complement] at hm
    exact hm

/-! ## Exactness -/

/-- What is found without a table is right; the zero mask is, for the empty target. -/
theorem cheap?_sound (h : sel.cheap? target = some m) : m.Decides target ∧ m.kind ≠ .table := by
  by_cases htarget : target = .empty
  · rw [htarget, cheap?_empty] at h
    rw [← Option.some.inj h, htarget]
    refine ⟨fun b => ?_, by simp [Matcher.kind, Rule.kind]⟩
    simp [Matcher.accepts, Rule.accepts, Mask.meets_zero, ByteSet.not_mem_empty]
  · exact cheapForms_sound ((sel.finds_cheap? htarget m).mp h)

theorem decides_choose (sel : Selector) (s : ByteSet) (inverse : Bool) :
    (sel.choose s inverse).Decides (s.complementIf inverse) := by
  rw [choose_eq]
  cases h : sel.cheap? (s.complementIf inverse) with
  | none => exact Matcher.decides_rule (fun b => Iff.rfl) inverse
  | some m => exact (cheap?_sound h).1

theorem select_empty (sel : Selector) (inverse : Bool) :
    sel.select .empty inverse = .error .emptySet :=
  if_pos (ByteSet.isEmpty_iff.mpr rfl)

/-- **Selection is exact.** Whatever else is asked, the empty set is refused and it alone; any other
request is answered by a matcher that accepts the target and nothing else. So do the answers of the
selector that lists fewer than 16 bytes, the one that is taken unless another is named. -/
theorem select_exact (sel : Selector) (s : ByteSet) (inverse : Bool) :
    (sel.select s inverse = .error .emptySet ↔ s = .empty) ∧
    (s ≠ .empty → ∃ m, sel.select s inverse = .ok m ∧
      ∀ b, m.accepts b = true ↔ (s.contains b != inverse) = true) ∧
    ({} : Selector).listBelow = 16 ∧
    (s ≠ .empty → ∃ m, Selector.select {} s inverse = .ok m ∧
      m.toSet = if inverse then s.complement else s) := by
  refine ⟨?_, ?_, rfl, ?_⟩
  · by_cases h : s = .empty
    · rw [h, select_empty]
      simp
    · rw [sel.select_of_ne_empty h]
      simp [h]
  · intro h
    refine ⟨sel.choose s inverse, sel.select_of_ne_empty h inverse, fun b => ?_⟩
    rw [sel.decides_choose s inverse b, ByteSet.mem_complementIf]
  · intro h
    refine ⟨_, select_of_ne_empty {} h inverse, ?_⟩
    exact (decides_choose {} s inverse).toSet_eq

theorem select_exact_five :
    (∃ m, Selector.select ⟨0⟩ (.ofList [5]) true = .ok m ∧
      ∀ b, m.accepts b = true ↔ ((ByteSet.ofList [5]).contains b != true) = true) ∧
    (∃ m, Selector.select {} (.ofList [5]) true = .ok m ∧
      m.toSet = (ByteSet.ofList [5]).complement) := by
  have h : ByteSet.ofList [5] ≠ .empty := by decide +kernel
  obtain ⟨_, hanswer, _, hdefault⟩ := select_exact ⟨0⟩ (.ofList [5]) true
  exact ⟨hanswer h, hdefault h⟩

/-! ## Equal targets -/

theorem choose_of_target_eq (sel : Selector)
    (h : s₁.complementIf i₁ = s₂.complementIf i₂) :
    (sel.choose s₁ i₁).kind ≠ .table ∧ sel.choose s₁ i₁ = sel.choose s₂ i₂ ∨
      sel.choose s₁ i₁ = .rule (.table s₁) i₁ ∧ sel.choose s₂ i₂ = .rule (.table s₂) i₂ := by
  rw [choose_eq, choose_eq, ← h]
  cases hc : sel.cheap? (s₁.complementIf i₁) with
  | none => exact Or.inr ⟨rfl, rfl⟩
  | some m => exact Or.inl ⟨(cheap?_sound hc).2, rfl⟩

theorem target_eq_of_choose_eq (h : sel.choose s₁ i₁ = sel.choose s₂ i₂) :
    s₁.complementIf i₁ = s₂.complementIf i₂ := by
  have h₁ := sel.decides_choose s₁ i₁
  rw [h] at h₁
  exact h₁.eq (sel.decides_choose s₂ i₂)

theorem table_eq_iff (h : s₁.complementIf i₁ = s₂.complementIf i₂) :
    Matcher.rule (.table s₁) i₁ = .rule (.table s₂) i₂ ↔ i₁ = i₂ := by
  constructor
  · intro he
    injection he
  · intro hi
    rw [hi] at h
    rw [hi, ByteSet.complementIf_inj.mp h]

/-- **The answer shows the target, and the named set only in a table.** Two requests with one target
get one answer, or two tables, which are equal when the requests have the same sense and otherwise
hold complements of each other. Requests with different targets get different answers. -/
theorem select_determined_by_target (sel : Selector) :
    (∀ s₁ i₁ s₂ i₂, s₁ ≠ .empty → s₂ ≠ .empty →
      ∃ m₁ m₂, sel.select s₁ i₁ = .ok m₁ ∧ sel.select s₂ i₂ = .ok m₂ ∧
        (s₁.complementIf i₁ = s₂.complementIf i₂ →
          m₁.kind = m₂.kind ∧ (m₁.kind ≠ .table → m₁ = m₂) ∧
          (m₁.kind = .table →
            m₁ = .rule (.table s₁) i₁ ∧ m₂ = .rule (.table s₂) i₂ ∧ (m₁ = m₂ ↔ i₁ = i₂) ∧
            (i₁ ≠ i₂ → s₂ = s₁.complement ∧ i₂ = !i₁))) ∧
        (s₁.complementIf i₁ ≠ s₂.complementIf i₂ → m₁ ≠ m₂)) ∧
    (∀ s, s ≠ .empty → s ≠ .full →
      ∃ m m', sel.select s true = .ok m ∧ sel.select s.complement false = .ok m' ∧
        (m = m' ∨ m = .rule (.table s) true ∧ m' = .rule (.table s.complement) false)) := by
  constructor
  · intro s₁ i₁ s₂ i₂ h₁ h₂
    refine ⟨_, _, sel.select_of_ne_empty h₁ i₁, sel.select_of_ne_empty h₂ i₂, ?_, ?_⟩
    · intro htarget
      rcases sel.choose_of_target_eq htarget with ⟨hkind, heq⟩ | ⟨ht₁, ht₂⟩
      · exact ⟨congrArg Matcher.kind heq, fun _ => heq, fun hk => absurd hk hkind⟩
      · rw [ht₁, ht₂]
        refine ⟨rfl, fun hk => absurd rfl hk, fun _ => ⟨rfl, rfl, table_eq_iff htarget, ?_⟩⟩
        exact ByteSet.eq_complement_of_complementIf_eq htarget
    · intro htarget heq
      exact htarget (target_eq_of_choose_eq heq)
  · intro s hs hfull
    have hs' : s.complement ≠ .empty := fun he =>
      hfull ((ByteSet.complementIf_eq_empty_iff hs true).mp he).1
    have htarget : s.complementIf true = s.complement.complementIf false := rfl
    refine ⟨_, _, sel.select_of_ne_empty hs true, sel.select_of_ne_empty hs' false, ?_⟩
    exact (sel.choose_of_target_eq htarget).imp_left And.right

theorem select_determined_by_target_pair :
    (∃ m₁ m₂, Selector.select ⟨0⟩ (.ofList [1, 5]) true = .ok m₁ ∧
      Selector.select ⟨0⟩ (ByteSet.ofList [1, 5]).complement false = .ok m₂ ∧
      m₁.kind = m₂.kind ∧ m₁ ≠ m₂) ∧
    (∃ m₁ m₂, Selector.select ⟨0⟩ (.ofList [1, 5]) true = .ok m₁ ∧
      Selector.select ⟨0⟩ (.ofList [1, 5]) false = .ok m₂ ∧ m₁ ≠ m₂) := by
  have hpair : ByteSet.ofList [1, 5] ≠ .empty := by decide +kernel
  have hothers : (ByteSet.ofList [1, 5]).complement ≠ .empty := by decide +kernel
  have htable : Selector.select ⟨0⟩ (.ofList [1, 5]) true =
      .ok (.rule (.table (.ofList [1, 5])) true) := by decide +kernel
  have hdiff : (ByteSet.ofList [1, 5]).complementIf true ≠
      (ByteSet.ofList [1, 5]).complementIf false := by decide +kernel
  constructor
  · obtain ⟨m₁, m₂, h₁, h₂, hsame, _⟩ :=
      (select_determined_by_target ⟨0⟩).1 (.ofList [1, 5]) true _ false hpair hothers
    obtain ⟨hkind, _, htables⟩ := hsame rfl
    have hk : m₁.kind = .table := by
      rw [← Except.ok.inj (htable.symm.trans h₁)]
      rfl
    refine ⟨m₁, m₂, h₁, h₂, hkind, fun he => ?_⟩
    exact absurd ((htables hk).2.2.1.mp he) (by decide)
  · obtain ⟨m₁, m₂, h₁, h₂, _, hne⟩ :=
      (select_determined_by_target ⟨0⟩).1 (.ofList [1, 5]) true (.ofList [1, 5]) false hpair hpair
    exact ⟨m₁, m₂, h₁, h₂, hne hdiff⟩

end Selector

end Bytewise

import Bytewise.Proofs.ByteSet.Candidates
import Bytewise.Selector.Basic

/-!
# The first form that fits

The order of the forms, stated without the functions that look for them: a form is the set of the
matchers that can be chosen in it, for whatever parameter, and the choice is a matcher of the first
form that has any.

* `FirstOf`: of a row of alternatives, what the first one allows that allows anything;
* `Finds`: an attempt that finds just that, and how attempts are put in a row;
* `Selector.preference`: the forms of the answers to a request, in their order;
* `Selector.choose_eq_iff_firstOf`: the answer is of the first form that has a matcher;
* `Selector.select_firstOf`: the same of requests, the empty target included.
-/

namespace Bytewise

/-! ## Alternatives in order -/

/-- `x` is allowed by an alternative, and those before it allow nothing at all. -/
def FirstOf {α : Type} : List (α → Prop) → α → Prop
  | [], _ => False
  | p :: ps, x => p x ∨ (∀ y, ¬ p y) ∧ FirstOf ps x

section FirstOf

variable {α : Type} {o o' : Option α} {p : α → Prop} {ps qs : List (α → Prop)} {x d : α}

theorem firstOf_append :
    FirstOf (ps ++ qs) x ↔ FirstOf ps x ∨ (∀ y, ¬ FirstOf ps y) ∧ FirstOf qs x := by
  induction ps with
  | nil => simp [FirstOf]
  | cons p ps ih =>
    simp only [List.cons_append, FirstOf, ih]
    by_cases hp : ∀ y, ¬ p y
    · have hx : ∀ y, (p y ∨ (∀ y, ¬ p y) ∧ FirstOf ps y) ↔ FirstOf ps y := by
        intro y
        simp [hp y, hp]
      simp only [hx]
      simp [hp x, hp]
    · simp [hp]

theorem exists_of_firstOf (h : FirstOf ps x) : ∃ p ∈ ps, p x := by
  induction ps with
  | nil => exact False.elim h
  | cons p ps ih =>
    rcases h with h | ⟨_, h⟩
    · exact ⟨p, List.mem_cons_self .., h⟩
    · obtain ⟨q, hq, hx⟩ := ih h
      exact ⟨q, List.mem_cons_of_mem _ hq, hx⟩

/-- An attempt finds exactly what the first of the alternatives allows. -/
def Finds (o : Option α) (ps : List (α → Prop)) : Prop := ∀ x, o = some x ↔ FirstOf ps x

theorem finds_single (h : ∀ x, o = some x ↔ p x) : Finds o [p] := by
  intro x
  simp [FirstOf, h x]

theorem finds_map {β : Type} {o : Option β} {f : β → α} {q : β → Prop}
    (h : ∀ a, o = some a ↔ q a) : Finds (o.map f) [fun x => ∃ a, q a ∧ x = f a] := by
  apply finds_single
  intro x
  simp only [Option.map_eq_some_iff, h, eq_comm]

theorem finds_if {c c' : Prop} [Decidable c] {a : α} (h : c ↔ c') :
    Finds (if c then some a else none) [fun x => c' ∧ x = a] := by
  apply finds_single
  intro x
  rw [Option.ite_none_right_eq_some, Option.some_inj, h, eq_comm]

theorem Finds.none_iff (h : Finds o ps) : o = none ↔ ∀ x, ¬ FirstOf ps x :=
  (Answers.eq_none_iff h).trans not_exists

/-- The second attempt is made when the first finds nothing. -/
theorem Finds.orElse (h : Finds o ps) (h' : Finds o' qs) : Finds (o <|> o') (ps ++ qs) := by
  intro x
  rw [firstOf_append, ← h x, ← h' x, ← h.none_iff]
  cases o <;> simp

theorem Finds.getD_eq_iff (h : Finds o ps) : o.getD d = x ↔ FirstOf (ps ++ [(· = d)]) x := by
  rw [firstOf_append, ← h x, ← h.none_iff]
  cases o <;> simp [FirstOf, eq_comm]

end FirstOf

/-! ## Targets -/

namespace ByteSet

variable {s t : ByteSet} {inverse i j : Bool}

theorem complementIf_not (s : ByteSet) (inverse : Bool) :
    s.complementIf (!inverse) = (s.complementIf inverse).complement := by
  cases inverse with
  | false => rfl
  | true => exact (complement_complement s).symm

theorem complementIf_inj : s.complementIf inverse = t.complementIf inverse ↔ s = t := by
  cases inverse with
  | false => exact Iff.rfl
  | true =>
    constructor
    · intro h
      have hc : s.complement.complement = t.complement.complement := congrArg _ h
      rwa [complement_complement, complement_complement] at hc
    · intro h
      rw [h]

/-- The complement of the full set is the only empty target of a request. -/
theorem complementIf_eq_empty_iff (h : s ≠ .empty) (inverse : Bool) :
    s.complementIf inverse = .empty ↔ s = .full ∧ inverse = true := by
  cases inverse with
  | false => simp [complementIf, h]
  | true =>
    constructor
    · intro he
      have hfull : s.complementIf true = full.complementIf true := he.trans complement_full.symm
      exact ⟨complementIf_inj.mp hfull, rfl⟩
    · rintro ⟨rfl, _⟩
      exact complement_full

/-- Requests in different senses have equal targets only for complements of each other. -/
theorem eq_complement_of_complementIf_eq (h : s.complementIf i = t.complementIf j) (hij : i ≠ j) :
    t = s.complement ∧ j = !i := by
  have hj : j = !i := by
    cases i <;> cases j <;> simp at hij ⊢
  refine ⟨?_, hj⟩
  have hs : s.complement.complementIf i = (s.complementIf i).complement := by
    cases i <;> rfl
  have ht : t.complementIf i = s.complement.complementIf i := by
    rw [hs, h, hj, complementIf_not, complement_complement]
  exact complementIf_inj.mp ht

end ByteSet

namespace Selector

/-! ## The forms -/

/-- The forms for targets of one byte, of the cases of a letter, of all bytes but one, of all. -/
def sizedForms (target : ByteSet) : List (Matcher → Prop) :=
  [fun m => ∃ v, (∀ b, b ∈ target ↔ b = v) ∧ m = .one v,
   fun m => ∃ l : Letter, (∀ b, b ∈ target ↔ b = l.upper ∨ b = l.lower) ∧ m = .letter l,
   fun m => ∃ v, (∀ b, b ∈ target.complement ↔ b = v) ∧ m = .allBut v,
   fun m => target.complement = .empty ∧ m = .any]

/-- The rules that accept exactly the members of a set, asked in one of the two senses. -/
def ruleForms (sel : Selector) (s : ByteSet) (inverted : Bool) : List (Matcher → Prop) :=
  [fun m => ∃ mask, (∀ b, b ∈ s ↔ b &&& mask = mask) ∧ m = .rule (.allBits mask) inverted,
   fun m => ∃ mask, (mask ≠ 0 ∧ ∀ b, b ∈ s ↔ b &&& mask ≠ 0) ∧ m = .rule (.anyBit mask) inverted,
   fun m => ∃ i : Span, (∀ b, b ∈ s ↔ i.first ≤ b ∧ b ≤ i.last) ∧ m = .rule (.span i) inverted,
   fun m => s.card < sel.listBelow ∧ m = .rule (.listed (.ofSet s)) inverted]

/-- The forms that are cheaper than a table. -/
def cheapForms (sel : Selector) (target : ByteSet) : List (Matcher → Prop) :=
  sizedForms target ++ (sel.ruleForms target false ++ sel.ruleForms target.complement true)

/-- All forms in their order. The table is of the set named, not of the target. -/
def preference (sel : Selector) (s : ByteSet) (inverse : Bool) : List (Matcher → Prop) :=
  sel.cheapForms (s.complementIf inverse) ++ [(· = .rule (.table s) inverse)]

/-! ## The attempts find the forms -/

/-- The sizes tell the forms apart, so that they can as well be tried in turn. -/
theorem sizedForm?_eq {target : ByteSet} (h : target ≠ .empty) :
    sizedForm? target =
      ((if target.card = 1 then target.min? else none).map .one <|>
        (target.letter?.map .letter <|>
          ((if target.card = 255 then target.missing.head? else none).map .allBut <|>
            (if target.card = 256 then some .any else none)))) := by
  have h0 : target.card ≠ 0 := fun h0 => h (ByteSet.card_eq_zero_iff.mp h0)
  have hletter : target.card ≠ 2 → target.letter? = none := ByteSet.letter?_of_card_ne
  -- The size settles which of the attempts are made; a size of none of the forms leaves none.
  unfold sizedForm?
  split <;> simp_all

theorem finds_sizedForm? {target : ByteSet} (h : target ≠ .empty) :
    Finds (sizedForm? target) (sizedForms target) := by
  have hone : Finds ((if target.card = 1 then target.min? else none).map Matcher.one) _ :=
    finds_map fun v => Option.ite_none_right_eq_some.trans ByteSet.mem_iff_eq_iff.symm
  have hletter : Finds (target.letter?.map Matcher.letter) _ :=
    finds_map fun l => ByteSet.letter?_eq_some_iff
  have hbut : Finds ((if target.card = 255 then target.missing.head? else none).map
      Matcher.allBut) _ :=
    finds_map fun v => Option.ite_none_right_eq_some.trans ByteSet.mem_complement_iff_eq_iff.symm
  have hany : Finds (if target.card = 256 then some Matcher.any else none) _ :=
    finds_if ByteSet.complement_eq_empty_iff.symm
  rw [sizedForm?_eq h]
  exact hone.orElse (hletter.orElse (hbut.orElse hany))

/-- What is made of a rule can be made of each kind of rule before they are tried in turn. -/
theorem map_rule? (sel : Selector) (s : ByteSet) (f : Rule → Matcher) :
    (sel.rule? s).map f =
      (s.allBitsMask?.map (fun mask => f (.allBits mask)) <|>
        (s.anyBitMask?.map (fun mask => f (.anyBit mask)) <|>
          (s.span?.map (fun i => f (.span i)) <|>
            (if s.card < sel.listBelow then some (f (.listed (.ofSet s))) else none)))) := by
  unfold rule?
  cases s.allBitsMask? <;> cases s.anyBitMask? <;> cases s.span? <;> split <;> rfl

theorem finds_rule? (sel : Selector) (s : ByteSet) (inverted : Bool) :
    Finds ((sel.rule? s).map (.rule · inverted)) (sel.ruleForms s inverted) := by
  have hall : Finds (s.allBitsMask?.map fun mask => Matcher.rule (.allBits mask) inverted) _ :=
    finds_map fun mask => ByteSet.allBitsMask?_eq_some_iff
  have hany : Finds (s.anyBitMask?.map fun mask => Matcher.rule (.anyBit mask) inverted) _ :=
    finds_map fun mask => ByteSet.anyBitMask?_eq_some_iff
  have hspan : Finds (s.span?.map fun i => Matcher.rule (.span i) inverted) _ :=
    finds_map fun i => ByteSet.span?_eq_some_iff
  have hlisted : Finds (if s.card < sel.listBelow then
      some (Matcher.rule (.listed (.ofSet s)) inverted) else none) _ :=
    finds_if Iff.rfl
  rw [map_rule?]
  exact hall.orElse (hany.orElse (hspan.orElse hlisted))

/-! ## The choice -/

/-- What is chosen before the table is. -/
def cheap? (sel : Selector) (target : ByteSet) : Option Matcher :=
  sizedForm? target
    <|> (sel.rule? target).map (.rule · false)
    <|> (sel.rule? target.complement).map (.rule · true)

theorem choose_eq (sel : Selector) (s : ByteSet) (inverse : Bool) :
    sel.choose s inverse =
      (sel.cheap? (s.complementIf inverse)).getD (.rule (.table s) inverse) := by
  unfold choose
  rw [ByteSet.complementIf_not]
  rfl

theorem finds_cheap? (sel : Selector) {target : ByteSet} (h : target ≠ .empty) :
    Finds (sel.cheap? target) (sel.cheapForms target) :=
  (finds_sizedForm? h).orElse
    ((sel.finds_rule? target false).orElse (sel.finds_rule? target.complement true))

/-- **The answer is of the first form that has a matcher.** -/
theorem choose_eq_iff_firstOf (sel : Selector) {s : ByteSet} {inverse : Bool}
    (h : s.complementIf inverse ≠ .empty) (m : Matcher) :
    sel.choose s inverse = m ↔ FirstOf (sel.preference s inverse) m := by
  rw [choose_eq]
  exact (sel.finds_cheap? h).getD_eq_iff

theorem cheap?_empty (sel : Selector) : sel.cheap? .empty = some (.rule (.anyBit 0) false) := by
  have hcard : ByteSet.empty.card = 0 := ByteSet.card_eq_zero_iff.mpr rfl
  simp [cheap?, sizedForm?, hcard]

theorem select_of_ne_empty (sel : Selector) {s : ByteSet} (h : s ≠ .empty) (inverse : Bool) :
    sel.select s inverse = .ok (sel.choose s inverse) :=
  if_neg fun he => h (ByteSet.isEmpty_iff.mp he)

/-- **Requests are answered by the first form that fits.** No matcher of any other form fits first,
and no other matcher of that form fits. The target is empty only if the complement of the full set
is asked for. -/
theorem select_firstOf (sel : Selector) (s : ByteSet) (inverse : Bool) (h : s ≠ .empty) :
    (s.complementIf inverse = .empty ↔ s = .full ∧ inverse = true) ∧
    (s.complementIf inverse = .empty → sel.select s inverse = .ok (.rule (.anyBit 0) false)) ∧
    (s.complementIf inverse ≠ .empty →
      ∃ m, sel.select s inverse = .ok m ∧
        ∀ m', FirstOf (sel.preference s inverse) m' ↔ m' = m) := by
  rw [sel.select_of_ne_empty h]
  refine ⟨ByteSet.complementIf_eq_empty_iff h inverse, ?_, ?_⟩
  · intro htarget
    rw [choose_eq, htarget, cheap?_empty]
    rfl
  · intro htarget
    refine ⟨sel.choose s inverse, rfl, fun m' => ?_⟩
    rw [← sel.choose_eq_iff_firstOf htarget, eq_comm]

theorem select_firstOf_full_and_pair :
    Selector.select {} .full true = .ok (.rule (.anyBit 0) false) ∧
    FirstOf (Selector.preference ⟨0⟩ (.ofList [1, 5]) true)
      (.rule (.table (.ofList [1, 5])) true) := by
  have hfull : ByteSet.full ≠ .empty := by decide +kernel
  have hpair : ByteSet.ofList [1, 5] ≠ .empty := by decide +kernel
  have hothers : (ByteSet.ofList [1, 5]).complementIf true ≠ .empty := by decide +kernel
  have hanswer : Selector.select ⟨0⟩ (.ofList [1, 5]) true =
      .ok (.rule (.table (.ofList [1, 5])) true) := by decide +kernel
  refine ⟨(select_firstOf {} .full true hfull).2.1 ByteSet.complement_full, ?_⟩
  obtain ⟨m, hm, hfirst⟩ := (select_firstOf ⟨0⟩ (.ofList [1, 5]) true hpair).2.2 hothers
  rw [hfirst]
  exact Except.ok.inj (hanswer.symm.trans hm)

end Selector

end Bytewise

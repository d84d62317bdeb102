import Bytewise.Proofs.ByteSet.Overlap
import Bytewise.Proofs.Selector.Attempts

/-!
# The normal form of answers

An answer is reached only when the attempts before it have failed, each on one of the two sides of
the target. So not every matcher can be an answer: a parameter is ruled out when it describes a set
for which something comes earlier.

* `Normal`: the matchers that remain, encoding by encoding;
* `normal_rule`: a rule that was found, in either sense;
* `normal_of_chosen`: the choice;
* `select_normal`: the same of requests, and when there are no tables.
-/

namespace Bytewise

namespace Selector

open Mask

variable {sel : Selector} {s t : ByteSet} {inverse inverted : Bool} {r : Rule} {m : Matcher}

/-- What holds of an answer to a request. The masks have neither all bits nor none, and no single
bit is left to meet; the zero mask stands for the empty target only. A rule is turned round only
where the target is no interval itself and too large for a listing, a listing is taken only where
there is no interval, and a table only where both sides are too large for a listing. -/
def Normal (sel : Selector) (s : ByteSet) (inverse : Bool) : Matcher → Prop
  | .rule (.allBits mask) inverted =>
    (1 ≤ weight mask ∧ weight mask ≤ 7) ∧ (inverted = true → ∀ k, mask ≠ upFrom k)
  | .rule (.anyBit mask) inverted =>
    (mask = 0 ∧ inverted = false ∧ s = .full ∧ inverse = true) ∨
      (2 ≤ weight mask ∧ weight mask ≤ 7) ∧ (inverted = true → ∀ k, mask ≠ upFrom k)
  | .rule (.span i) inverted =>
    (i.first < i.last ∧ i.size ≤ 254) ∧ (inverted = true → 0 < i.first ∧ i.last < 255)
  | .rule (.listed l) inverted =>
    (2 ≤ l.size ∧ l.size < sel.listBelow) ∧ (∀ i : Span, l.toList ≠ i.toList) ∧
      (inverted = false → ∀ x : Letter, l.toList ≠ x.toList) ∧
      (inverted = true → sel.listBelow ≤ (Matcher.rule (.listed l) inverted).cardinality)
  | .rule (.table t) inverted =>
    (t = s ∧ inverted = inverse) ∧ sel.listBelow ≤ s.card ∧ sel.listBelow ≤ 256 - s.card
  | _ => True

/-! ## Rules -/

/-- A rule that was found is normal. Asked as it is it must not be for a letter, and turned round it
must not be for the complement of an interval or of a short listing. -/
theorem normal_rule (hcard : 2 ≤ t.card ∧ t.card ≤ 254) (h : Settled sel t r)
    (hdirect : inverted = false → t.letter? = none)
    (hturned : inverted = true → t.complement.span? = none ∧ sel.listBelow ≤ t.complement.card) :
    Normal sel s inverse (.rule r inverted) := by
  cases h with
  | @allBits mask hall =>
    have ht : ByteSet.covering mask = t :=
      ByteSet.covering_eq_iff.mpr (ByteSet.allBitsMask?_eq_some_iff.mp hall)
    subst ht
    rw [ByteSet.card_covering] at hcard
    have hweight := weight_of_coverCount hcard
    have hmask : mask ≠ 0 := by
      rintro rfl
      exact absurd hweight.1 (by decide)
    exact ⟨hweight, fun hi => ByteSet.ne_upFrom_of_covering hmask (hturned hi).1⟩
  | @anyBit mask hall hany =>
    obtain ⟨hmask, hany⟩ := ByteSet.anyBitMask?_eq_some_iff.mp hany
    have ht : ByteSet.meeting mask = t := ByteSet.meeting_eq_iff.mpr hany
    subst ht
    have hsum := (ByteSet.meeting mask).card_complement
    rw [ByteSet.card_complement_meeting] at hsum
    have hweight : 1 ≤ weight mask ∧ weight mask ≤ 7 := weight_of_coverCount (by omega)
    -- A single bit would have been found as the mask that all members cover.
    have hone : weight mask ≠ 1 := by
      intro hone
      rw [ByteSet.meeting_eq_covering hone, ByteSet.allBitsMask?_eq_some_iff.mpr
        fun b => ByteSet.mem_covering] at hall
      cases hall
    refine Or.inr ⟨⟨by omega, hweight.2⟩, fun hi => ?_⟩
    exact ByteSet.ne_upFrom_of_meeting hmask (hturned hi).1
  | @span i hall hany hspan =>
    have hsize : t.card = i.size := by
      rw [ByteSet.card_eq_length_toList, ByteSet.toList_eq_span_iff.mpr hspan, Span.length_toList]
    have hlt : i.first < i.last := by
      rw [UInt8.lt_iff_toNat_lt]
      have := i.size_eq
      omega
    refine ⟨⟨hlt, by omega⟩, fun hi => ?_⟩
    exact ByteSet.inner_of_complement hspan (by omega) (hturned hi).1
  | listed hall hany hspan hlimit =>
    refine ⟨?_, fun i hi => ?_, fun hi l hl => ?_, fun hi => ?_⟩
    · rw [Listing.size_ofSet]
      exact ⟨hcard.1, hlimit⟩
    · rw [Listing.toList_ofSet, ByteSet.toList_eq_span_iff, hspan] at hi
      cases hi
    · rw [Listing.toList_ofSet, ByteSet.toList_eq_letter_iff, hdirect hi] at hl
      cases hl
    · have hsum := t.card_complement
      have hlarge := (hturned hi).2
      show sel.listBelow ≤ if inverted then _ else _
      rw [if_pos hi, Rule.count, Listing.size_ofSet]
      omega

/-! ## Answers -/

theorem normal_of_chosen (hs : s ≠ .empty) (h : Chosen sel s inverse m) :
    Normal sel s inverse m := by
  cases h with
  | sized hsized =>
    cases sizedForm?_eq_some_iff.mp hsized with
    | nothing htarget =>
      exact Or.inl ⟨rfl, rfl, (ByteSet.complementIf_eq_empty_iff hs inverse).mp htarget⟩
    | _ => trivial
  | direct hsized hdirect =>
    obtain ⟨hcard, hletter⟩ := sizedForm?_eq_none_iff.mp hsized
    exact normal_rule hcard (settled_of_rule?_eq_some hdirect) (fun _ => hletter) nofun
  | turned hsized hdirect hturned =>
    obtain ⟨hcard, _⟩ := sizedForm?_eq_none_iff.mp hsized
    have hsum := (s.complementIf inverse).card_complement
    obtain ⟨_, _, hspan, hlimit⟩ := rule?_eq_none_iff.mp hdirect
    refine normal_rule (by omega) (settled_of_rule?_eq_some hturned) nofun fun _ => ?_
    rw [ByteSet.complement_complement]
    exact ⟨hspan, hlimit⟩
  | table hsized hdirect hturned =>
    have hsum := s.card_complement
    obtain ⟨_, _, _, hlimit⟩ := rule?_eq_none_iff.mp hdirect
    obtain ⟨_, _, _, hlimit'⟩ := rule?_eq_none_iff.mp hturned
    rw [← ByteSet.complementIf_not] at hlimit'
    -- The two sides of the target are the set named and its complement, in one order or the other.
    have hsides : sel.listBelow ≤ s.card ∧ sel.listBelow ≤ s.complement.card := by
      cases inverse with
      | false => exact ⟨hlimit, hlimit'⟩
      | true => exact ⟨hlimit', hlimit⟩
    exact ⟨⟨rfl, rfl⟩, hsides.1, by omega⟩

theorem listBelow_of_normal_table (h : Normal sel s inverse m) (hkind : m.kind = .table) :
    sel.listBelow ≤ 128 := by
  cases m with
  | rule r inverted =>
    cases r with
    | table t =>
      obtain ⟨_, hlimit, hlimit'⟩ := h
      omega
    | _ => cases hkind
  | _ => cases hkind

/-- **Answers are in normal form.** Whatever is asked of whatever selector, the answer is one of the
matchers that remain. As a table has too many bytes on both sides, there is none where half of all
bytes can be listed. -/
theorem select_normal (sel : Selector) (s : ByteSet) (inverse : Bool) (h : s ≠ .empty) :
    ∃ m, sel.select s inverse = .ok m ∧ Normal sel s inverse m ∧
      (129 ≤ sel.listBelow → m.kind ≠ .table) := by
  have hnormal := normal_of_chosen h (sel.chosen_choose s inverse)
  refine ⟨_, sel.select_of_ne_empty h inverse, hnormal, fun hlimit hkind => ?_⟩
  have := listBelow_of_normal_table hnormal hkind
  omega

/-- A listing turned round, and a selector that has no use for tables. -/
theorem select_normal_pair :
    Normal ⟨3⟩ (.ofList [1, 5]) true (.rule (.listed (.ofSet (.ofList [1, 5]))) true) ∧
    ∃ m, Selector.select ⟨129⟩ (.ofList [1, 5]) true = .ok m ∧ m.kind ≠ .table := by
  have hpair : ByteSet.ofList [1, 5] ≠ .empty := by decide +kernel
  have hanswer : Selector.select ⟨3⟩ (.ofList [1, 5]) true =
      .ok (.rule (.listed (.ofSet (.ofList [1, 5]))) true) := by decide +kernel
  constructor
  · obtain ⟨m, hm, hnormal, _⟩ := select_normal ⟨3⟩ (.ofList [1, 5]) true hpair
    rw [← Except.ok.inj (hm.symm.trans hanswer)]
    exact hnormal
  · obtain ⟨m, hm, _, hkind⟩ := select_normal ⟨129⟩ (.ofList [1, 5]) true hpair
    exact ⟨m, hm, hkind (by decide)⟩

end Selector

end Bytewise

import Bytewise.Matcher.Basic
import Bytewise.Proofs.ByteSet.Ascending
import Bytewise.Proofs.Mask.Places

/-!
# The views of a matcher agree

Acceptance is one view of a matcher, the enumeration and the number of accepted bytes are two
others, each computed in the way of the encoding. All are tied to the list of the accepted bytes, as
it is had by trying every byte.

* `Cursor.yields_toList`: repeated steps of a cursor hand out what is to come;
* `Matcher.toList_eq_filter`: the enumeration is the list of the accepted bytes;
* `Rule.count_eq_length`, `Matcher.cardinality_eq_length`: so many they are;
* `Matcher.views_agree`: the views together.
-/

namespace Bytewise

/-! ## Steps of a cursor -/

namespace Cursor

/-- Repeated steps hand out the bytes of the list one after another, and after them nothing. -/
inductive Yields : Cursor → List Byte → Prop
  | nil {c : Cursor} : c.next.1 = none → Yields c []
  | cons {c : Cursor} {b : Byte} {bs : List Byte} :
      c.next.1 = some b → Yields c.next.2 bs → Yields c (b :: bs)

theorem yields_toList (c : Cursor) : c.Yields c.toList := by
  generalize hbs : c.toList = bs
  induction bs generalizing c with
  | nil =>
    have hc := c.toList_next
    rw [hbs] at hc
    cases hn : c.next with
    | mk o d =>
      rw [hn] at hc
      cases o with
      | none => exact Yields.nil (by rw [hn])
      | some b => cases hc
  | cons b bs ih =>
    have hc := c.toList_next
    rw [hbs] at hc
    cases hn : c.next with
    | mk o d =>
      rw [hn] at hc
      cases o with
      | none => cases hc
      | some b' =>
        obtain ⟨rfl, hd⟩ := List.cons.inj hc
        refine Yields.cons (by rw [hn]) ?_
        rw [hn]
        exact ih d hd.symm

end Cursor

/-! ## Filtered bytes -/

namespace Byte

theorem eq_filter_all {bs : List Byte} {p : Byte → Bool} (h : Ascending bs)
    (hm : ∀ b, b ∈ bs ↔ p b = true) : bs = all.filter p := by
  refine eq_of_ascending h (pairwise_all.filter _) fun b => ?_
  rw [hm, List.mem_filter]
  exact ⟨fun hb => ⟨mem_all b, hb⟩, And.right⟩

/-- Every byte passes a test or fails it. -/
theorem length_filter_add_length_filter_not (p : Byte → Bool) :
    (all.filter p).length + (all.filter fun b => !p b).length = 256 := by
  have h := List.length_eq_countP_add_countP p (l := all)
  simpa [List.countP_eq_length_filter] using h.symm

end Byte

theorem Span.toList_eq_filter (s : Span) : s.toList = Byte.all.filter s.contains :=
  Byte.eq_filter_all s.pairwise_toList fun _ => Span.mem_toList

theorem Listing.toList_eq_filter (l : Listing) : l.toList = Byte.all.filter l.contains :=
  Byte.eq_filter_all l.ascending fun _ => Listing.contains_iff.symm

/-! ## Counts -/

namespace Rule

theorem count_eq_length (r : Rule) : r.count = (Byte.all.filter r.accepts).length := by
  cases r with
  | allBits mask => exact (Mask.length_filter_covers mask).symm
  | anyBit mask =>
    have hsum := Byte.length_filter_add_length_filter_not (Mask.meets mask)
    rw [Mask.length_filter_not_meets] at hsum
    show 256 - Mask.coverCount mask = (Byte.all.filter (Mask.meets mask)).length
    omega
  | span s => exact s.length_toList.symm.trans (congrArg List.length s.toList_eq_filter)
  | listed l => exact congrArg List.length l.toList_eq_filter
  | table s => exact s.card_eq_length_toList

theorem count_le (r : Rule) : r.count ≤ 256 := by
  rw [r.count_eq_length]
  exact Byte.length_filter_all_le _

end Rule

namespace Matcher

/-- A rule asked as it is accepts what the rule accepts. -/
theorem accepts_rule_false (r : Rule) : (rule r false).accepts = r.accepts :=
  funext fun b => by simp [accepts]

/-- A rule turned round accepts what the rule refuses. -/
theorem accepts_rule_true (r : Rule) : (rule r true).accepts = fun b => !r.accepts b :=
  funext fun b => by simp [accepts]

/-- **The enumeration is the list of the accepted bytes.** A sieve is so by its definition. -/
theorem toList_eq_filter (m : Matcher) : m.toList = Byte.all.filter m.accepts := by
  cases m with
  | one v =>
    show [v] = Byte.all.filter (one v).accepts
    exact Byte.eq_filter_all (List.pairwise_singleton ..) fun b => by simp [accepts]
  | allBut v => rfl
  | any =>
    show Byte.all = Byte.all.filter any.accepts
    exact Byte.eq_filter_all Byte.pairwise_all fun b => by simp [accepts]
  | letter l =>
    have hl : Byte.Ascending l.toList := by simp [Letter.toList, l.upper_lt_lower]
    exact Byte.eq_filter_all hl fun b => Letter.mem_toList
  | rule r inverted =>
    cases inverted with
    | false =>
      rw [accepts_rule_false]
      cases r with
      | allBits mask => rw [← accepts_rule_false]; rfl
      | anyBit mask => rw [← accepts_rule_false]; rfl
      | span s => exact s.toList_eq_filter
      | listed l => exact l.toList_eq_filter
      | table s => rfl
    | true =>
      cases r with
      | allBits mask => rfl
      | anyBit mask => rfl
      | span s => rfl
      | listed l => rfl
      | table s => rw [accepts_rule_true]; rfl

theorem mem_toSet {m : Matcher} {b : Byte} : b ∈ m.toSet ↔ m.accepts b = true := by
  rw [toSet, ByteSet.mem_ofList, toList_eq_filter, List.mem_filter]
  exact ⟨And.right, fun h => ⟨Byte.mem_all b, h⟩⟩

theorem cardinality_eq_length (m : Matcher) : m.cardinality = m.toList.length := by
  cases m with
  | one v => rfl
  | allBut v =>
    have hsum := Byte.length_filter_add_length_filter_not (one v).accepts
    rw [← toList_eq_filter] at hsum
    have hone : (one v).toList.length = 1 := rfl
    show 255 = (Byte.all.filter fun b => !(one v).accepts b).length
    omega
  | any => exact Byte.length_all.symm
  | letter l => rfl
  | rule r inverted =>
    rw [toList_eq_filter]
    cases inverted with
    | false =>
      rw [accepts_rule_false]
      exact r.count_eq_length
    | true =>
      have hsum := Byte.length_filter_add_length_filter_not r.accepts
      have hcount := r.count_eq_length
      rw [accepts_rule_true]
      show 256 - r.count = _
      omega

/-- **The views of a matcher agree.** The cursor hands out an ascending list of bytes, the accepted
ones, and nothing after it; this list is the enumeration, and the cardinality is its length and the
number of bytes, out of all, that are accepted. -/
theorem views_agree (m : Matcher) :
    ∃ bs : List Byte, m.cursor.Yields bs ∧ bs.Pairwise (· < ·) ∧
      (∀ b, b ∈ bs ↔ m.accepts b = true) ∧ m.toList = bs ∧ m.cardinality = bs.length ∧
      m.cardinality = Byte.all.countP m.accepts ∧ m.cardinality ≤ 256 := by
  have hcount : m.cardinality = Byte.all.countP m.accepts := by
    rw [cardinality_eq_length, toList_eq_filter, List.countP_eq_length_filter]
  refine ⟨m.toList, m.cursor.yields_toList, ?_, ?_, rfl, m.cardinality_eq_length, hcount, ?_⟩
  · rw [toList_eq_filter]
    exact Byte.pairwise_all.filter _
  · intro b
    rw [toList_eq_filter, List.mem_filter]
    exact ⟨And.right, fun h => ⟨Byte.mem_all b, h⟩⟩
  · rw [hcount, ← Byte.length_all]
    exact List.countP_le_length

end Matcher

end Bytewise

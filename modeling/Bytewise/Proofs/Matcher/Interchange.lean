import Bytewise.Matcher.Scan
import Bytewise.Matcher.Text
import Bytewise.Proofs.Matcher.Views

/-!
# Matchers that cannot be told apart

Matchers that accept the same bytes give the same answers, whatever their encodings, as all views of
a matcher agree. Only their texts can still differ. Those of a listing and of a table of one set do
not, so that the one can stand for the other: what halving the window finds in the listing is what
the bit of the table shows.

* `Cursor.map_fst_trace`: what repeated steps of a cursor hand out is told by the bytes to come;
* `Matcher.alike_of_accepts_eq`: equal acceptance and equal texts are enough;
* `Matcher.listed_alike_table`: a listing and a table of one set.
-/

namespace Bytewise

namespace Cursor

/-- A step hands out the first of the bytes to come and leaves the others. A cursor at its end stays
there. -/
theorem next_eq (c : Cursor) : c.next.1 = c.toList.head? ∧ c.next.2.toList = c.toList.tail := by
  cases c with
  | listing rest => cases rest <;> exact ⟨rfl, rfl⟩
  | sieve accepts unread =>
    rw [next, toList, filter_eq_filter_dropWhile]
    cases h : unread.dropWhile (!accepts ·) with
    | nil => exact ⟨rfl, rfl⟩
    | cons b rest =>
      rw [List.filter_cons_of_pos (head_dropWhile h)]
      exact ⟨rfl, rfl⟩

theorem map_fst_trace (c : Cursor) (k : Nat) :
    (c.trace k).map Prod.fst = (List.range k).map fun i => c.toList[i]? := by
  induction k generalizing c with
  | zero => rfl
  | succ k ih =>
    obtain ⟨hhead, htail⟩ := c.next_eq
    rw [trace, List.map_cons, ih, htail, hhead, List.range_succ_eq_map, List.map_cons,
      List.map_map, List.head?_eq_getElem?]
    congr 1
    refine List.map_congr_left fun i _ => ?_
    rw [List.getElem?_tail]
    rfl

end Cursor

namespace Matcher

variable {m m' : Matcher}

/-- Nothing that can be asked of a matcher tells the two apart, however many steps their cursors
take. -/
structure Alike (m m' : Matcher) : Prop where
  accepts : ∀ b, m.accepts b = m'.accepts b
  cardinality : m.cardinality = m'.cardinality
  toList : m.toList = m'.toList
  steps : ∀ k, (m.cursor.trace k).map Prod.fst = (m'.cursor.trace k).map Prod.fst
  acceptsAt : ∀ bytes position, m.acceptsAt bytes position = m'.acceptsAt bytes position
  text : ∀ style, m.text style = m'.text style

theorem alike_of_accepts_eq (haccepts : ∀ b, m.accepts b = m'.accepts b)
    (htext : ∀ style, m.text style = m'.text style) : Alike m m' := by
  have hlist : m.toList = m'.toList := by
    rw [toList_eq_filter, toList_eq_filter, funext haccepts]
  refine ⟨haccepts, ?_, hlist, fun k => ?_, fun bytes position => ?_, htext⟩
  · rw [cardinality_eq_length, cardinality_eq_length, hlist]
  · rw [Cursor.map_fst_trace, Cursor.map_fst_trace]
    exact congrArg (fun bs : List Byte => (List.range k).map fun i => bs[i]?) hlist
  · unfold Matcher.acceptsAt
    simp only [haccepts]

/-- The text is made from the members, and a listing and a table have the same. -/
theorem text_listed_eq_text_table (s : ByteSet) (inverted : Bool) (style : Style) :
    (rule (.listed (.ofSet s)) inverted).text style = (rule (.table s) inverted).text style := by
  rw [text, text, chars, chars, Rule.chars, Rule.chars, Listing.toList_ofSet]

/-- **A listing and a table of one set are interchangeable**, in either sense. Their compact text is
that of the set. A byte is found in the listing, at a place where it stands, exactly when the table
has it. -/
theorem listed_alike_table (s : ByteSet) :
    (∀ inverted, Alike (rule (.listed (.ofSet s)) inverted) (rule (.table s) inverted)) ∧
    (rule (.listed (.ofSet s)) false).text .compact = s.text ∧
    (rule (.table s) false).text .compact = s.text ∧
    (∀ b, ((Listing.ofSet s).indexOf? b).isSome = s.contains b) ∧
    (∀ b i, (Listing.ofSet s).indexOf? b = some i → s.toList[i]? = some b) := by
  refine ⟨fun inverted => ?_, ?_, rfl, Listing.contains_ofSet s, fun b i hi => ?_⟩
  · refine alike_of_accepts_eq (fun b => ?_) (text_listed_eq_text_table s inverted)
    rw [accepts, accepts, Rule.accepts, Rule.accepts, Listing.contains_ofSet]
  · rw [text_listed_eq_text_table]
    rfl
  · have hfound := Listing.search_sound hi
    rwa [Listing.ofSet, List.getElem?_toArray] at hfound

end Matcher

end Bytewise

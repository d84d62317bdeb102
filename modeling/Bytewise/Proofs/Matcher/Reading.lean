import Bytewise.ByteSet.Shape
import Bytewise.Matcher.Text
import Bytewise.Proofs.Expression.Tokens
import Bytewise.Proofs.Matcher.Views

/-!
# Reading what is written of matchers

The text of a matcher is read back, first into tokens and then into the set of the bytes accepted.
Nothing has to be told of the style or of the encoding. Where the encoding is known, the tokens also
show its parameters.

* `expression?_tokens`: bracket expressions are read back, whatever their items;
* `spells_matcher`: the tokens of a matcher do not depend on the style;
* `Matcher.decode?_text`: the text of a matcher is read as the set of the accepted bytes;
* `Rule.SameKind`, `Matcher.SameKind`: pairs of one kind, case by case;
* `Matcher.eq_of_tokens_eq`: matchers of one kind with the same tokens are equal;
* `Matcher.text_faithful`: both, said of texts;
* `Span.text_encodings`: matchers of several kinds can have one text.
-/

namespace Bytewise

/-! ## Reading tokens -/

/-- The bytes that the items of an expression stand for, or all others. -/
def Expression.toSet (e : Expression) : ByteSet :=
  (ByteSet.ofList e.toList).complementIf e.inverted

namespace Token

/-- Reads items as far as the closing bracket. A byte with a dash behind it begins a range. -/
def items? : List Token → Option (List Item)
  | [.mark .closing] => some []
  | .byte lo :: .mark .dash :: .byte hi :: ts =>
    (Span.ofEnds? lo hi).bind fun s => (items? ts).map (.range s :: ·)
  | .byte b :: ts => (items? ts).map (.byte b :: ·)
  | _ => none

def expression? : List Token → Option Expression
  | .mark .opening :: .mark .caret :: ts => (items? ts).map (Expression.mk true)
  | .mark .opening :: ts => (items? ts).map (Expression.mk false)
  | _ => none

/-- The set of bytes that tokens describe. A caret in front of anything takes the complement. -/
def meaning? : List Token → Option ByteSet
  | .mark .caret :: ts => (meaning? ts).map ByteSet.complement
  | [.byte b] => some (.ofList [b])
  | [.mark .point] => some .full
  | [.letter l] => some (.ofList l.toList)
  | [.mark .ampersand, .byte mask] => some (.covering mask)
  | [.mark .tilde, .byte mask] => some (.meeting mask)
  | ts => (expression? ts).map Expression.toSet

theorem items?_tokens (is : List Item) :
    items? (is.flatMap Item.tokens ++ [.mark .closing]) = some is := by
  induction is with
  | nil => rfl
  | cons i is ih =>
    cases i with
    | byte b =>
      -- What follows the byte begins with a byte or closes the expression; it is no dash.
      cases is with
      | nil => rfl
      | cons j is => cases j <;> simp_all [Item.tokens, items?]
    | range s =>
      have hs : Span.ofEnds? s.first s.last = some s :=
        Span.ofEnds?_eq_some_iff.mpr ⟨rfl, rfl⟩
      simp_all [Item.tokens, items?]

theorem expression?_tokens (e : Expression) : expression? e.tokens = some e := by
  obtain ⟨inverted, items⟩ := e
  have hitems := items?_tokens items
  cases inverted with
  | true => simp [Expression.tokens, caretTokens, expression?, hitems]
  | false =>
    cases items with
    | nil => rfl
    | cons i is => cases i <;> simp_all [Expression.tokens, Item.tokens, caretTokens, expression?]

theorem meaning?_expression (e : Expression) : meaning? e.tokens = some e.toSet := by
  have hread : meaning? e.tokens = (expression? e.tokens).map Expression.toSet := rfl
  rw [hread, expression?_tokens, Option.map_some]

end Token

/-! ## The tokens of matchers -/

open Token

def Rule.tokens (inverted : Bool) : Rule → List Token
  | allBits mask => caretTokens inverted ++ [.mark .ampersand, .byte mask]
  | anyBit mask => caretTokens inverted ++ [.mark .tilde, .byte mask]
  | span s => (Expression.mk inverted [.range s]).tokens
  | listed l => (Expression.ofBytes inverted l.toList).tokens
  | table s => (Expression.ofBytes inverted s.toList).tokens

def Matcher.tokens : Matcher → List Token
  | one v => [.byte v]
  | allBut v => [.mark .caret, .byte v]
  | any => [.mark .point]
  | letter l => [.letter l]
  | rule r inverted => r.tokens inverted

theorem spells_rule (style : Style) (r : Rule) (inverted : Bool) :
    Spells (r.chars style inverted) (r.tokens inverted) := by
  -- The digits of a mask are written in either style.
  have hmask (m : Mark) (mask : Byte) :=
    (spells_caretIf inverted).append ((spells_mark m).append (spells_digits mask))
  cases r with
  | allBits mask => exact hmask .ampersand mask
  | anyBit mask => exact hmask .tilde mask
  | span s => exact spells_expression style _
  | listed l => exact spells_expression style _
  | table s => exact spells_expression style _

theorem spells_matcher (style : Style) (m : Matcher) : Spells (m.chars style) m.tokens := by
  cases m with
  | one v => exact spells_byte style v
  | allBut v => exact (spells_mark .caret).append (spells_byte style v)
  | any => exact spells_mark .point
  | letter l => exact spells_letter l
  | rule r inverted => exact spells_rule style r inverted

/-! ## What the tokens describe -/

/-- An expression whose items are for the bytes that pass a test describes them, or the others. -/
theorem meaning?_of_items (e : Expression) {p : Byte → Bool}
    (h : ∀ b, b ∈ e.toList ↔ p b = true) :
    meaning? e.tokens = some ((ByteSet.ofPred p).complementIf e.inverted) := by
  have hset : ByteSet.ofList e.toList = ByteSet.ofPred p :=
    ByteSet.ext fun b => by rw [ByteSet.mem_ofList, ByteSet.mem_ofPred, h]
  rw [meaning?_expression, Expression.toSet, hset]

/-- The tokens of a rule describe what the rule accepts, or what it refuses. -/
theorem meaning?_rule (r : Rule) (inverted : Bool) :
    meaning? (r.tokens inverted) = some ((ByteSet.ofPred r.accepts).complementIf inverted) := by
  cases r with
  | allBits mask => cases inverted <;> rfl
  | anyBit mask => cases inverted <;> rfl
  | span s =>
    have hs : (Expression.mk inverted [.range s]).toList = s.toList := List.append_nil _
    refine meaning?_of_items _ fun b => ?_
    rw [hs, Span.mem_toList, Rule.accepts]
  | listed l =>
    refine meaning?_of_items (.ofBytes inverted l.toList) fun b => ?_
    rw [Expression.toList_ofBytes, Rule.accepts, Listing.contains_iff]
  | table s =>
    refine meaning?_of_items (.ofBytes inverted s.toList) fun b => ?_
    rw [Expression.toList_ofBytes, Rule.accepts, ByteSet.mem_toList, ByteSet.mem_iff]

theorem Matcher.meaning?_tokens (m : Matcher) : meaning? m.tokens = some m.toSet := by
  suffices h : ∃ s, meaning? m.tokens = some s ∧ ∀ b, b ∈ s ↔ m.accepts b = true by
    obtain ⟨s, hs, hm⟩ := h
    rw [hs, ByteSet.ext fun b => (hm b).trans mem_toSet.symm]
  cases m with
  | one v =>
    refine ⟨_, rfl, fun b => ?_⟩
    simp [ByteSet.mem_ofList, accepts]
  | allBut v =>
    refine ⟨_, rfl, fun b => ?_⟩
    simp [ByteSet.mem_complement, ByteSet.mem_ofList, accepts]
  | any =>
    refine ⟨_, rfl, fun b => ?_⟩
    simp [ByteSet.mem_full, accepts]
  | letter l =>
    refine ⟨_, rfl, fun b => ?_⟩
    rw [ByteSet.mem_ofList, Letter.mem_toList, accepts]
  | rule r inverted =>
    refine ⟨_, meaning?_rule r inverted, fun b => ?_⟩
    have hr : (ByteSet.ofPred r.accepts).contains b = r.accepts b :=
      Bool.eq_iff_iff.mpr ByteSet.mem_ofPred
    rw [ByteSet.mem_complementIf, hr, accepts]

/-! ## Matchers of one kind -/

/-- Two rules of one kind, each with its parameter. -/
inductive Rule.SameKind : Rule → Rule → Prop
  | allBits (mask mask' : Byte) : SameKind (.allBits mask) (.allBits mask')
  | anyBit (mask mask' : Byte) : SameKind (.anyBit mask) (.anyBit mask')
  | span (s s' : Span) : SameKind (.span s) (.span s')
  | listed (l l' : Listing) : SameKind (.listed l) (.listed l')
  | table (s s' : ByteSet) : SameKind (.table s) (.table s')

theorem Rule.sameKind_of_kind_eq {r r' : Rule} (h : r.kind = r'.kind) : SameKind r r' := by
  cases r <;> cases r' <;> first | constructor | cases h

/-- Two matchers of one kind, each with its parameters. -/
inductive Matcher.SameKind : Matcher → Matcher → Prop
  | one (v v' : Byte) : SameKind (.one v) (.one v')
  | allBut (v v' : Byte) : SameKind (.allBut v) (.allBut v')
  | any : SameKind .any .any
  | letter (l l' : Letter) : SameKind (.letter l) (.letter l')
  | rule {r r' : Rule} (h : r.kind = r'.kind) (i i' : Bool) : SameKind (.rule r i) (.rule r' i')

theorem Matcher.sameKind_of_kind_eq {m m' : Matcher} (h : m.kind = m'.kind) : SameKind m m' := by
  cases m with
  | rule r i =>
    cases m' with
    | rule r' i' => exact SameKind.rule h i i'
    | _ => cases r <;> cases h
  | _ =>
    cases m' with
    | rule r' i' => cases r' <;> cases h
    | _ => first | constructor | cases h

/-! ## What the tokens show of the parameters -/

theorem Expression.tokens_inj {e e' : Expression} : e.tokens = e'.tokens ↔ e = e' := by
  constructor
  · intro h
    have hread := congrArg expression? h
    rw [expression?_tokens, expression?_tokens] at hread
    exact Option.some.inj hread
  · exact congrArg tokens

theorem Expression.ofBytes_inj {i i' : Bool} {bs bs' : List Byte} :
    ofBytes i bs = ofBytes i' bs' ↔ bs = bs' ∧ i = i' := by
  constructor
  · intro h
    have hbytes := congrArg toList h
    rw [toList_ofBytes, toList_ofBytes] at hbytes
    exact ⟨hbytes, congrArg inverted h⟩
  · rintro ⟨rfl, rfl⟩
    rfl

theorem Listing.toList_inj {l l' : Listing} : l.toList = l'.toList ↔ l = l' := by
  obtain ⟨values, _⟩ := l
  obtain ⟨values', _⟩ := l'
  rw [toList, toList, Array.toList_inj, mk.injEq]

/-- The tokens of a mask end in the mask, and a caret before it makes them one more. -/
theorem mask_tokens_inj {m : Mark} {mask mask' : Byte} {i i' : Bool} :
    caretTokens i ++ [.mark m, .byte mask] = caretTokens i' ++ [.mark m, .byte mask'] ↔
      mask = mask' ∧ i = i' := by
  cases i <;> cases i' <;> simp [caretTokens]

theorem Rule.eq_of_tokens_eq {r r' : Rule} {i i' : Bool} (hkind : r.kind = r'.kind)
    (h : r.tokens i = r'.tokens i') : r = r' ∧ i = i' := by
  cases sameKind_of_kind_eq hkind with
  | allBits mask mask' => exact (mask_tokens_inj.mp h).imp_left (congrArg allBits)
  | anyBit mask mask' => exact (mask_tokens_inj.mp h).imp_left (congrArg anyBit)
  | span s s' =>
    have he := Expression.tokens_inj.mp h
    simp only [Expression.mk.injEq, List.cons.injEq, Item.range.injEq, and_true] at he
    exact he.symm.imp_left (congrArg span)
  | listed l l' =>
    have he := Expression.ofBytes_inj.mp (Expression.tokens_inj.mp h)
    exact he.imp_left fun hl => congrArg listed (Listing.toList_inj.mp hl)
  | table s s' =>
    have he := Expression.ofBytes_inj.mp (Expression.tokens_inj.mp h)
    exact he.imp_left fun hs => congrArg table (ByteSet.toList_inj.mp hs)

namespace Matcher

variable {m m₁ m₂ : Matcher} {style style₁ style₂ : Style}

theorem eq_of_tokens_eq (hkind : m₁.kind = m₂.kind) (h : m₁.tokens = m₂.tokens) : m₁ = m₂ := by
  cases sameKind_of_kind_eq hkind with
  | one v v' => simpa [tokens] using h
  | allBut v v' => simpa [tokens] using h
  | any => rfl
  | letter l l' => simpa [tokens] using h
  | rule hrule i i' =>
    obtain ⟨rfl, rfl⟩ := Rule.eq_of_tokens_eq hrule h
    rfl

/-! ## Texts -/

theorem lex?_text (style : Style) (m : Matcher) : lex? (m.text style).toList = some m.tokens := by
  rw [text, String.toList_ofList]
  exact (spells_matcher style m).lex?_eq

/-- The set of bytes that a text describes. -/
def decode? (text : String) : Option ByteSet := (lex? text.toList).bind meaning?

theorem decode?_text (style : Style) (m : Matcher) : decode? (m.text style) = some m.toSet := by
  rw [decode?, lex?_text, Option.bind_some, meaning?_tokens]

example : decode? "[^'-' ']'-'_']" = some (ByteSet.ofList [45, 93, 94, 95]).complement := by
  decide +kernel

/-- Texts are equal only for equal tokens, though the styles may differ. -/
theorem tokens_eq_of_text_eq (h : m₁.text style₁ = m₂.text style₂) : m₁.tokens = m₂.tokens := by
  have hlex := lex?_text style₁ m₁
  rw [h, lex?_text] at hlex
  exact (Option.some.inj hlex).symm

theorem toSet_eq_of_text_eq (h : m₁.text style₁ = m₂.text style₂) : m₁.toSet = m₂.toSet := by
  have hread := decode?_text style₁ m₁
  rw [h, decode?_text] at hread
  exact (Option.some.inj hread).symm

theorem eq_of_text_eq (hkind : m₁.kind = m₂.kind) (h : m₁.text style₁ = m₂.text style₂) :
    m₁ = m₂ :=
  eq_of_tokens_eq hkind (tokens_eq_of_text_eq h)

/-- **The text of a matcher tells what it accepts.** One way of reading gives the accepted bytes of
every matcher from its text in either style, so that matchers with one text accept the same bytes.
If they are of one kind, they are even equal. -/
theorem text_faithful :
    (∀ (m : Matcher) (style : Style),
      decode? (m.text style) = some m.toSet ∧ ∀ b, b ∈ m.toSet ↔ m.accepts b = true) ∧
    (∀ (m₁ m₂ : Matcher) (style₁ style₂ : Style), m₁.text style₁ = m₂.text style₂ →
      ∀ b, m₁.accepts b = m₂.accepts b) ∧
    (∀ (m₁ m₂ : Matcher) (style₁ style₂ : Style), m₁.kind = m₂.kind →
      m₁.text style₁ = m₂.text style₂ → m₁ = m₂) := by
  refine ⟨fun m style => ⟨decode?_text style m, fun b => mem_toSet⟩, ?_, ?_⟩
  · intro m₁ m₂ style₁ style₂ h b
    rw [Bool.eq_iff_iff, ← mem_toSet, ← mem_toSet, toSet_eq_of_text_eq h]
  · intro m₁ m₂ style₁ style₂ hkind h
    exact eq_of_text_eq hkind h

/-- An interval and a table of digits; a listing of blanks, quotes, brackets and dashes. -/
theorem text_faithful_digits_and_marks :
    (∀ b, (rule (.span ⟨48, 57, by decide⟩) true).accepts b =
      (rule (.table (.ofList [48, 49, 50, 51, 52, 53, 54, 55, 56, 57])) true).accepts b) ∧
    rule (.listed (.ofSet (.ofList [32, 39, 45, 91, 93, 94]))) false =
      rule (.listed (.ofSet (.ofList [94, 45, 39, 93, 32, 91, 32]))) false := by
  obtain ⟨_, haccepts, hequal⟩ := text_faithful
  exact ⟨haccepts _ _ .compact .compact (by decide +kernel),
    hequal _ _ .pretty .pretty (by decide +kernel) (by decide +kernel)⟩

end Matcher

/-! ## Texts of several encodings -/

/-- An interval is a run of its own. -/
theorem Span.runs_toList (s : Span) : runs s.toList = [s] := by
  have hle := s.first_le_last_toNat
  generalize hn : s.last.toNat - s.first.toNat = n
  induction n generalizing s with
  | zero =>
    have heq : s = single s.first := by
      refine Span.ext rfl (UInt8.toNat_inj.mp ?_)
      show s.last.toNat = s.first.toNat
      omega
    rw [heq, toList_single]
    rfl
  | succ n ih =>
    have hlast := s.last.toNat_lt
    have hnext := Byte.toNat_succ_of_lt (b := s.first) (by omega)
    let t : Span := ⟨s.first + 1, s.last, UInt8.le_iff_toNat_le.mpr (by omega)⟩
    have hrest : runs t.toList = [t] := by
      refine ih t t.first_le_last_toNat ?_
      show s.last.toNat - (s.first + 1).toNat = n
      omega
    have hstep : s.first.toNat + 1 = t.first.toNat := hnext.symm
    have hlist : s.toList = s.first :: t.toList := toList_extendDown hstep
    rw [hlist, runs, hrest]
    exact dif_pos hstep

/-- The matchers that hold the bytes of an interval as such, as a listing and as a table. -/
def Span.encodings (s : Span) (inverted : Bool) : List Matcher :=
  [.rule (.span s) inverted, .rule (.listed (.ofSet (.ofList s.toList))) inverted,
    .rule (.table (.ofList s.toList)) inverted]

/-- An interval of three or more bytes is written alike by all encodings that hold it. -/
theorem Span.text_encodings {s : Span} (h : 3 ≤ s.size) (inverted : Bool) (style : Style) :
    ∀ m ∈ s.encodings inverted, m.text style =
      String.ofList ((Expression.mk inverted [.range s]).chars style) := by
  have hlist : (ByteSet.ofList s.toList).toList = s.toList :=
    (ByteSet.toList_eq_iff s.pairwise_toList).mpr fun b => ByteSet.mem_ofList
  have hitems : Expression.ofBytes inverted s.toList = ⟨inverted, [.range s]⟩ := by
    rw [Expression.ofBytes, s.runs_toList, List.flatMap_singleton, Span.items, if_neg (by omega),
      if_neg (by omega)]
  intro m hm
  simp only [encodings, List.mem_cons, List.not_mem_nil, or_false] at hm
  rcases hm with rfl | rfl | rfl
  · rfl
  · rw [Matcher.text, Matcher.chars, Rule.chars, Listing.toList_ofSet, hlist, hitems]
  · rw [Matcher.text, Matcher.chars, Rule.chars, hlist, hitems]

end Bytewise

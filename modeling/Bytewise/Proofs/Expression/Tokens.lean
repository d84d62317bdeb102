import Bytewise.Expression
import Bytewise.Letter

/-!
# Tokens of expressions

What is written about bytes is cut into tokens: a byte, a letter between grave accents, or a mark. A
mark counts as such only outside of quotes, so that quoted characters which look like marks do no
harm. The two styles differ in the spelling of a byte and in the blanks between tokens, not in the
tokens.

* `Spells`: a text is cut into given tokens, whatever text follows;
* `Spells.append`: texts that spell tokens can be written one after another;
* `spells_byte`, `spells_items`, `spells_expression`: what is written in either style spells tokens
  in which the style leaves no trace.
-/

namespace Bytewise

/-- The characters that stand for themselves. -/
inductive Mark
  | point | caret | ampersand | tilde | opening | closing | dash
  deriving DecidableEq, Repr

namespace Mark

def char : Mark → Char
  | point => '.'
  | caret => '^'
  | ampersand => '&'
  | tilde => '~'
  | opening => '['
  | closing => ']'
  | dash => '-'

def ofChar? : Char → Option Mark
  | '.' => some point
  | '^' => some caret
  | '&' => some ampersand
  | '~' => some tilde
  | '[' => some opening
  | ']' => some closing
  | '-' => some dash
  | _ => none

end Mark

/-- The character of a byte shows the byte. -/
theorem Byte.toUInt8_ofUInt8 (b : Byte) : (Char.ofUInt8 b).toUInt8 = b :=
  UInt8.toUInt8_toUInt32 b

inductive Token
  | byte (b : Byte)
  | letter (l : Letter)
  | mark (m : Mark)
  deriving DecidableEq, Repr

namespace Token

/-- Cuts a text into tokens. Blanks between tokens are passed over; two characters that are neither
quoted nor marks must be the digits of a byte. -/
def lex? : List Char → Option (List Token)
  | [] => some []
  | ' ' :: cs => lex? cs
  | '\x27' :: c :: '\x27' :: cs => (lex? cs).map (.byte c.toUInt8 :: ·)
  | '\x60' :: c :: '\x60' :: cs =>
    (Letter.ofByte? c.toUInt8).bind fun l => (lex? cs).map (.letter l :: ·)
  | c :: cs =>
    match Mark.ofChar? c with
    | some m => (lex? cs).map (.mark m :: ·)
    | none =>
      match cs with
      | low :: cs => (Hex.byte? c low).bind fun b => (lex? cs).map (.byte b :: ·)
      | [] => none

/-- The text is cut into the tokens, and the text behind it is cut as if it stood alone. -/
def Spells (cs : List Char) (ts : List Token) : Prop :=
  ∀ rest, lex? (cs ++ rest) = (lex? rest).map (ts ++ ·)

variable {cs cs' : List Char} {ts ts' : List Token} {style : Style}

theorem Spells.lex?_eq (h : Spells cs ts) : lex? cs = some ts := by
  have hnil := h []
  rw [List.append_nil] at hnil
  simpa [lex?] using hnil

theorem spells_nil : Spells [] [] := by
  intro rest
  simp

theorem Spells.append (h : Spells cs ts) (h' : Spells cs' ts') :
    Spells (cs ++ cs') (ts ++ ts') := by
  intro rest
  rw [List.append_assoc, h, h', Option.map_map]
  congr 1
  funext us
  exact (List.append_assoc ts ts' us).symm

/-! ## Single tokens -/

theorem spells_mark (m : Mark) : Spells [m.char] [.mark m] := by
  intro rest
  cases m <;> rfl

theorem spells_blank : Spells [' '] [] := by
  intro rest
  simp [lex?]

theorem spells_letter (l : Letter) :
    Spells ['\x60', Char.ofUInt8 l.lower, '\x60'] [.letter l] := by
  intro rest
  have hl : Letter.ofByte? l.lower = some l := Letter.ofByte?_eq_some_iff.mpr (Or.inr rfl)
  simp [lex?, Byte.toUInt8_ofUInt8, hl]

theorem spells_quoted (b : Byte) : Spells ['\x27', Char.ofUInt8 b, '\x27'] [.byte b] := by
  intro rest
  simp [lex?, Byte.toUInt8_ofUInt8]

/-- No digit is a quote, a grave accent or a mark. -/
theorem digitChar_plain : ∀ n, n < 16 →
    Nat.digitChar n ≠ '\x27' ∧ Nat.digitChar n ≠ '\x60' ∧
      Mark.ofChar? (Nat.digitChar n) = none := by
  decide

theorem spells_digits (b : Byte) : Spells (Hex.ofByte b) [.byte b] := by
  intro rest
  have hb := b.toNat_lt
  obtain ⟨hquote, haccent, hmark⟩ := digitChar_plain (b.toNat / 16) (by omega)
  have hbyte := Hex.byte?_ofByte b
  simp [Hex.ofByte, lex?, hquote, haccent, hmark, hbyte]

theorem spells_byte (style : Style) (b : Byte) : Spells (Byte.chars style b) [.byte b] := by
  unfold Byte.chars
  split
  · exact spells_quoted b
  · exact spells_digits b

theorem spells_separator (style : Style) : Spells style.separator [] := by
  cases style with
  | compact => exact spells_nil
  | pretty => exact spells_blank

/-- The caret of what is turned round. -/
def caretTokens (inverted : Bool) : List Token := if inverted then [.mark .caret] else []

theorem spells_caretIf (inverted : Bool) : Spells (caretIf inverted) (caretTokens inverted) := by
  cases inverted with
  | false => exact spells_nil
  | true => exact spells_mark .caret

end Token

/-! ## Items and expressions -/

open Token

def Item.tokens : Item → List Token
  | byte b => [.byte b]
  | range s => [.byte s.first, .mark .dash, .byte s.last]

theorem spells_item (style : Style) (i : Item) : Spells (i.chars style) i.tokens := by
  cases i with
  | byte b => exact spells_byte style b
  | range s =>
    have hdash := (spells_byte style s.first).append (spells_mark .dash)
    simpa [Item.chars, Item.tokens, Mark.char] using hdash.append (spells_byte style s.last)

theorem spells_items (style : Style) (is : List Item) :
    Spells (style.separator.intercalate (is.map (Item.chars style))) (is.flatMap Item.tokens) := by
  induction is with
  | nil => exact spells_nil
  | cons i is ih =>
    cases is with
    | nil => simpa using spells_item style i
    | cons j is =>
      rw [List.map_cons, List.map_cons, List.intercalate_cons_cons, List.flatMap_cons]
      simpa using ((spells_item style i).append (spells_separator style)).append ih

def Expression.tokens (e : Expression) : List Token :=
  .mark .opening :: caretTokens e.inverted ++ e.items.flatMap Item.tokens ++ [.mark .closing]

theorem spells_expression (style : Style) (e : Expression) :
    Spells (e.chars style) e.tokens := by
  have hhead := (spells_mark .opening).append (spells_caretIf e.inverted)
  have hitems := hhead.append (spells_items style e.items)
  exact hitems.append (spells_mark .closing)

end Bytewise

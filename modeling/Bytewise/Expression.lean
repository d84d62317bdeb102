import Bytewise.ByteSet.Order
import Bytewise.Digits
import Bytewise.Span

/-!
# Bracket expressions

A set of bytes in writing: items in brackets, after a caret when the set is meant turned round. An
item is a byte or a range. Compact style writes digits only and joins the items without separator;
pretty style quotes the printable characters and puts a space between items.

Core Lean only.
-/

namespace Bytewise

inductive Style
  | compact
  | pretty
  deriving DecidableEq, Repr

namespace Style

/-- What stands between two items. -/
def separator : Style → List Char
  | compact => []
  | pretty => [' ']

end Style

namespace Byte

/-- A printable ASCII character, the single quote apart. -/
def isQuotable (b : Byte) : Bool := 0x20 ≤ b && b ≤ 0x7e && b != 0x27

/-- A byte in writing: two digits, or in pretty style the character in quotes if it can be. -/
def chars (style : Style) (b : Byte) : List Char :=
  if style = .pretty ∧ isQuotable b = true then ['\x27', Char.ofUInt8 b, '\x27'] else Hex.ofByte b

end Byte

/-- Marks what is turned round. -/
def caretIf (inverted : Bool) : List Char := if inverted then ['^'] else []

inductive Item
  | byte (b : Byte)
  | range (span : Span)
  deriving DecidableEq, Repr

namespace Item

/-- The bytes that an item stands for, ascending. -/
def toList : Item → List Byte
  | byte b => [b]
  | range s => s.toList

def chars (style : Style) : Item → List Char
  | byte b => Byte.chars style b
  | range s => Byte.chars style s.first ++ '-' :: Byte.chars style s.last

end Item

/-- One byte is written alone, two neighbours one after the other, and only three or more bytes as a
range. -/
def Span.items (s : Span) : List Item :=
  if s.size = 1 then [.byte s.first]
  else if s.size = 2 then [.byte s.first, .byte s.last]
  else [.range s]

structure Expression where
  inverted : Bool
  items : List Item
  deriving DecidableEq, Repr

namespace Expression

/-- Writes the runs of an ascending list. -/
def ofBytes (inverted : Bool) (bs : List Byte) : Expression :=
  ⟨inverted, (Span.runs bs).flatMap Span.items⟩

/-- The bytes that the items stand for, item by item. -/
def toList (e : Expression) : List Byte := e.items.flatMap Item.toList

def chars (style : Style) (e : Expression) : List Char :=
  '[' :: caretIf e.inverted ++ style.separator.intercalate (e.items.map (Item.chars style)) ++ [']']

theorem flatMap_items (s : Span) : s.items.flatMap Item.toList = s.toList := by
  have hlen := s.length_toList
  have hsize := s.size_eq
  have hle := s.first_le_last_toNat
  unfold Span.items
  split
  · rw [Span.toList, Byte.between, show s.last.toNat + 1 - s.first.toNat = 1 by omega]
    simp [Item.toList]
  · split
    · rw [Span.toList, Byte.between, show s.last.toNat + 1 - s.first.toNat = 2 by omega]
      simp [Item.toList, List.range'_succ, show s.first.toNat + 1 = s.last.toNat by omega]
    · exact List.append_nil _

/-- The items written for a list stand for its bytes, each once and in their order. -/
theorem toList_ofBytes (inverted : Bool) (bs : List Byte) :
    (ofBytes inverted bs).toList = bs := by
  rw [toList, ofBytes, List.flatMap_assoc]
  simp only [flatMap_items]
  exact Span.flatMap_runs bs

end Expression

namespace ByteSet

/-- The set in writing, compact. -/
def text (s : ByteSet) : String :=
  String.ofList ((Expression.ofBytes false s.toList).chars .compact)

end ByteSet

end Bytewise

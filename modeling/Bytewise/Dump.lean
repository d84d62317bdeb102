import Bytewise.Matcher.Basic
import Bytewise.Selector.Basic

/-!
# Dumps

Sets, matchers and selectors field by field, for whoever looks into them.

Core Lean only.
-/

namespace Bytewise.Dump

/-- A named record: the fields stand in braces, each after its name. -/
def record (name : String) (fields : List (String × String)) : String :=
  name ++ " \x7b " ++ String.intercalate ", " (fields.map fun f => f.1 ++ ": " ++ f.2) ++ " \x7d"

def ofByte (b : Byte) : String := Wording.ofNat b.toNat

def ofBytes (bs : List Byte) : String :=
  "[" ++ String.intercalate ", " (bs.map ofByte) ++ "]"

/-- A set is known by its size. -/
def ofSet (s : ByteSet) : String := "ByteSet(" ++ Wording.ofNat s.card ++ ")"

def ofRule (inverted : Bool) (r : Rule) : String :=
  let flag := ("inverted", Wording.ofFlag inverted)
  match r with
  | .allBits mask => record "AllBitmaskMatcher" [("mask", ofByte mask), flag]
  | .anyBit mask => record "AnyBitmaskMatcher" [("mask", ofByte mask), flag]
  | .span s => record "RangeMatcher" [("start", ofByte s.first), ("end", ofByte s.last), flag]
  | .listed l => record "SetMatcher" [("values", ofBytes l.toList), flag]
  | .table s => record "TableMatcher" [("set", ofSet s), flag]

def payload : Matcher → String
  | .one v => record "OneByteMatcher" [("value", ofByte v)]
  | .allBut v => record "InvertedByteMatcher" [("value", ofByte v)]
  | .any => "AnyByteMatcher"
  | .letter l => record "CaseInsensitiveMatcher" [("upper", ofByte l.upper)]
  | .rule r inverted => ofRule inverted r

/-- The kind of a matcher around what it holds. -/
def ofMatcher (m : Matcher) : String := m.kind.name ++ "(" ++ payload m ++ ")"

def ofSelector (s : Selector) : String :=
  record "SimpleMatcherFactory" [("set_threshold", Wording.ofNat s.listBelow)]

end Bytewise.Dump

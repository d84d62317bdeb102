import Bytewise.Cursor
import Bytewise.Letter
import Bytewise.Rule

/-!
# Matchers

A matcher accepts some bytes and refuses the others. Its encoding says how: one byte, all bytes but
one, every byte, the two cases of a letter, or a rule asked as it is or turned round.

Acceptance, the number of accepted bytes and their enumeration are computed apart from each other,
each in the way that suits the encoding.

Core Lean only.
-/

namespace Bytewise

inductive Matcher
  | one (value : Byte)
  | allBut (value : Byte)
  | any
  | letter (letter : Letter)
  | rule (rule : Rule) (inverted : Bool)
  deriving DecidableEq

/-- The encodings, without their parameters. -/
inductive Kind
  | one | allBut | any | letter | allBits | anyBit | span | listed | table
  deriving DecidableEq, Repr

namespace Kind

/-- The name under which a kind is reported. -/
def name : Kind → String
  | one => "One"
  | allBut => "InvertedOne"
  | any => "Any"
  | letter => "CaseInsensitive"
  | allBits => "AllBitmask"
  | anyBit => "AnyBitmask"
  | span => "Range"
  | listed => "Set"
  | table => "Table"

end Kind

def Rule.kind : Rule → Kind
  | allBits _ => .allBits
  | anyBit _ => .anyBit
  | span _ => .span
  | listed _ => .listed
  | table _ => .table

namespace Matcher

def kind : Matcher → Kind
  | one _ => .one
  | allBut _ => .allBut
  | any => .any
  | letter _ => .letter
  | rule r _ => r.kind

def accepts : Matcher → Byte → Bool
  | one v, b => b == v
  | allBut v, b => b != v
  | any, _ => true
  | letter l, b => l.folds b
  | rule r inverted, b => r.accepts b != inverted

/-- The number of accepted bytes, from 0 to 256. -/
def cardinality : Matcher → Nat
  | one _ => 1
  | allBut _ => 255
  | any => 256
  | letter _ => 2
  | rule r inverted => if inverted then 256 - r.count else r.count

/-- Enumerates the accepted bytes. Where they are at hand they are listed, else every byte is put
to the test. -/
def cursor : Matcher → Cursor
  | one v => .listing [v]
  | any => .listing Byte.all
  | letter l => .listing l.toList
  | rule (.span s) false => .listing s.toList
  | rule (.listed l) false => .listing l.toList
  | rule (.table s) false => .listing s.toList
  | rule (.table s) true => .listing s.missing
  | m => .sieve m.accepts Byte.all

/-- The accepted bytes, in the order of the cursor. -/
def toList (m : Matcher) : List Byte := m.cursor.toList

/-- The set of the enumerated bytes. -/
def toSet (m : Matcher) : ByteSet := ByteSet.ofList m.toList

end Matcher

end Bytewise

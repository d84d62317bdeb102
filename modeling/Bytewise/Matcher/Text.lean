import Bytewise.Expression
import Bytewise.Matcher.Basic

/-!
# Matchers in writing

One byte is written as in an expression, with a caret before it for all bytes but that one. A point
stands for every byte, a lower-case letter between grave accents for both its cases. The digits of a
mask follow an ampersand when all its bits count and a tilde when any does. Intervals, listings and
tables are bracket expressions.

Core Lean only.
-/

namespace Bytewise

def Rule.chars (style : Style) (inverted : Bool) : Rule → List Char
  | allBits mask => caretIf inverted ++ '&' :: Hex.ofByte mask
  | anyBit mask => caretIf inverted ++ '~' :: Hex.ofByte mask
  | span s => (Expression.mk inverted [.range s]).chars style
  | listed l => (Expression.ofBytes inverted l.toList).chars style
  | table s => (Expression.ofBytes inverted s.toList).chars style

namespace Matcher

def chars (style : Style) : Matcher → List Char
  | one v => Byte.chars style v
  | allBut v => '^' :: Byte.chars style v
  | any => ['.']
  | letter l => ['\x60', Char.ofUInt8 l.lower, '\x60']
  | rule r inverted => r.chars style inverted

def text (style : Style) (m : Matcher) : String := String.ofList (m.chars style)

end Matcher

end Bytewise

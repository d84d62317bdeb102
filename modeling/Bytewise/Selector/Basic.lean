import Bytewise.ByteSet.Shape
import Bytewise.Matcher.Basic

/-!
# Choice of a matcher

A request names a set and tells whether its complement is meant; the *target* is the set that is
meant. The answer is the first that fits of

1. the forms that the size of the target suggests: no byte, one byte, a letter, all bytes but one,
   every byte;
2. a rule for the target: all bits, any bit, interval, short listing;
3. a rule for the complement of the target, turned round;
4. a table of the set that was named.

Core Lean only.
-/

namespace Bytewise

/-- Listings are short when they have fewer than `listBelow` bytes. -/
structure Selector where
  listBelow : Nat := 16
  deriving DecidableEq, Repr

inductive SelectError
  /-- A request must name some byte, even when all others are meant. -/
  | emptySet
  deriving DecidableEq, Repr

namespace SelectError

def message : SelectError → String
  | emptySet => "Empty byte set passed to matcher factory"

end SelectError

namespace Selector

/-- The form that the size of the target suggests. Only the complement of the full set has no
members; the zero mask, which no byte meets, stands for it. -/
def sizedForm? (target : ByteSet) : Option Matcher :=
  match target.card with
  | 0 => some (.rule (.anyBit 0) false)
  | 1 => target.min?.map .one
  | 2 => target.letter?.map .letter
  | 255 => target.missing.head?.map .allBut
  | 256 => some .any
  | _ => none

/-- The rule that accepts exactly the members of a set, if there is one cheaper than a table. -/
def rule? (sel : Selector) (s : ByteSet) : Option Rule :=
  s.allBitsMask?.map .allBits
    <|> s.anyBitMask?.map .anyBit
    <|> s.span?.map .span
    <|> (if s.card < sel.listBelow then some (.listed (.ofSet s)) else none)

/-- The first fitting matcher for a set, or for its complement when `inverse` holds. -/
def choose (sel : Selector) (s : ByteSet) (inverse : Bool) : Matcher :=
  let target := s.complementIf inverse
  let others := s.complementIf (!inverse)
  let found := sizedForm? target
    <|> (sel.rule? target).map (.rule · false)
    <|> (sel.rule? others).map (.rule · true)
  found.getD (.rule (.table s) inverse)

/-- As `choose`, refusing the empty set. -/
def select (sel : Selector) (s : ByteSet) (inverse : Bool) : Except SelectError Matcher :=
  if s.isEmpty then .error .emptySet else .ok (sel.choose s inverse)

end Selector

end Bytewise

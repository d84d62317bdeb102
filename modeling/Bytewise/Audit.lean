import Bytewise.Distinct
import Bytewise.Matcher.Scan
import Bytewise.Matcher.Text

/-!
# Audits

Compares everything that a matcher tells with the set it should accept, and names the first
discrepancy: acceptance byte by byte, then the number, the enumeration and its length, and at last
the positions of the row of all bytes.

Core Lean only.
-/

namespace Bytewise

inductive Discrepancy
  /-- Acceptance of one byte differs. -/
  | byte (b : Byte) (found expected : Bool)
  | cardinality (found expected : Nat)
  /-- The enumerations differ at a place, or one of them ends there. -/
  | enumeration (place : Nat) (found expected : Option Byte)
  /-- The enumeration is not as long as the matcher tells. -/
  | length (found expected : Nat)
  | position (p : Nat) (found expected : Bool)
  /-- The position behind the last byte is accepted. -/
  | pastEnd
  deriving DecidableEq, Repr

namespace Discrepancy

/-- Two values that should be equal, after a note that may be empty. -/
def unequal (note left right : String) : String :=
  "assertion " ++ "\x60left == right\x60 failed" ++ note ++ "\n  left: " ++ left ++ "\n right: "
    ++ right

/-- Two values that should be equal, after what they are. -/
def contrast (subject left right : String) : String := unequal (": " ++ subject) left right

def message (m : Matcher) : Discrepancy → String
  | byte b found expected =>
    contrast ("matches(0x" ++ String.ofList (Hex.ofByte b) ++ ") for " ++ m.text .compact)
      (Wording.ofFlag found) (Wording.ofFlag expected)
  | cardinality found expected =>
    contrast "cardinality" (Wording.ofNat found) (Wording.ofNat expected)
  | enumeration place found expected =>
    "Failed assertion " ++ Wording.ofNat? (found.map UInt8.toNat) ++ " == "
      ++ Wording.ofNat? (expected.map UInt8.toNat) ++ " for iteration " ++ Wording.ofNat place
  | length found expected => unequal "" (Wording.ofNat found) (Wording.ofNat expected)
  | position _ found expected => unequal "" (Wording.ofFlag found) (Wording.ofFlag expected)
  | pastEnd => "assertion failed: !matcher.matches_at(&haystack, haystack.len())"

end Discrepancy

namespace Matcher

/-- The smallest byte that is accepted but should not be, or the other way round. -/
def firstDisagreement? (m : Matcher) (expected : ByteSet) : Option Byte :=
  Byte.all.find? fun b => m.accepts b != expected.contains b

/-- The first position of the row of all bytes where acceptance is not as expected. -/
def firstMisplaced? (m : Matcher) (expected : ByteSet) : Option Nat :=
  (List.range 256).find? fun p =>
    m.acceptsAt Byte.all p != expected.contains (UInt8.ofNat p)

def audit (m : Matcher) (expected : ByteSet) : Option Discrepancy :=
  match m.firstDisagreement? expected with
  | some b => some (.byte b (m.accepts b) (expected.contains b))
  | none =>
    if m.cardinality ≠ expected.card then some (.cardinality m.cardinality expected.card)
    else match firstDifference? m.toList expected.toList with
      | some i => some (.enumeration i m.toList[i]? expected.toList[i]?)
      | none =>
        if m.toList.length ≠ m.cardinality then some (.length m.toList.length m.cardinality)
        else match m.firstMisplaced? expected with
          | some p =>
            some (.position p (m.acceptsAt Byte.all p) (expected.contains (UInt8.ofNat p)))
          | none => if m.acceptsAt Byte.all Byte.all.length then some .pastEnd else none

end Matcher

end Bytewise

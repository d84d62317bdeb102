import Bytewise.Digits

/-!
# Faults

What can be wrong with the arguments of a checked constructor or of a sampler.

Core Lean only.
-/

namespace Bytewise

inductive Fault
  /-- An interval whose first byte lies above its last. -/
  | reversedSpan (first last : Byte)
  /-- A byte that is no ASCII letter where a letter is needed. -/
  | notALetter (byte : Byte)
  /-- More values wanted than there are bytes. -/
  | tooManyValues
  /-- A run of no values, or of more than there are bytes. -/
  | runLength
  deriving DecidableEq, Repr

namespace Fault

/-- The bytes of an interval are named in decimal, a byte that is no letter in hexadecimal. -/
def message : Fault → String
  | reversedSpan first last =>
    "invalid byte range " ++ Wording.ofNat first.toNat ++ "..=" ++ Wording.ofNat last.toNat
  | notALetter byte =>
    "case insensitive matcher requires an ASCII letter, got 0x" ++ String.ofList (Hex.ofByte byte)
  | tooManyValues => "a byte set holds at most 256 values"
  | runLength => "run length must be within 1..=256"

end Fault

end Bytewise

import Bytewise.Byte

/-!
# Digits

Numbers are written in decimal. A byte is also written with two lower-case hexadecimal digits, high
digit first; reading these accepts either case. Flags are written as words.

* `Hex.byte?_ofByte`: the two digits of a byte read back as that byte.

Core Lean only.
-/

namespace Bytewise

namespace Wording

def ofFlag : Bool → String
  | true => "true"
  | false => "false"

/-- Decimal digits, without leading zeros. -/
def ofNat (n : Nat) : String := String.ofList (Nat.toDigits 10 n)

/-- A number that may be missing. -/
def ofNat? : Option Nat → String
  | some n => "Some(" ++ ofNat n ++ ")"
  | none => "None"

end Wording

/-! ## Hexadecimal -/

namespace Hex

/-- The two digits of a byte. -/
def ofByte (b : Byte) : List Char :=
  [Nat.digitChar (b.toNat / 16), Nat.digitChar (b.toNat % 16)]

/-- The digits of a row of bytes, without separators. -/
def ofBytes (bs : List Byte) : List Char := bs.flatMap ofByte

/-- The value of one digit, `none` for any other character. -/
def digit? (c : Char) : Option Nat :=
  if '0' ≤ c ∧ c ≤ '9' then some (c.toNat - 48)
  else if 'a' ≤ c ∧ c ≤ 'f' then some (c.toNat - 87)
  else if 'A' ≤ c ∧ c ≤ 'F' then some (c.toNat - 55)
  else none

/-- The byte with the given high and low digits. -/
def byte? (high low : Char) : Option Byte :=
  match digit? high, digit? low with
  | some h, some l => some (UInt8.ofNat (16 * h + l))
  | _, _ => none

/-- Reads pairs of digits; refuses an odd number of characters and anything that is no digit. -/
def toBytes? : List Char → Option (List Byte)
  | [] => some []
  | [_] => none
  | high :: low :: rest =>
    match byte? high low, toBytes? rest with
    | some b, some bs => some (b :: bs)
    | _, _ => none

theorem digit?_digitChar : ∀ n, n < 16 → digit? (Nat.digitChar n) = some n := by
  decide

theorem byte?_ofByte (b : Byte) :
    byte? (Nat.digitChar (b.toNat / 16)) (Nat.digitChar (b.toNat % 16)) = some b := by
  have hb := b.toNat_lt
  rw [byte?, digit?_digitChar _ (by omega), digit?_digitChar _ (by omega)]
  simp only [Nat.div_add_mod, UInt8.ofNat_toNat]

end Hex

end Bytewise

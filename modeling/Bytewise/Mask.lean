import Bytewise.Byte

/-!
# Bit masks

A byte read as a set of eight bits. A byte *covers* a mask when it has all of the mask's bits, and
*meets* it when it has at least one.

Core Lean only.
-/

namespace Bytewise.Mask

/-- `b` has every bit of `mask`. -/
def covers (mask b : Byte) : Bool := b &&& mask == mask

/-- `b` has some bit of `mask`. -/
def meets (mask b : Byte) : Bool := b &&& mask != 0

/-- The number of bits set. -/
def weight (mask : Byte) : Nat := mask.toBitVec.cpop.toNat

/-- Each bit outside the mask is free, so this many bytes cover the mask. -/
def coverCount (mask : Byte) : Nat := 1 <<< (8 - weight mask)

/-- A byte with exactly one bit set. -/
def isSingleBit (b : Byte) : Bool := weight b == 1

theorem covers_self (mask : Byte) : covers mask mask = true := by simp [covers]

theorem meets_zero (b : Byte) : meets 0 b = false := by simp [meets]

theorem weight_le (mask : Byte) : weight mask ≤ 8 := by
  rw [weight, BitVec.cpop, BitVec.toNat_ofNat]
  exact Nat.le_trans (Nat.mod_le _ _) (BitVec.cpopNatRec_le 8)

end Bytewise.Mask

import Bytewise.Listing
import Bytewise.Mask
import Bytewise.Span

/-!
# Rules

A test of bytes that can be asked either way round: all bits of a mask, some bit of a mask, an
interval, a short listing, a whole set. Each counts what it accepts without trying the bytes.

Core Lean only.
-/

namespace Bytewise

inductive Rule
  | allBits (mask : Byte)
  | anyBit (mask : Byte)
  | span (span : Span)
  | listed (listing : Listing)
  | table (set : ByteSet)
  deriving DecidableEq

namespace Rule

def accepts : Rule → Byte → Bool
  | allBits mask, b => Mask.covers mask b
  | anyBit mask, b => Mask.meets mask b
  | span s, b => s.contains b
  | listed l, b => l.contains b
  | table s, b => s.contains b

/-- The number of bytes accepted. The bytes that meet no bit of a mask are as many as those that
cover the mask: either way its bits are settled and the others free. -/
def count : Rule → Nat
  | allBits mask => Mask.coverCount mask
  | anyBit mask => 256 - Mask.coverCount mask
  | span s => s.size
  | listed l => l.size
  | table s => s.card

end Rule

end Bytewise

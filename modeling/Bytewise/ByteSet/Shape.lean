import Bytewise.ByteSet.Order
import Bytewise.Letter
import Bytewise.Mask
import Bytewise.Span

/-!
# Shapes of sets

The sets that a cheaper test can stand for: all bytes that cover a mask, all bytes that meet one, an
interval, the two cases of a letter. Each shape has one candidate, computed from the members, and a
check that settles it.

Core Lean only.
-/

namespace Bytewise.ByteSet

/-- The bytes that have every bit of the mask. -/
def covering (mask : Byte) : ByteSet := ofPred (Mask.covers mask)

/-- The bytes that have some bit of the mask. -/
def meeting (mask : Byte) : ByteSet := ofPred (Mask.meets mask)

/-- The mask that exactly the members cover. Only the bits common to all members can make it. -/
def allBitsMask? (s : ByteSet) : Option Byte :=
  if s.isEmpty then none
  else
    let mask := s.toList.foldl (· &&& ·) 255
    if covering mask = s then some mask else none

/-- The nonzero mask that exactly the members meet. Its single bits meet it, and no other single
bit does, so the members with one bit make it up. -/
def anyBitMask? (s : ByteSet) : Option Byte :=
  let mask := (s.toList.filter Mask.isSingleBit).foldl (· ||| ·) 0
  if mask = 0 then none
  else if meeting mask = s then some mask
  else none

/-- The interval that the set is. The members lie between the ends, so their number tells whether
one is missing. -/
def span? (s : ByteSet) : Option Span :=
  match s.min?, s.max? with
  | some lo, some hi => if (hi - lo).toNat + 1 = s.card then Span.ofEnds? lo hi else none
  | _, _ => none

/-- The first member, when the members are two letters 32 apart. The cases of a letter are. -/
def casePair? (s : ByteSet) : Option Byte :=
  if s.card = 2 then
    match s.min?, s.max? with
    | some lo, some hi =>
      if Byte.isLetter lo && Byte.isLetter hi && hi - lo == 32 then some lo else none
    | _, _ => none
  else none

/-- The letter whose two cases the set is, made from the first of them. -/
def letter? (s : ByteSet) : Option Letter := s.casePair?.bind Letter.ofByte?

theorem mem_covering {mask b : Byte} : b ∈ covering mask ↔ b &&& mask = mask := by
  rw [covering, mem_ofPred, Mask.covers, beq_iff_eq]

theorem mem_meeting {mask b : Byte} : b ∈ meeting mask ↔ b &&& mask ≠ 0 := by
  rw [meeting, mem_ofPred, Mask.meets, bne_iff_ne]

theorem casePair?_of_card_ne {s : ByteSet} (h : s.card ≠ 2) : s.casePair? = none := if_neg h

theorem letter?_of_card_ne {s : ByteSet} (h : s.card ≠ 2) : s.letter? = none := by
  rw [letter?, casePair?_of_card_ne h, Option.bind_none]

end Bytewise.ByteSet

import Bytewise.Matcher.Basic

/-!
# Matching within a row of bytes

Core Lean only.
-/

namespace Bytewise.Matcher

/-- The byte at a position is accepted. No position outside the row is. -/
def acceptsAt (m : Matcher) (bytes : List Byte) (position : Nat) : Bool :=
  match bytes[position]? with
  | some b => m.accepts b
  | none => false

/-- The accepted positions, ascending. The position behind the last byte is tried too. -/
def positions (m : Matcher) (bytes : List Byte) : List Nat :=
  (List.range (bytes.length + 1)).filter (m.acceptsAt bytes)

theorem acceptsAt_of_length_le {m : Matcher} {bytes : List Byte} {position : Nat}
    (h : bytes.length ≤ position) : m.acceptsAt bytes position = false := by
  rw [acceptsAt, List.getElem?_eq_none h]

theorem mem_positions {m : Matcher} {bytes : List Byte} {position : Nat} :
    position ∈ m.positions bytes ↔ m.acceptsAt bytes position = true := by
  rw [positions, List.mem_filter, List.mem_range]
  constructor
  · exact And.right
  · intro h
    refine ⟨Nat.lt_of_not_le fun hle => ?_, h⟩
    rw [acceptsAt_of_length_le (by omega)] at h
    cases h

end Bytewise.Matcher

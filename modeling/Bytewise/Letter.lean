import Bytewise.Fault

/-!
# Letters

An ASCII letter regardless of case, kept as its upper-case byte.

* `ofByte?_eq_some_iff`: a letter is had from its two cases and from nothing else;
* `folds_iff`: folding a byte to upper case accepts exactly those two.

Core Lean only.
-/

namespace Bytewise

@[ext]
structure Letter where
  upper : Byte
  isUpper_upper : Byte.isUpper upper = true
  deriving DecidableEq, Repr

namespace Letter

/-- The letter that a byte is a case of. -/
def ofByte? (b : Byte) : Option Letter :=
  if h : Byte.isLetter b = true then some ⟨Byte.toUpper b, Byte.isUpper_toUpper_iff.2 h⟩ else none

/-- As `ofByte?`, naming the fault. -/
def ofByte (b : Byte) : Except Fault Letter :=
  match ofByte? b with
  | some letter => .ok letter
  | none => .error (.notALetter b)

def lower (l : Letter) : Byte := Byte.toLower l.upper

/-- Both cases. Upper case comes first, as the smaller byte. -/
def toList (l : Letter) : List Byte := [l.upper, l.lower]

/-- The byte is a case of the letter. -/
def folds (l : Letter) (b : Byte) : Bool := Byte.toUpper b == l.upper

theorem folds_iff {l : Letter} {b : Byte} : l.folds b = true ↔ b = l.upper ∨ b = l.lower := by
  rw [folds, beq_iff_eq, Byte.toUpper_eq_iff l.isUpper_upper, lower]

theorem mem_toList {l : Letter} {b : Byte} : b ∈ l.toList ↔ l.folds b = true := by
  simp [toList, folds_iff]

theorem upper_lt_lower (l : Letter) : l.upper < l.lower :=
  Byte.lt_toLower l.isUpper_upper

theorem ofByte?_eq_some_iff {b : Byte} {l : Letter} :
    ofByte? b = some l ↔ b = l.upper ∨ b = l.lower := by
  rw [← folds_iff, folds, beq_iff_eq, ofByte?]
  constructor
  · intro h
    split at h
    · rw [← Option.some.inj h]
    · cases h
  · intro h
    rw [dif_pos (Byte.isUpper_toUpper_iff.1 (h ▸ l.isUpper_upper))]
    exact congrArg some (Letter.ext h)

theorem ofByte?_of_isUpper {b : Byte} (h : Byte.isUpper b = true) : ofByte? b = some ⟨b, h⟩ :=
  ofByte?_eq_some_iff.2 (Or.inl rfl)

end Letter

end Bytewise

import Bytewise.Fault

/-!
# Intervals

A nonempty interval of bytes, given by its ends, and the split of an ascending list into maximal
intervals.

* `mem_toList`, `pairwise_toList`, `length_toList`: the bytes of an interval, ascending, and their
  number;
* `flatMap_runs`: the runs of a list, written out one after another, are the list again.

Core Lean only.
-/

namespace Bytewise

@[ext]
structure Span where
  first : Byte
  last : Byte
  first_le_last : first ≤ last
  deriving DecidableEq, Repr

namespace Span

/-- The interval with the given ends, if they are in order. -/
def ofEnds? (first last : Byte) : Option Span :=
  if h : first ≤ last then some ⟨first, last, h⟩ else none

/-- As `ofEnds?`, naming the fault. -/
def ofEnds (first last : Byte) : Except Fault Span :=
  match ofEnds? first last with
  | some span => .ok span
  | none => .error (.reversedSpan first last)

def single (b : Byte) : Span := ⟨b, b, UInt8.le_refl b⟩

/-- The number of bytes in the interval, from 1 to 256. -/
def size (s : Span) : Nat := (s.last - s.first).toNat + 1

def contains (s : Span) (b : Byte) : Bool := s.first ≤ b && b ≤ s.last

/-- The bytes of the interval, ascending. -/
def toList (s : Span) : List Byte := Byte.between s.first s.last

theorem ofEnds?_eq_some_iff {lo hi : Byte} {s : Span} :
    ofEnds? lo hi = some s ↔ s.first = lo ∧ s.last = hi := by
  unfold ofEnds?
  split
  · constructor
    · intro h; rw [← Option.some.inj h]; exact ⟨rfl, rfl⟩
    · intro h; exact congrArg some (Span.ext h.1.symm h.2.symm)
  · rename_i h
    refine ⟨nofun, fun e => absurd ?_ h⟩
    rw [← e.1, ← e.2]; exact s.first_le_last

theorem first_le_last_toNat (s : Span) : s.first.toNat ≤ s.last.toNat :=
  UInt8.le_iff_toNat_le.1 s.first_le_last

/-- The difference of the ends does not wrap. -/
theorem size_eq (s : Span) : s.size = s.last.toNat - s.first.toNat + 1 := by
  rw [size, UInt8.toNat_sub_of_le _ _ s.first_le_last]

theorem contains_iff {s : Span} {b : Byte} :
    s.contains b = true ↔ s.first ≤ b ∧ b ≤ s.last := by
  simp [contains]

theorem mem_toList {s : Span} {b : Byte} : b ∈ s.toList ↔ s.contains b = true := by
  rw [toList, Byte.mem_between, contains_iff]

theorem pairwise_toList (s : Span) : s.toList.Pairwise (· < ·) :=
  Byte.pairwise_between _ _

theorem length_toList (s : Span) : s.toList.length = s.size := by
  have := s.first_le_last_toNat
  rw [toList, Byte.length_between, size_eq]; omega

theorem toList_single (b : Byte) : (single b).toList = [b] := by
  simp [toList, single, Byte.between]

/-! ## Runs -/

/-- The interval with one byte more below it. -/
def extendDown (b : Byte) (s : Span) (h : b.toNat + 1 = s.first.toNat) : Span :=
  ⟨b, s.last, UInt8.le_iff_toNat_le.2 (by have := s.first_le_last_toNat; omega)⟩

/-- The maximal intervals of an ascending list, ascending. -/
def runs : List Byte → List Span
  | [] => []
  | b :: bs =>
    match runs bs with
    | [] => [single b]
    | s :: rest =>
      if h : b.toNat + 1 = s.first.toNat then s.extendDown b h :: rest
      else single b :: s :: rest

theorem toList_extendDown {b : Byte} {s : Span} (h : b.toNat + 1 = s.first.toNat) :
    (s.extendDown b h).toList = b :: s.toList := by
  have hs := s.first_le_last_toNat
  simp only [toList, extendDown, Byte.between]
  rw [show s.last.toNat + 1 - b.toNat = (s.last.toNat + 1 - s.first.toNat) + 1 by omega,
    List.range'_succ, h, List.map_cons, UInt8.ofNat_toNat]

theorem flatMap_runs (bs : List Byte) : (runs bs).flatMap toList = bs := by
  induction bs with
  | nil => rfl
  | cons b bs ih =>
    unfold runs
    split
    · rename_i h
      rw [h] at ih
      simpa [toList_single] using ih
    · rename_i s rest h
      rw [h] at ih
      split
      · rw [List.flatMap_cons, toList_extendDown, ← ih]; rfl
      · rw [List.flatMap_cons, toList_single, ih]; rfl

end Span

end Bytewise

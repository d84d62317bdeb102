/-!
# Comparing items of lists

The places of first occurrences within one list, and the first place where two lists differ.

* `firstDifference?_eq_none_iff`: lists that differ nowhere are equal, also in length.

Core Lean only.
-/

namespace Bytewise

variable {α : Type} [DecidableEq α]

/-- The places of the items that equal no earlier item, ascending. -/
def distinctPlaces (xs : List α) : List Nat :=
  (List.range xs.length).filter fun i =>
    match xs[i]? with
    | some x => x ∉ xs.take i
    | none => false

/-- The first place where the items differ, or where one list has an item and the other has none. -/
def firstDifference? : List α → List α → Option Nat
  | [], [] => none
  | x :: xs, y :: ys => if x = y then (firstDifference? xs ys).map (· + 1) else some 0
  | _, _ => some 0

theorem firstDifference?_eq_none_iff {xs ys : List α} : firstDifference? xs ys = none ↔ xs = ys := by
  induction xs generalizing ys with
  | nil => cases ys <;> simp [firstDifference?]
  | cons x xs ih =>
    cases ys with
    | nil => simp [firstDifference?]
    | cons y ys =>
      rw [firstDifference?, List.cons.injEq]
      by_cases hxy : x = y
      · rw [if_pos hxy, Option.map_eq_none_iff, ih]
        exact (and_iff_right hxy).symm
      · rw [if_neg hxy]
        exact iff_of_false (Option.some_ne_none 0) fun h => hxy h.1

end Bytewise

import Bytewise.Byte

/-!
# Cursors

A cursor hands out bytes one at a time and bounds how many are still to come. A *listing* holds
those bytes, so its bounds are exact; a *sieve* holds bytes not yet tested, and knows only that no
more can come than are left to test.

* `toList_next`: the next byte is the first of those to come, and the others stay to come;
* `length_toList_bounds`: the bounds hold.

Core Lean only.
-/

namespace Bytewise

inductive Cursor
  | listing (rest : List Byte)
  | sieve (accepts : Byte → Bool) (unread : List Byte)

namespace Cursor

/-- The next byte, `none` when there is none, and the cursor behind it. -/
def next : Cursor → Option Byte × Cursor
  | listing [] => (none, listing [])
  | listing (b :: rest) => (some b, listing rest)
  | sieve accepts unread =>
    match unread.dropWhile (!accepts ·) with
    | [] => (none, sieve accepts [])
    | b :: rest => (some b, sieve accepts rest)

/-- A lower and an upper bound on the number of bytes to come. -/
def bounds : Cursor → Nat × Nat
  | listing rest => (rest.length, rest.length)
  | sieve _ unread => (0, unread.length)

/-- All bytes to come. -/
def toList : Cursor → List Byte
  | listing rest => rest
  | sieve accepts unread => unread.filter accepts

/-- What a number of steps hand out, each with the bounds after it. -/
def trace (c : Cursor) : Nat → List (Option Byte × Nat × Nat)
  | 0 => []
  | k + 1 => (c.next.1, c.next.2.bounds) :: trace c.next.2 k

theorem filter_eq_filter_dropWhile (p : Byte → Bool) (bs : List Byte) :
    bs.filter p = (bs.dropWhile (!p ·)).filter p := by
  induction bs with
  | nil => rfl
  | cons b bs ih =>
    cases h : p b
    · rw [List.filter_cons_of_neg (by simp [h]), List.dropWhile_cons_of_pos (by simp [h]), ih]
    · rw [List.dropWhile_cons_of_neg (by simp [h])]

theorem head_dropWhile {p : Byte → Bool} {bs rest : List Byte} {b : Byte}
    (h : bs.dropWhile (!p ·) = b :: rest) : p b = true := by
  have := List.head?_dropWhile_not (!p ·) bs
  rw [h] at this
  simpa using this

theorem toList_next (c : Cursor) :
    c.toList = match c.next with
      | (none, _) => []
      | (some b, d) => b :: d.toList := by
  cases c with
  | listing rest => cases rest <;> rfl
  | sieve accepts unread =>
    simp only [toList, next]
    rw [filter_eq_filter_dropWhile]
    split
    · rename_i h
      split at h
      · rename_i hd
        rw [hd, List.filter_nil]
      · cases h
    · rename_i h
      split at h
      · cases h
      · rename_i hd
        cases h
        rw [hd, List.filter_cons_of_pos (head_dropWhile hd)]

theorem length_toList_bounds (c : Cursor) :
    c.bounds.1 ≤ c.toList.length ∧ c.toList.length ≤ c.bounds.2 := by
  cases c with
  | listing rest => exact ⟨Nat.le_refl _, Nat.le_refl _⟩
  | sieve accepts unread => exact ⟨Nat.zero_le _, List.length_filter_le _ _⟩

end Cursor

end Bytewise

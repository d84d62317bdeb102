import Bytewise.Proofs.Matcher.Interchange

/-!
# Steps of a cursor

What a cursor hands out step by step, past its end too, and what it tells in between of the number
of bytes still to come. A listing tells that number. A sieve tells how many bytes it has not tested:
these are always the bytes above the one that it handed out last.

* `Cursor.after`: the cursor behind a number of steps, with `toList_after` and `bounds_after` for
  every cursor;
* `Cursor.after_listing`, `Cursor.after_sieve`: the state of either sort of cursor in every step;
* `Matcher.cursor_protocol`: the steps of the cursor of a matcher, and the bounds between them.
-/

namespace Bytewise

namespace Byte

theorem getElem?_all {n : Nat} (h : n < 256) : all[n]? = some (UInt8.ofNat n) := by
  have hrange : (List.range' 0 256)[n]? = some n := by simp [h]
  rw [all, between, List.getElem?_map]
  exact congrArg (Option.map UInt8.ofNat) hrange

/-- What follows a byte in the row of all bytes starts behind the place that the byte numbers. -/
theorem eq_drop_of_suffix_all {b : Byte} {bs : List Byte} (h : b :: bs <:+ all) :
    bs = all.drop (b.toNat + 1) := by
  obtain ⟨front, hall⟩ := h
  have hlength : front.length < 256 := by
    rw [← length_all, ← hall, List.length_append, List.length_cons]
    omega
  have hplace : b.toNat = front.length := by
    have hget := getElem?_all hlength
    rw [← hall, List.getElem?_append_right (Nat.le_refl _), Nat.sub_self] at hget
    rw [Option.some.inj hget, toNat_ofNat_of_lt hlength]
  rw [hplace, ← hall, List.drop_append]
  simp

end Byte

namespace Cursor

/-- The cursor behind a number of steps. -/
def after (c : Cursor) : Nat → Cursor
  | 0 => c
  | k + 1 => after c.next.2 k

theorem toList_after (c : Cursor) (k : Nat) : (c.after k).toList = c.toList.drop k := by
  induction k generalizing c with
  | zero => rfl
  | succ k ih => rw [after, ih, c.next_eq.2, List.drop_tail]

/-- The bounds hold at every point of a run. -/
theorem bounds_after (c : Cursor) (k : Nat) :
    (c.after k).bounds.1 ≤ (c.toList.drop k).length ∧
      (c.toList.drop k).length ≤ (c.after k).bounds.2 := by
  rw [← toList_after]
  exact length_toList_bounds _

/-- The bounds before the first step and those that a trace shows. -/
theorem bounds_cons_trace (c : Cursor) (k : Nat) :
    c.bounds :: (c.trace k).map Prod.snd =
      (List.range (k + 1)).map fun j => (c.after j).bounds := by
  induction k generalizing c with
  | zero => rfl
  | succ k ih =>
    rw [List.range_succ_eq_map, List.map_cons, List.map_map, trace, List.map_cons, ih]
    rfl

theorem after_listing (bs : List Byte) (k : Nat) : (listing bs).after k = listing (bs.drop k) := by
  induction k generalizing bs with
  | zero => rfl
  | succ k ih =>
    cases bs with
    | nil => rw [after, next, ih, List.drop_nil, List.drop_nil]
    | cons b bs => rw [after, next, ih, List.drop_succ_cons]

/-- The bytes above the one handed out last. None are left when nothing was handed out. -/
def above : Option Byte → List Byte
  | some b => Byte.all.drop (b.toNat + 1)
  | none => []

variable {p : Byte → Bool} {unread : List Byte}

theorem length_above (b : Byte) : (above (some b)).length = 255 - b.toNat := by
  rw [above, List.length_drop, Byte.length_all]
  omega

theorem above_suffix (o : Option Byte) : above o <:+ Byte.all := by
  cases o with
  | none => exact List.nil_suffix
  | some b => exact List.drop_suffix _ _

/-- A step passes over the refused bytes up to the one that it hands out. -/
theorem next_sieve (h : unread <:+ Byte.all) :
    (sieve p unread).next.2 = sieve p (above (unread.filter p).head?) := by
  rw [filter_eq_filter_dropWhile, next]
  cases hrest : unread.dropWhile (!p ·) with
  | nil => rfl
  | cons b rest =>
    have hsuffix : b :: rest <:+ Byte.all := hrest ▸ (List.dropWhile_suffix _).trans h
    rw [List.filter_cons_of_pos (head_dropWhile hrest), List.head?_cons, above,
      ← Byte.eq_drop_of_suffix_all hsuffix]

theorem after_sieve (h : unread <:+ Byte.all) (k : Nat) :
    (sieve p unread).after (k + 1) = sieve p (above (unread.filter p)[k]?) := by
  induction k generalizing unread with
  | zero => rw [after, after, next_sieve h, List.head?_eq_getElem?]
  | succ k ih =>
    have htail : (above (unread.filter p).head?).filter p = (unread.filter p).tail := by
      have hnext := (sieve p unread).next_eq.2
      rwa [next_sieve h] at hnext
    rw [after, next_sieve h, ih (above_suffix _), htail, List.getElem?_tail]

end Cursor

namespace Matcher

/-- Whether the bytes still to come are at hand. Otherwise they are found by tests. -/
def knowsRest : Matcher → Bool
  | one _ => true
  | allBut _ => false
  | any => true
  | letter _ => true
  | rule (.allBits _) _ => false
  | rule (.anyBit _) _ => false
  | rule (.span _) inverted => !inverted
  | rule (.listed _) inverted => !inverted
  | rule (.table _) _ => true

/-- The number of bytes still to come after some steps. -/
def left (m : Matcher) (steps : Nat) : Nat := (m.toList.drop steps).length

/-- The number of bytes not tested after some steps: at first all, then those above the byte of the
last step, and none when that step had no byte. -/
def untested (m : Matcher) : Nat → Nat
  | 0 => 256
  | k + 1 =>
    match m.toList[k]? with
    | some b => 255 - b.toNat
    | none => 0

/-- The bounds on the number of bytes to come after some steps. -/
def boundsAfter (m : Matcher) (steps : Nat) : Nat × Nat :=
  if m.knowsRest then (m.left steps, m.left steps) else (0, m.untested steps)

theorem cursor_eq (m : Matcher) :
    m.cursor = if m.knowsRest then .listing m.toList else .sieve m.accepts Byte.all := by
  cases m with
  | rule r inverted => cases r <;> cases inverted <;> rfl
  | _ => rfl

theorem bounds_sieve_after (m : Matcher) (k : Nat) :
    ((Cursor.sieve m.accepts Byte.all).after k).bounds = (0, m.untested k) := by
  cases k with
  | zero => exact congrArg (Prod.mk 0) Byte.length_all
  | succ k =>
    rw [Cursor.after_sieve (List.suffix_refl _), ← toList_eq_filter, untested]
    cases m.toList[k]? with
    | none => rfl
    | some b => exact congrArg (Prod.mk 0) (Cursor.length_above b)

theorem bounds_cursor_after (m : Matcher) (k : Nat) :
    (m.cursor.after k).bounds = m.boundsAfter k := by
  rw [boundsAfter, cursor_eq]
  cases m.knowsRest with
  | true => exact congrArg Cursor.bounds (Cursor.after_listing m.toList k)
  | false => exact m.bounds_sieve_after k

/-- **The steps of a cursor.** However many steps are taken, each hands out the next accepted byte,
and all those past the last byte hand out nothing. The bounds before the first step and behind every
step hold for the number of bytes still to come. They are that number where the bytes are at hand;
otherwise the lower one is zero and the upper one the number of bytes not tested. -/
theorem cursor_protocol (m : Matcher) (k : Nat) :
    (m.cursor.trace k).map Prod.fst = (List.range k).map (fun j => m.toList[j]?) ∧
    m.cursor.bounds :: (m.cursor.trace k).map Prod.snd =
      (List.range (k + 1)).map m.boundsAfter ∧
    (∀ j, (m.boundsAfter j).1 ≤ m.left j ∧ m.left j ≤ (m.boundsAfter j).2) := by
  refine ⟨m.cursor.map_fst_trace k, ?_, fun j => ?_⟩
  · rw [Cursor.bounds_cons_trace]
    exact List.map_congr_left fun j _ => m.bounds_cursor_after j
  · rw [← bounds_cursor_after]
    exact m.cursor.bounds_after j

/-- The last byte is handed out by a sieve that has then tested all of them. -/
example : (rule (.span ⟨0, 254, by decide⟩) true).cursor.trace 3 =
    [(some 255, 0, 0), (none, 0, 0), (none, 0, 0)] := by decide +kernel

end Matcher

end Bytewise

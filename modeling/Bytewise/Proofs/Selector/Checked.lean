import Bytewise.Matcher.Text
import Bytewise.Proofs.ByteSet.Candidates
import Bytewise.Proofs.Matcher.Views
import Bytewise.Proofs.Selector.Attempts

/-!
# Builds with every operation checked

The functions of the library are total. A difference that falls below zero is cut off or wraps
round, and a form that does not find its value is no form. Here the same steps are taken with
checks, in the same order, and a check that fails stops the computation. None ever does, so that
nothing is hidden by totality.

* `Checked.span?_eq`, `Checked.casePair?_eq`, `Checked.sizedForm?_eq`, `Checked.choose_eq`: the
  choice of a matcher, with its constructors and the values they need;
* `Checked.cardinality_eq`, `Checked.drain_eq`, `Checked.chars_eq`: what a matcher is asked;
* `Checked.build_never_stops`: whole builds.
-/

namespace Bytewise

/-- Why a checked computation stops. -/
inductive Stop
  /-- A constructor refuses its arguments. -/
  | refused (fault : Fault)
  /-- A result is not in the range of its type. -/
  | outOfRange
  /-- A value that is needed is not there. -/
  | missing
  /-- A cursor has not come to its end in the steps it was given. -/
  | endless
  deriving DecidableEq, Repr

namespace Checked

variable {α β : Type}

/-! ## Operations -/

/-- The number of bits in the narrowest word there is. -/
def wordSize : Nat := 16

def add (m n : Nat) : Except Stop Nat :=
  if m + n < 2 ^ wordSize then .ok (m + n) else .error .outOfRange

def sub (m n : Nat) : Except Stop Nat := if n ≤ m then .ok (m - n) else .error .outOfRange

def subByte (a b : Byte) : Except Stop Byte := if b ≤ a then .ok (a - b) else .error .outOfRange

/-- The word with one bit, at the given place. -/
def shiftOne (place : Nat) : Except Stop Nat :=
  if place < wordSize then .ok (1 <<< place) else .error .outOfRange

/-- What a constructor makes of arguments that it must not refuse. -/
def accepted (x : Except Fault α) : Except Stop α := x.mapError .refused

/-- A value that must be there. -/
def present : Option α → Except Stop α
  | some a => .ok a
  | none => .error .missing

/-- Makes the second attempt when the first finds nothing. -/
def orElse (x y : Except Stop (Option α)) : Except Stop (Option α) := do
  match ← x with
  | some a => .ok (some a)
  | none => y

theorem ok_bind (a : α) (f : α → Except Stop β) : (Except.ok a >>= f) = f a := rfl

theorem add_of_lt {m n : Nat} (h : m + n < 2 ^ wordSize) : add m n = .ok (m + n) := if_pos h

theorem sub_of_le {m n : Nat} (h : n ≤ m) : sub m n = .ok (m - n) := if_pos h

theorem subByte_of_le {a b : Byte} (h : b ≤ a) : subByte a b = .ok (a - b) := if_pos h

theorem shiftOne_of_lt {place : Nat} (h : place < wordSize) : shiftOne place = .ok (1 <<< place) :=
  if_pos h

theorem orElse_ok (o o' : Option α) : orElse (.ok o) (.ok o') = .ok (o <|> o') := by
  cases o <;> rfl

/-! ## Shapes -/

/-- The interval that the set is. Its ends are compared by their distance, which must not fall below
zero, with the number of members after the first. -/
def span? (s : ByteSet) : Except Stop (Option Span) :=
  match s.min?, s.max? with
  | some lo, some hi => do
    let distance ← subByte hi lo
    let others ← sub s.card 1
    if distance.toNat = others then
      let span ← accepted (Span.ofEnds lo hi)
      .ok (some span)
    else .ok none
  | _, _ => .ok none

/-- The first member, when the members are two letters 32 apart. The distance is asked for between
letters only. -/
def casePair? (s : ByteSet) : Except Stop (Option Byte) :=
  if s.card = 2 then
    match s.min?, s.max? with
    | some lo, some hi =>
      if Byte.isLetter lo && Byte.isLetter hi then do
        let distance ← subByte hi lo
        .ok (if distance = 32 then some lo else none)
      else .ok none
    | _, _ => .ok none
  else .ok none

/-- The letter whose two cases the set is. The byte that is found must be one. -/
def letter? (s : ByteSet) : Except Stop (Option Letter) := do
  match ← casePair? s with
  | some c => do
    let letter ← accepted (Letter.ofByte c)
    .ok (some letter)
  | none => .ok none

theorem accepted_ofEnds {lo hi : Byte} (h : lo ≤ hi) :
    accepted (Span.ofEnds lo hi) = .ok ⟨lo, hi, h⟩ := by
  rw [Span.ofEnds, Span.ofEnds?, dif_pos h]
  rfl

theorem accepted_ofByte {c : Byte} (h : Byte.isUpper c = true) :
    accepted (Letter.ofByte c) = .ok ⟨c, h⟩ := by
  rw [Letter.ofByte, Letter.ofByte?_of_isUpper h]
  rfl

theorem span?_eq (s : ByteSet) : span? s = .ok s.span? := by
  unfold span? ByteSet.span?
  cases hmin : s.min? with
  | none => rfl
  | some lo =>
    cases hmax : s.max? with
    | none => rfl
    | some hi =>
      have hle := ByteSet.min?_le_max? hmin hmax
      have hcard := ByteSet.one_le_card_of_min? hmin
      have hends : Span.ofEnds? lo hi = some ⟨lo, hi, hle⟩ := dif_pos hle
      have hfits : (hi - lo).toNat = s.card - 1 ↔ (hi - lo).toNat + 1 = s.card := by omega
      simp only [subByte_of_le hle, sub_of_le hcard, accepted_ofEnds hle, ok_bind, hends, hfits]
      split <;> rfl

theorem casePair?_eq (s : ByteSet) : casePair? s = .ok s.casePair? := by
  unfold casePair? ByteSet.casePair?
  split
  · cases hmin : s.min? with
    | none => rfl
    | some lo =>
      cases hmax : s.max? with
      | none => rfl
      | some hi =>
        have hle := ByteSet.min?_le_max? hmin hmax
        simp only [subByte_of_le hle, ok_bind, Bool.and_eq_true, beq_iff_eq]
        by_cases hletters : Byte.isLetter lo = true ∧ Byte.isLetter hi = true
        · simp only [hletters, and_self, true_and, if_true]
        · simp only [hletters, false_and, if_false]
  · rfl

/-- What is found is in upper case, hence a letter. -/
theorem letter?_eq (s : ByteSet) : letter? s = .ok s.letter? := by
  rw [letter?, casePair?_eq, ok_bind, ByteSet.letter?]
  cases hpair : s.casePair? with
  | none => rfl
  | some c =>
    have hup := (ByteSet.casePair?_eq_some_iff.mp hpair).1
    simp only
    rw [accepted_ofByte hup, ok_bind, Option.bind_some, Letter.ofByte?_of_isUpper hup]

/-! ## The choice -/

/-- The form that the size of the target suggests. The one member, and the one byte that is no
member, must be found. -/
def sizedForm? (target : ByteSet) : Except Stop (Option Matcher) :=
  match target.card with
  | 0 => .ok (some (.rule (.anyBit 0) false))
  | 1 => do
    let value ← present target.min?
    .ok (some (.one value))
  | 2 => do
    let found ← letter? target
    .ok (found.map .letter)
  | 255 => do
    let value ← present target.missing.head?
    .ok (some (.allBut value))
  | 256 => .ok (some .any)
  | _ => .ok none

def rule? (sel : Selector) (s : ByteSet) : Except Stop (Option Rule) :=
  orElse (.ok (s.allBitsMask?.map .allBits)) <|
  orElse (.ok (s.anyBitMask?.map .anyBit)) <|
  orElse (do let found ← span? s; .ok (found.map .span)) <|
  .ok (if s.card < sel.listBelow then some (.listed (.ofSet s)) else none)

def choose (sel : Selector) (s : ByteSet) (inverse : Bool) : Except Stop Matcher := do
  let target := s.complementIf inverse
  let others := s.complementIf (!inverse)
  let found ←
    orElse (sizedForm? target) <|
    orElse (do let found ← rule? sel target; .ok (found.map (.rule · false))) <|
    do let found ← rule? sel others; .ok (found.map (.rule · true))
  .ok (found.getD (.rule (.table s) inverse))

theorem present_map {o : Option α} (h : o ≠ none) (f : α → β) :
    (do let a ← present o; .ok (some (f a))) = (.ok (o.map f) : Except Stop (Option β)) := by
  cases o with
  | none => exact absurd rfl h
  | some a => rfl

/-- The size tells that there is a member, or a byte that is no member. -/
theorem sizedForm?_eq (target : ByteSet) :
    sizedForm? target = .ok (Selector.sizedForm? target) := by
  have hmin : target.card = 1 → target.min? ≠ none := by
    intro hcard hnone
    rw [ByteSet.min?_eq_none_iff, ← ByteSet.card_eq_zero_iff] at hnone
    omega
  have hmissing : target.card = 255 → target.missing.head? ≠ none := by
    intro hcard hnone
    rw [ByteSet.missing_eq_toList_complement, ← ByteSet.min?_eq_head?, ByteSet.min?_eq_none_iff,
      ByteSet.complement_eq_empty_iff] at hnone
    omega
  unfold sizedForm? Selector.sizedForm?
  generalize target.card = n at hmin hmissing
  split
  · rfl
  · exact present_map (hmin rfl) _
  · rw [letter?_eq]
    rfl
  · exact present_map (hmissing rfl) _
  · rfl
  · -- no other size suggests a form
    simp_all

theorem rule?_eq (sel : Selector) (s : ByteSet) : rule? sel s = .ok (sel.rule? s) := by
  rw [rule?, span?_eq, ok_bind, orElse_ok, orElse_ok, orElse_ok]
  rfl

theorem choose_eq (sel : Selector) (s : ByteSet) (inverse : Bool) :
    choose sel s inverse = .ok (sel.choose s inverse) := by
  simp only [choose, sizedForm?_eq, rule?_eq, ok_bind, orElse_ok]
  rfl

/-! ## Answers of a matcher -/

def coverCount (mask : Byte) : Except Stop Nat := do
  let free ← sub 8 (Mask.weight mask)
  shiftOne free

def count : Rule → Except Stop Nat
  | .allBits mask => coverCount mask
  | .anyBit mask => do
    let others ← coverCount mask
    sub 256 others
  | .span s => do
    let distance ← subByte s.last s.first
    add distance.toNat 1
  | .listed l => .ok l.size
  | .table s => .ok s.card

def cardinality : Matcher → Except Stop Nat
  | .one _ => .ok 1
  | .allBut _ => .ok 255
  | .any => .ok 256
  | .letter _ => .ok 2
  | .rule r inverted => do
    let accepted ← count r
    if inverted then sub 256 accepted else .ok accepted

/-- Steps to the end, no more often than told. -/
def drain : Nat → Cursor → Except Stop (List Byte)
  | 0, _ => .error .endless
  | k + 1, c =>
    match c.next with
    | (none, _) => .ok []
    | (some b, d) => do
      let bs ← drain k d
      .ok (b :: bs)

/-- The items of a run. Its length is had from the distance of its ends. -/
def items (s : Span) : Except Stop (List Item) := do
  let distance ← subByte s.last s.first
  match distance.toNat with
  | 0 => .ok [.byte s.first]
  | 1 => .ok [.byte s.first, .byte s.last]
  | _ => .ok [.range s]

def expression (inverted : Bool) (bs : List Byte) : Except Stop Expression := do
  let items ← (Span.runs bs).mapM items
  .ok ⟨inverted, items.flatten⟩

def chars (style : Style) : Matcher → Except Stop (List Char)
  | .rule (.listed l) inverted => do
    let e ← expression inverted l.toList
    .ok (e.chars style)
  | .rule (.table s) inverted => do
    let e ← expression inverted s.toList
    .ok (e.chars style)
  | m => .ok (m.chars style)

/-- The bits that are not the mask's are at most eight. -/
theorem coverCount_eq (mask : Byte) : coverCount mask = .ok (Mask.coverCount mask) := by
  have hfree : 8 - Mask.weight mask < wordSize := Nat.lt_of_le_of_lt (Nat.sub_le ..) (by decide)
  rw [coverCount, sub_of_le (Mask.weight_le mask), ok_bind, shiftOne_of_lt hfree]
  rfl

theorem count_eq (r : Rule) : count r = .ok r.count := by
  cases r with
  | allBits mask => exact coverCount_eq mask
  | anyBit mask =>
    have hle : Mask.coverCount mask ≤ 256 := (Rule.allBits mask).count_le
    rw [count, coverCount_eq, ok_bind, sub_of_le hle]
    rfl
  | span s =>
    have hlt : (s.last - s.first).toNat + 1 < 2 ^ wordSize :=
      Nat.lt_of_le_of_lt (Rule.span s).count_le (by decide)
    rw [count, subByte_of_le s.first_le_last, ok_bind, add_of_lt hlt]
    rfl
  | listed l => rfl
  | table s => rfl

theorem cardinality_eq (m : Matcher) : cardinality m = .ok m.cardinality := by
  cases m with
  | rule r inverted =>
    rw [cardinality, count_eq, ok_bind, sub_of_le r.count_le]
    cases inverted <;> rfl
  | _ => rfl

theorem drain_eq {k : Nat} {c : Cursor} (h : c.toList.length < k) : drain k c = .ok c.toList := by
  induction k generalizing c with
  | zero => exact absurd h (Nat.not_lt_zero _)
  | succ k ih =>
    have hnext := c.toList_next
    unfold drain
    split
    · rename_i hc
      rw [hnext, hc]
    · rename_i b d hc
      rw [hc] at hnext
      simp only at hnext
      rw [hnext, List.length_cons] at h
      rw [ih (Nat.lt_of_succ_lt_succ h), ok_bind, hnext]

theorem items_eq (s : Span) : items s = .ok s.items := by
  have hsize : s.size = (s.last - s.first).toNat + 1 := rfl
  rw [items, subByte_of_le s.first_le_last, ok_bind, Span.items, hsize]
  generalize (s.last - s.first).toNat = distance
  split
  · rfl
  · rfl
  · rename_i h0 h1
    rw [if_neg fun h => h0 (by omega), if_neg fun h => h1 (by omega)]

theorem expression_eq (inverted : Bool) (bs : List Byte) :
    expression inverted bs = .ok (Expression.ofBytes inverted bs) := by
  have hitems : items = fun s => pure s.items := funext items_eq
  rw [expression, hitems, List.mapM_pure]
  rfl

theorem chars_eq (style : Style) (m : Matcher) : chars style m = .ok (m.chars style) := by
  unfold chars
  split
  · rw [expression_eq, ok_bind]
    rfl
  · rw [expression_eq, ok_bind]
    rfl
  · rfl

/-! ## Whole builds -/

/-- All that a matcher is asked. -/
structure Report where
  matcher : Matcher
  cardinality : Nat
  bytes : List Byte
  compact : String
  pretty : String

/-- Selects a matcher. Its cardinality is had at once, for the event that the request leaves. -/
def select (sel : Selector) (s : ByteSet) (inverse : Bool) :
    Except Stop (Except SelectError Matcher) :=
  if s.isEmpty then .ok (.error .emptySet)
  else do
    let m ← choose sel s inverse
    let _ ← cardinality m
    .ok (.ok m)

/-- No more bytes are handed out than there are, and then the end is seen. -/
def report (m : Matcher) : Except Stop Report := do
  let accepted ← cardinality m
  let bytes ← drain 257 m.cursor
  let compact ← chars .compact m
  let pretty ← chars .pretty m
  .ok ⟨m, accepted, bytes, String.ofList compact, String.ofList pretty⟩

/-- Selects a matcher and reports on it. -/
def build (sel : Selector) (s : ByteSet) (inverse : Bool) :
    Except Stop (Except SelectError Report) := do
  match ← select sel s inverse with
  | .error e => .ok (.error e)
  | .ok m => do
    let r ← report m
    .ok (.ok r)

theorem select_eq (sel : Selector) (s : ByteSet) (inverse : Bool) :
    select sel s inverse = .ok (sel.select s inverse) := by
  unfold select Selector.select
  split
  · rfl
  · rw [choose_eq, ok_bind, cardinality_eq, ok_bind]

theorem report_eq (m : Matcher) :
    report m = .ok ⟨m, m.cardinality, m.toList, m.text .compact, m.text .pretty⟩ := by
  have hlength : m.cursor.toList.length < 257 := by
    rw [← Matcher.toList, m.toList_eq_filter]
    exact Nat.lt_succ_of_le (Byte.length_filter_all_le _)
  rw [report, cardinality_eq, drain_eq hlength, chars_eq, chars_eq]
  rfl

/-- **No build stops.** Whatever set is named, in whichever sense and with whatever limit, the
choice of a matcher and all that it is asked then, its cardinality, its bytes to the end and its
text in both styles, pass every check: no interval is made of ends in the wrong order and no letter
of another byte, the member of a set of one byte and the byte that a set of 255 leaves out are
found, so that the form is not passed over, and every difference, sum and shift fits its type. The
results are those of the functions that do not check. -/
theorem build_never_stops (sel : Selector) (s : ByteSet) (inverse : Bool) :
    build sel s inverse = .ok ((sel.select s inverse).map fun m =>
      ⟨m, m.cardinality, m.toList, m.text .compact, m.text .pretty⟩) ∧
    ((s.complementIf inverse).card = 1 ∨ (s.complementIf inverse).card = 255 →
      Selector.sizedForm? (s.complementIf inverse) ≠ none) := by
  constructor
  · rw [build, select_eq, ok_bind]
    cases sel.select s inverse with
    | error e => rfl
    | ok m =>
      simp only
      rw [report_eq, ok_bind]
      rfl
  · intro hcard hnone
    have hbetween := Selector.card_of_sizedForm?_eq_none hnone
    omega

theorem build_never_stops_five :
    (∃ r, build {} (.ofList [5]) true = .ok (.ok r) ∧ r.matcher = .allBut 5 ∧
      r.cardinality = 255) ∧
    ((ByteSet.ofList [5]).complementIf true).card = 255 ∧
    Selector.sizedForm? ((ByteSet.ofList [5]).complementIf true) ≠ none := by
  have hanswer : Selector.select {} (.ofList [5]) true = .ok (.allBut 5) := by decide +kernel
  have hcard : ((ByteSet.ofList [5]).complementIf true).card = 255 := by decide +kernel
  obtain ⟨hbuild, hform⟩ := build_never_stops {} (.ofList [5]) true
  rw [hanswer] at hbuild
  exact ⟨⟨_, hbuild, rfl, rfl⟩, hcard, hform (Or.inr hcard)⟩

end Checked

end Bytewise

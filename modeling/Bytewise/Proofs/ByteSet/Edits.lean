import Bytewise.ByteSet.Edit
import Bytewise.Proofs.ByteSet.Ascending
import Mathlib.Data.Set.Card
import Mathlib.Order.Bounds.Basic

/-!
# Edits of mathematical sets

What happens to a set of bytes in a run of edits is what happens to its members, taken as a
mathematical set, in the same run.

* `Shows`: everything that can be asked of a set is answered as its members have it;
* `Edit.members_apply`, `Edit.reports_report`: one edit;
* `follows_run`: a run of edits;
* `run_follows_members`: both, for every run.
-/

namespace Bytewise.ByteSet

/-- The members as a mathematical set. -/
def members (s : ByteSet) : Set Byte := {b | b ∈ s}

variable {s t : ByteSet} {b c : Byte}

theorem mem_members : b ∈ s.members ↔ b ∈ s := Iff.rfl

/-! ## What a set shows -/

/-- All that can be asked of a set is answered as the mathematical set has it, or in agreement with
another answer that is. -/
structure Shows (s : ByteSet) (X : Set Byte) : Prop where
  contains : ∀ b, s.contains b = true ↔ b ∈ X
  card : s.card = X.ncard
  toList_ascending : s.toList.Pairwise (· < ·)
  mem_toList : ∀ b, b ∈ s.toList ↔ b ∈ X
  toListDesc : s.toListDesc = s.toList.reverse
  missing_ascending : s.missing.Pairwise (· < ·)
  mem_missing : ∀ b, b ∈ s.missing ↔ b ∉ X
  missingDesc : s.missingDesc = s.missing.reverse
  missing_eq : s.missing = s.complement.toList
  min? : ∀ b, s.min? = some b ↔ IsLeast X b
  min?_none : s.min? = none ↔ X = ∅
  max? : ∀ b, s.max? = some b ↔ IsGreatest X b
  max?_none : s.max? = none ↔ X = ∅
  isEmpty : s.isEmpty = true ↔ s.card = 0
  isFull : s.isFull = true ↔ s.card = 256
  card_complement : s.card + s.complement.card = 256
  complement_complement : s.complement.complement = s

theorem card_eq_ncard_members (s : ByteSet) : s.card = s.members.ncard := by
  have hnodup := Byte.nodup_of_ascending s.pairwise_toList
  have hset : s.members = s.toList.toFinset := by
    ext b
    rw [mem_members, ← mem_toList, Finset.mem_coe, List.mem_toFinset]
  rw [hset, Set.ncard_coe_finset, List.toFinset_card_of_nodup hnodup, card_eq_length_toList]

theorem members_eq_empty_iff : s.members = ∅ ↔ s = empty := by
  rw [Set.eq_empty_iff_forall_notMem]
  constructor
  · intro h
    exact ext fun b => iff_of_false (h b) (not_mem_empty b)
  · rintro rfl
    exact not_mem_empty

theorem shows_members (s : ByteSet) : Shows s s.members where
  contains _ := Iff.rfl
  card := s.card_eq_ncard_members
  toList_ascending := s.pairwise_toList
  mem_toList _ := mem_toList
  toListDesc := s.toListDesc_eq
  missing_ascending := s.pairwise_missing
  mem_missing _ := mem_missing
  missingDesc := s.missingDesc_eq
  missing_eq := s.missing_eq_toList_complement
  min? _ := min?_eq_some_iff
  min?_none := min?_eq_none_iff.trans members_eq_empty_iff.symm
  max? _ := max?_eq_some_iff
  max?_none := max?_eq_none_iff.trans members_eq_empty_iff.symm
  isEmpty := isEmpty_iff.trans card_eq_zero_iff.symm
  isFull := isFull_iff.trans card_eq_256_iff.symm
  card_complement := s.card_complement
  complement_complement := s.complement_complement

/-! ## One edit -/

namespace Edit

/-- The edit of a mathematical set. -/
def onMembers (X : Set Byte) : Edit → Set Byte
  | insert b => X ∪ {b}
  | erase b => X \ {b}
  | insertAll bs => X ∪ {b | b ∈ bs}
  | complement => Xᶜ

/-- Inserting reports that the byte was absent, erasing that it was present. -/
def Reports (X : Set Byte) : Edit → Option Bool → Prop
  | insert b, r => ∃ absent, r = some absent ∧ (absent = true ↔ b ∉ X)
  | erase b, r => ∃ present, r = some present ∧ (present = true ↔ b ∈ X)
  | insertAll _, r => r = none
  | complement, r => r = none

theorem members_apply (s : ByteSet) (e : Edit) :
    (e.apply s).members = e.onMembers s.members := by
  refine Set.ext fun c => ?_
  cases e with
  | insert b =>
    rw [mem_members, apply, mem_insert, or_comm]
    rfl
  | erase b =>
    rw [mem_members, apply, mem_erase, and_comm]
    rfl
  | insertAll bs =>
    rw [mem_members, apply, mem_insertAll]
    rfl
  | complement =>
    rw [mem_members, apply, mem_complement]
    rfl

theorem reports_report (s : ByteSet) (e : Edit) : e.Reports s.members (e.report s) := by
  cases e with
  | insert b =>
    refine ⟨_, rfl, ?_⟩
    rw [mem_members, mem_iff]
    simp
  | erase b => exact ⟨_, rfl, Iff.rfl⟩
  | insertAll bs => rfl
  | complement => rfl

end Edit

/-! ## Runs -/

/-- In each step the report is right and the set shows the edited mathematical set. -/
inductive Follows : Set Byte → List Edit → List (Option Bool × ByteSet) → Prop
  | nil {X : Set Byte} : Follows X [] []
  | cons {X : Set Byte} {e : Edit} {es : List Edit} {r : Option Bool} {t : ByteSet}
      {rest : List (Option Bool × ByteSet)} :
      e.Reports X r → Shows t (e.onMembers X) → Follows (e.onMembers X) es rest →
        Follows X (e :: es) ((r, t) :: rest)

theorem follows_run (s : ByteSet) (es : List Edit) : Follows s.members es (s.run es) := by
  induction es generalizing s with
  | nil => exact Follows.nil
  | cons e es ih =>
    have hstep := e.members_apply s
    refine Follows.cons (e.reports_report s) ?_ ?_
    · rw [← hstep]
      exact shows_members _
    · rw [← hstep]
      exact ih (e.apply s)

theorem contains_insert_of_ne (s : ByteSet) (h : c ≠ b) :
    (s.insert b).contains c = s.contains c := by
  rw [Bool.eq_iff_iff, ← mem_iff, ← mem_iff, mem_insert]
  exact or_iff_right h

theorem contains_erase_of_ne (s : ByteSet) (h : c ≠ b) :
    (s.erase b).contains c = s.contains c := by
  rw [Bool.eq_iff_iff, ← mem_iff, ← mem_iff, mem_erase]
  exact and_iff_right h

/-- The set that a run starts from, and those after its edits. -/
def reached (s : ByteSet) (es : List Edit) : List ByteSet := s :: (s.run es).map Prod.snd

/-- **Sets of bytes behave as mathematical sets.** From any set on, every edit of any run is
reported as the mathematical set has it and leads to a set that shows the edited mathematical set.
Inserting and erasing a byte leave all other bytes alone. Two reached sets are equal if they have
the same members, whatever the runs that led to them. -/
theorem run_follows_members (s : ByteSet) (es : List Edit) :
    Shows s s.members ∧ Follows s.members es (s.run es) ∧
    (∀ t ∈ s.reached es, ∀ b c, c ≠ b →
      ((Edit.insert b).apply t).contains c = t.contains c ∧
      ((Edit.erase b).apply t).contains c = t.contains c) ∧
    (∀ (s' : ByteSet) (es' : List Edit), ∀ t ∈ s.reached es, ∀ t' ∈ s'.reached es',
      t = t' ↔ ∀ b, t.contains b = t'.contains b) := by
  refine ⟨shows_members s, follows_run s es, ?_, ?_⟩
  · intro t _ b c h
    exact ⟨contains_insert_of_ne t h, contains_erase_of_ne t h⟩
  · intro s' es' t _ t' _
    exact eq_iff_contains_eq

/-- Two runs to the bytes on both sides of a border between words, and a byte left alone. -/
theorem run_follows_members_63_64 :
    ((Edit.erase 64).apply ((ofList [63]).insert 64)).contains 63 =
      ((ofList [63]).insert 64).contains 63 ∧
    (ofList [63]).insert 64 = (full.complement.insertAll [64, 63, 64, 0]).erase 0 := by
  obtain ⟨_, _, hothers, hequal⟩ := run_follows_members (ofList [63]) [.insert 64]
  have hreached : (ofList [63]).insert 64 ∈ (ofList [63]).reached [.insert 64] := by
    simp [reached, run, Edit.apply]
  have hreached' : (full.complement.insertAll [64, 63, 64, 0]).erase 0 ∈
      full.reached [.complement, .insertAll [64, 63, 64, 0], .erase 0] := by
    simp [reached, run, Edit.apply]
  refine ⟨(hothers _ hreached 64 63 (by decide)).2, ?_⟩
  refine (hequal full [.complement, .insertAll [64, 63, 64, 0], .erase 0] _ hreached _
    hreached').mpr (Byte.forall_of_lt ?_)
  decide +kernel

end Bytewise.ByteSet

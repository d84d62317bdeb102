import Bytewise.Proofs.ByteSet.Ascending

/-!
# Collecting and listing

A list collected into a set byte by byte leaves its members behind, and neither their order nor
their repetitions. The listed members, ascending or descending, are one way back: collected again,
they make the set.

* `insertAll_eq_iff`: when two insertions end in the same set;
* `insertAll_comm`, `insertAll_append`, `insertAll_of_forall_mem`: insertions one after another;
* `toList_ofList_eq_iff`: the one list that a collected list is listed as;
* `card_ofList_of_nodup`: the number of members of a list without repetitions;
* `ofList_inverse_toList`: all of it.

Core Lean only.
-/

namespace Bytewise.ByteSet

variable {s t : ByteSet} {xs ys : List Byte}

/-! ## Insertions -/

/-- What a run of insertions ends in is told by the members at its start and the bytes inserted. -/
theorem insertAll_eq_iff :
    s.insertAll xs = t.insertAll ys ↔ ∀ b, b ∈ s ∨ b ∈ xs ↔ b ∈ t ∨ b ∈ ys := by
  constructor
  · intro h b
    rw [← mem_insertAll, ← mem_insertAll, h]
  · intro h
    apply ext
    intro b
    rw [mem_insertAll, mem_insertAll]
    exact h b

theorem insertAll_comm (s : ByteSet) (xs ys : List Byte) :
    (s.insertAll xs).insertAll ys = (s.insertAll ys).insertAll xs := by
  rw [insertAll_eq_iff]
  intro b
  rw [mem_insertAll, mem_insertAll]
  exact or_right_comm

theorem insertAll_append (s : ByteSet) (xs ys : List Byte) :
    (s.insertAll xs).insertAll ys = s.insertAll (xs ++ ys) :=
  List.foldl_append.symm

/-- Inserting bytes that are there changes nothing. -/
theorem insertAll_of_forall_mem (h : ∀ b ∈ xs, b ∈ s) : s.insertAll xs = s := by
  apply ext
  intro b
  rw [mem_insertAll]
  constructor
  · rintro (hb | hb)
    · exact hb
    · exact h b hb
  · exact Or.inl

theorem insertAll_self (s : ByteSet) (xs : List Byte) :
    (s.insertAll xs).insertAll xs = s.insertAll xs :=
  insertAll_of_forall_mem fun _ hb => mem_insertAll.mpr (Or.inr hb)

/-! ## There and back -/

theorem ofList_eq_ofList_iff : ofList xs = ofList ys ↔ ∀ b, b ∈ xs ↔ b ∈ ys := by
  rw [ofList, ofList, insertAll_eq_iff]
  simp only [not_mem_empty, false_or]

/-- A collected list is listed as the ascending list of its members. -/
theorem toList_ofList_eq_iff :
    (ofList xs).toList = ys ↔ ys.Pairwise (· < ·) ∧ ∀ b, b ∈ ys ↔ b ∈ xs := by
  constructor
  · rintro rfl
    refine ⟨pairwise_toList _, fun b => ?_⟩
    rw [mem_toList, mem_ofList]
  · rintro ⟨hys, hmem⟩
    rw [toList_eq_iff hys]
    intro b
    rw [mem_ofList, hmem]

/-- A list that repeats no byte has as many members. -/
theorem card_ofList_of_nodup (h : xs.Nodup) : (ofList xs).card = xs.length := by
  have hnodup := Byte.nodup_of_ascending (pairwise_toList (ofList xs))
  rw [card_eq_length_toList]
  refine ((List.perm_ext_iff_of_nodup hnodup h).mpr fun b => ?_).length_eq
  rw [mem_toList, mem_ofList]

theorem ofList_toListDesc (s : ByteSet) : ofList s.toListDesc = s := by
  have hmem : ofList s.toListDesc = ofList s.toList := by
    rw [ofList_eq_ofList_iff, toListDesc_eq]
    intro b
    exact List.mem_reverse
  rw [hmem, ofList_toList]

/-- **Collecting and listing are inverse.** A collected list is listed as its distinct members,
ascending, and nothing else of it enters into the set. Collecting the members of a set in either
direction makes the set. Lists may be inserted in any order or as one, and a list inserted before
adds nothing. -/
theorem ofList_inverse_toList :
    (∀ xs ys : List Byte,
      (ofList xs).toList = ys ↔ ys.Pairwise (· < ·) ∧ ∀ b, b ∈ ys ↔ b ∈ xs) ∧
    (∀ s : ByteSet, ofList s.toList = s ∧ ofList s.toListDesc = s ∧
      s.toListDesc = s.toList.reverse) ∧
    (∀ xs ys : List Byte, ofList xs = ofList ys ↔ ∀ b, b ∈ xs ↔ b ∈ ys) ∧
    (∀ (s : ByteSet) (xs ys : List Byte),
      (s.insertAll xs).insertAll ys = (s.insertAll ys).insertAll xs ∧
      (s.insertAll xs).insertAll ys = s.insertAll (xs ++ ys) ∧
      (s.insertAll xs).insertAll xs = s.insertAll xs ∧
      ((s.insertAll xs).insertAll ys).insertAll xs = (s.insertAll xs).insertAll ys) := by
  refine ⟨fun _ _ => toList_ofList_eq_iff, fun s => ?_, fun _ _ => ofList_eq_ofList_iff, ?_⟩
  · exact ⟨s.ofList_toList, s.ofList_toListDesc, s.toListDesc_eq⟩
  · intro s xs ys
    refine ⟨s.insertAll_comm xs ys, s.insertAll_append xs ys, s.insertAll_self xs, ?_⟩
    rw [insertAll_comm, insertAll_self, insertAll_comm]

example : (ofList [99, 97, 98, 97, 255, 0]).toList = [0, 97, 98, 99, 255] := by decide +kernel

end Bytewise.ByteSet

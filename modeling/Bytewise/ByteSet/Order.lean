import Bytewise.ByteSet.Basic

/-!
# Order and number of the members

* `pairwise_toList`: the members are listed ascending, so each is listed once;
* `card_eq_length_toList`: the number of bits set in the word is the number of members listed;
* `card_complement`: a set and its complement have 256 members together;
* `min?_eq_head?`, `max?_eq_getLast?`: the first and the last member are the ends of the list.

Core Lean only.
-/

namespace Bytewise.ByteSet

theorem pairwise_toList (s : ByteSet) : s.toList.Pairwise (· < ·) :=
  Byte.pairwise_all.filter _

theorem pairwise_missing (s : ByteSet) : s.missing.Pairwise (· < ·) :=
  Byte.pairwise_all.filter _

theorem toListDesc_eq (s : ByteSet) : s.toListDesc = s.toList.reverse := by
  rw [toListDesc, toList, List.filter_reverse]

theorem missingDesc_eq (s : ByteSet) : s.missingDesc = s.missing.reverse := by
  rw [missingDesc, missing, List.filter_reverse]

theorem contains_complement (s : ByteSet) (b : Byte) :
    s.complement.contains b = !s.contains b := by
  have h := mem_complement (s := s) (b := b)
  rw [mem_iff, mem_iff] at h
  cases hs : s.contains b <;> simp_all

theorem missing_eq_toList_complement (s : ByteSet) : s.missing = s.complement.toList := by
  rw [missing, toList]
  exact List.filter_congr fun b _ => (contains_complement s b).symm

theorem complement_complement (s : ByteSet) : s.complement.complement = s :=
  ext fun b => by rw [mem_complement, mem_complement, Decidable.not_not]

theorem toList_inj {s t : ByteSet} : s.toList = t.toList ↔ s = t := by
  constructor
  · intro h
    exact ext fun b => by rw [← mem_toList, h, mem_toList]
  · exact congrArg toList

theorem ofList_toList (s : ByteSet) : ofList s.toList = s :=
  ext fun b => by rw [mem_ofList, mem_toList]

/-! ## Number of members -/

theorem cpopNatRec_eq_countP {w : Nat} (x : BitVec w) (n : Nat) :
    x.cpopNatRec n 0 = (List.range n).countP x.getLsbD := by
  induction n with
  | zero => rfl
  | succ n ih =>
    rw [BitVec.cpopNatRec_succ, BitVec.cpopNatRec_eq, ih, List.range_succ, List.countP_append]
    cases h : x.getLsbD n <;> simp [h]

theorem card_eq_countP (s : ByteSet) : s.card = (List.range 256).countP s.bits.getLsbD := by
  have hle : (List.range 256).countP s.bits.getLsbD ≤ 256 := by
    simpa using List.countP_le_length (p := s.bits.getLsbD) (l := List.range 256)
  rw [card, BitVec.cpop, BitVec.toNat_ofNat, cpopNatRec_eq_countP]
  exact Nat.mod_eq_of_lt (Nat.lt_of_le_of_lt hle (by decide))

theorem card_eq_length_toList (s : ByteSet) : s.card = s.toList.length := by
  have hall : Byte.all = (List.range 256).map UInt8.ofNat := by
    rw [List.range_eq_range']; rfl
  rw [card_eq_countP, toList, hall, ← List.countP_eq_length_filter, List.countP_map]
  refine List.countP_congr fun n hn => ?_
  rw [List.mem_range] at hn
  simp [contains, Nat.mod_eq_of_lt hn]

theorem card_le (s : ByteSet) : s.card ≤ 256 := by
  rw [card_eq_length_toList, toList]
  exact Byte.length_filter_all_le _

theorem card_complement (s : ByteSet) : s.card + s.complement.card = 256 := by
  rw [card_eq_length_toList, card_eq_length_toList, ← missing_eq_toList_complement, toList,
    missing, ← List.countP_eq_length_filter, ← List.countP_eq_length_filter, ← Byte.length_all,
    List.length_eq_countP_add_countP s.contains]
  simp

theorem isEmpty_iff {s : ByteSet} : s.isEmpty = true ↔ s = empty := by
  obtain ⟨bits⟩ := s
  simp [isEmpty, empty]

theorem isFull_iff {s : ByteSet} : s.isFull = true ↔ s = full := by
  obtain ⟨bits⟩ := s
  simp only [isFull, full, beq_iff_eq, mk.injEq]

theorem card_eq_zero_iff {s : ByteSet} : s.card = 0 ↔ s = empty := by
  rw [card_eq_length_toList, List.length_eq_zero_iff]
  constructor
  · intro h
    exact ext fun b => by
      rw [← mem_toList, h]
      exact iff_of_false List.not_mem_nil (not_mem_empty b)
  · rintro rfl
    exact List.eq_nil_iff_forall_not_mem.2 fun b hb => not_mem_empty b (mem_toList.1 hb)

theorem complement_full : full.complement = empty :=
  ext fun b => by
    rw [mem_complement]
    exact iff_of_false (not_not_intro (mem_full b)) (not_mem_empty b)

theorem complement_empty : empty.complement = full := by
  rw [← complement_full, complement_complement]

theorem card_eq_256_iff {s : ByteSet} : s.card = 256 ↔ s = full := by
  have h := card_complement s
  constructor
  · intro hs
    have : s.complement = empty := card_eq_zero_iff.1 (by omega)
    rw [← complement_complement s, this, complement_empty]
  · rintro rfl
    rw [complement_full, card_eq_zero_iff.2 rfl] at h
    omega

/-! ## First and last -/

theorem min?_eq_head? (s : ByteSet) : s.min? = s.toList.head? := by
  rw [min?, toList, List.head?_filter]

theorem max?_eq_getLast? (s : ByteSet) : s.max? = s.toList.getLast? := by
  rw [← List.head?_reverse, ← toListDesc_eq, toListDesc, List.head?_filter, max?]

theorem min?_eq_none_iff {s : ByteSet} : s.min? = none ↔ s = empty := by
  rw [min?_eq_head?, List.head?_eq_none_iff, ← card_eq_zero_iff, card_eq_length_toList,
    List.length_eq_zero_iff]

theorem max?_eq_none_iff {s : ByteSet} : s.max? = none ↔ s = empty := by
  rw [max?_eq_getLast?, List.getLast?_eq_none_iff, ← card_eq_zero_iff, card_eq_length_toList,
    List.length_eq_zero_iff]

end Bytewise.ByteSet

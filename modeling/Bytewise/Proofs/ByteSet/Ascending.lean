import Bytewise.ByteSet.Order

/-!
# Ascending lists

An ascending list of bytes is determined by its members. What is computed from the listed members of
a set, its size and its ends, can therefore be read off any ascending list of the same members.

* `Byte.eq_of_ascending`: two ascending lists with the same members are equal;
* `ByteSet.toList_eq_iff`: the listed members are the only ascending list of the members;
* `ByteSet.min?_eq_some_iff`, `ByteSet.max?_eq_some_iff`: the ends are the extreme members.

Core Lean only.
-/

namespace Bytewise

namespace Byte

/-- A list in which every byte lies below all later ones. -/
abbrev Ascending (bs : List Byte) : Prop := bs.Pairwise (· < ·)

theorem nodup_of_ascending {bs : List Byte} (h : Ascending bs) : bs.Nodup := by
  apply h.imp
  intro a b hab he
  rw [he] at hab
  exact UInt8.lt_irrefl b hab

/-- **An ascending list is determined by its members.** -/
theorem eq_of_ascending {bs cs : List Byte} (hb : Ascending bs) (hc : Ascending cs)
    (h : ∀ b, b ∈ bs ↔ b ∈ cs) : bs = cs := by
  have hp : bs.Perm cs :=
    (List.perm_ext_iff_of_nodup (nodup_of_ascending hb) (nodup_of_ascending hc)).mpr h
  exact hp.eq_of_pairwise (fun _ _ _ _ h₁ h₂ => absurd h₂ (UInt8.lt_asymm h₁)) hb hc

/-- The first byte of an ascending list is its smallest. -/
theorem head?_eq_some_iff {bs : List Byte} (h : Ascending bs) {b : Byte} :
    bs.head? = some b ↔ b ∈ bs ∧ ∀ c ∈ bs, b ≤ c := by
  cases bs with
  | nil => simp
  | cons a bs =>
    have ha := (List.pairwise_cons.mp h).1
    simp only [List.head?_cons, Option.some.injEq]
    constructor
    · rintro rfl
      refine ⟨List.mem_cons_self .., fun c hc => ?_⟩
      rcases List.mem_cons.mp hc with rfl | hc
      · exact UInt8.le_refl _
      · exact UInt8.le_of_lt (ha c hc)
    · rintro ⟨hb, hle⟩
      rcases List.mem_cons.mp hb with hb | hb
      · exact hb.symm
      · have hba : b ≤ a := hle a (List.mem_cons_self ..)
        exact absurd (ha b hb) (UInt8.not_lt.mpr hba)

/-- The last byte of an ascending list is its largest. -/
theorem getLast?_eq_some_iff {bs : List Byte} (h : Ascending bs) {b : Byte} :
    bs.getLast? = some b ↔ b ∈ bs ∧ ∀ c ∈ bs, c ≤ b := by
  rw [List.getLast?_eq_some_iff]
  constructor
  · rintro ⟨as, rfl⟩
    have hlt := (List.pairwise_append.mp h).2.2
    refine ⟨by simp, fun c hc => ?_⟩
    rcases List.mem_append.mp hc with hc | hc
    · exact UInt8.le_of_lt (hlt c hc b (List.mem_singleton.mpr rfl))
    · rw [List.mem_singleton.mp hc]
      exact UInt8.le_refl _
  · rintro ⟨hb, hle⟩
    obtain ⟨as, a, rfl⟩ : ∃ as a, bs = as ++ [a] := by
      cases hbs : bs.getLast? with
      | none => simp [List.getLast?_eq_none_iff.mp hbs] at hb
      | some a => exact (List.getLast?_eq_some_iff.mp hbs).imp fun as h => ⟨a, h⟩
    have hlt := (List.pairwise_append.mp h).2.2
    rcases List.mem_append.mp hb with hb | hb
    · have hab := hlt b hb a (List.mem_singleton.mpr rfl)
      exact absurd hab (UInt8.not_lt.mpr (hle a (by simp)))
    · rw [List.mem_singleton.mp hb]
      exact ⟨as, rfl⟩

end Byte

namespace ByteSet

/-- **The listed members are the only ascending list of the members.** -/
theorem toList_eq_iff {s : ByteSet} {bs : List Byte} (h : Byte.Ascending bs) :
    s.toList = bs ↔ ∀ b, b ∈ s ↔ b ∈ bs := by
  constructor
  · intro hs b
    rw [← mem_toList, hs]
  · intro hm
    exact Byte.eq_of_ascending s.pairwise_toList h fun b => mem_toList.trans (hm b)

theorem min?_eq_some_iff {s : ByteSet} {b : Byte} : s.min? = some b ↔ b ∈ s ∧ ∀ c ∈ s, b ≤ c := by
  rw [min?_eq_head?, Byte.head?_eq_some_iff s.pairwise_toList]
  simp only [mem_toList]

theorem max?_eq_some_iff {s : ByteSet} {b : Byte} : s.max? = some b ↔ b ∈ s ∧ ∀ c ∈ s, c ≤ b := by
  rw [max?_eq_getLast?, Byte.getLast?_eq_some_iff s.pairwise_toList]
  simp only [mem_toList]

end ByteSet

end Bytewise

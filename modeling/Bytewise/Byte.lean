/-!
# Bytes

The 256 values that everything else is about, their intervals and the two cases of ASCII letters.

* `mem_between`, `pairwise_between`: the bytes of an interval, each once and ascending;
* `mem_all`, `pairwise_all`, `length_all`: every byte, each once and ascending;
* `forall_of_lt`: a statement on all bytes follows from its 256 instances;
* `toUpper_eq_iff`: folding to upper case sends two bytes to each upper-case letter.

Core Lean only.
-/

namespace Bytewise

/-- A value between 0 and 255. -/
abbrev Byte := UInt8

namespace Byte

/-- Lets `decide` settle a closed statement on all bytes. -/
theorem forall_of_lt {P : Byte → Prop} (h : ∀ n, n < 256 → P (UInt8.ofNat n)) (b : Byte) :
    P b := by
  have hb := h b.toNat b.toNat_lt
  rwa [UInt8.ofNat_toNat] at hb

theorem toNat_ofNat_of_lt {n : Nat} (h : n < 256) : (UInt8.ofNat n).toNat = n := by
  simp [UInt8.toNat_ofNat', Nat.mod_eq_of_lt h]

/-- Below the last byte there is no overflow. -/
theorem toNat_succ_of_lt {b : Byte} (h : b.toNat < 255) : (b + 1).toNat = b.toNat + 1 := by
  rw [UInt8.toNat_add, UInt8.toNat_one]
  omega

/-! ## Intervals -/

/-- The bytes from `lo` to `hi`, both included, ascending. There are none when `hi < lo`. -/
def between (lo hi : Byte) : List Byte :=
  (List.range' lo.toNat (hi.toNat + 1 - lo.toNat)).map UInt8.ofNat

theorem mem_between {lo hi b : Byte} : b ∈ between lo hi ↔ lo ≤ b ∧ b ≤ hi := by
  have hhi := hi.toNat_lt
  rw [UInt8.le_iff_toNat_le, UInt8.le_iff_toNat_le]
  simp only [between, List.mem_map, List.mem_range'_1]
  constructor
  · rintro ⟨n, hn, rfl⟩
    rw [toNat_ofNat_of_lt (by omega)]
    omega
  · intro h
    exact ⟨b.toNat, by omega, UInt8.ofNat_toNat⟩

theorem pairwise_between (lo hi : Byte) : (between lo hi).Pairwise (· < ·) := by
  have hhi := hi.toNat_lt
  rw [between, List.pairwise_map]
  refine (List.pairwise_lt_range' 1).imp_of_mem fun {m n} hm hn h => ?_
  rw [List.mem_range'_1] at hm hn
  rw [UInt8.lt_iff_toNat_lt, toNat_ofNat_of_lt (by omega), toNat_ofNat_of_lt (by omega)]
  exact h

theorem length_between (lo hi : Byte) :
    (between lo hi).length = hi.toNat + 1 - lo.toNat := by
  simp [between]

/-- Every byte, ascending. -/
def all : List Byte := between 0 255

theorem le_last (b : Byte) : b ≤ 255 :=
  UInt8.le_iff_toNat_le.2 (Nat.le_of_lt_succ b.toNat_lt)

@[simp] theorem mem_all (b : Byte) : b ∈ all :=
  mem_between.2 ⟨UInt8.zero_le, le_last b⟩

theorem pairwise_all : all.Pairwise (· < ·) := pairwise_between 0 255

@[simp] theorem length_all : all.length = 256 := length_between 0 255

theorem length_filter_all_le (p : Byte → Bool) : (all.filter p).length ≤ 256 :=
  Nat.le_trans (List.length_filter_le p all) (Nat.le_of_eq length_all)

/-! ## ASCII letters -/

/-- `A` to `Z`. -/
def isUpper (b : Byte) : Bool := 65 ≤ b && b ≤ 90

/-- `a` to `z`. -/
def isLower (b : Byte) : Bool := 97 ≤ b && b ≤ 122

/-- An ASCII letter of either case. -/
def isLetter (b : Byte) : Bool := isUpper b || isLower b

/-- The upper case of a lower-case letter; other bytes stay as they are. -/
def toUpper (b : Byte) : Byte := if isLower b then b - 32 else b

/-- The lower case of an upper-case letter; other bytes stay as they are. -/
def toLower (b : Byte) : Byte := if isUpper b then b + 32 else b

theorem isUpper_iff {b : Byte} : isUpper b = true ↔ 65 ≤ b ∧ b ≤ 90 := by simp [isUpper]

theorem isLower_iff {b : Byte} : isLower b = true ↔ 97 ≤ b ∧ b ≤ 122 := by simp [isLower]

theorem isLetter_iff {b : Byte} : isLetter b = true ↔ isUpper b = true ∨ isLower b = true := by
  simp [isLetter]

theorem isUpper_toUpper_iff {b : Byte} : isUpper (toUpper b) = true ↔ isLetter b = true := by
  simp only [toUpper, isLetter_iff, isUpper_iff, isLower_iff]
  grind

/-- Only the two cases of an upper-case letter fold to it. -/
theorem toUpper_eq_iff {u b : Byte} (h : isUpper u = true) :
    toUpper b = u ↔ b = u ∨ b = toLower u := by
  rw [isUpper_iff] at h
  simp only [toUpper, toLower, isUpper_iff, isLower_iff]
  grind

theorem toLower_of_isUpper {u : Byte} (h : isUpper u = true) : toLower u = u + 32 := if_pos h

theorem lt_toLower {u : Byte} (h : isUpper u = true) : u < toLower u := by
  rw [toLower_of_isUpper h]
  rw [isUpper_iff] at h
  grind

end Byte

end Bytewise

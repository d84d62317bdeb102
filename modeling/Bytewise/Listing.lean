import Bytewise.ByteSet.Order

/-!
# Listings

A set of bytes written out as an ascending array. A byte is looked up by halving the window of
places in which it can still be.

* `contains_iff`: the search finds a byte exactly when the array holds it.

Core Lean only.
-/

namespace Bytewise

structure Listing where
  values : Array Byte
  ascending : values.toList.Pairwise (· < ·)
  deriving DecidableEq

namespace Listing

/-- The members of a set, written out. -/
def ofSet (s : ByteSet) : Listing := ⟨s.toList.toArray, s.pairwise_toList⟩

def size (l : Listing) : Nat := l.values.size

def toList (l : Listing) : List Byte := l.values.toList

/-- The place of `b` among the places `lo ≤ i < hi`. -/
def search (values : Array Byte) (b : Byte) (lo hi : Nat) (h : hi ≤ values.size) : Option Nat :=
  if hlt : lo < hi then
    let mid := lo + (hi - lo) / 2
    have hmid : mid < values.size := by omega
    if values[mid] = b then some mid
    else if values[mid] < b then search values b (mid + 1) hi h
    else search values b lo mid (Nat.le_of_lt hmid)
  else none
termination_by hi - lo

/-- The place of a byte in the listing. -/
def indexOf? (l : Listing) (b : Byte) : Option Nat :=
  search l.values b 0 l.values.size (Nat.le_refl _)

def contains (l : Listing) (b : Byte) : Bool := (l.indexOf? b).isSome

theorem toList_ofSet (s : ByteSet) : (ofSet s).toList = s.toList := rfl

theorem size_ofSet (s : ByteSet) : (ofSet s).size = s.card := by
  rw [ByteSet.card_eq_length_toList, size, ofSet, List.size_toArray]

theorem getElem_lt {l : Listing} {i j : Nat} (hij : i < j) (hj : j < l.values.size) :
    l.values[i] < l.values[j] := by
  have h := List.pairwise_iff_getElem.1 l.ascending i j (by simp; omega) (by simpa using hj) hij
  simpa using h

theorem search_sound {values : Array Byte} {b : Byte} {lo hi i : Nat} {h : hi ≤ values.size}
    (hs : search values b lo hi h = some i) : values[i]? = some b := by
  fun_induction search values b lo hi h with
  | case1 lo hi h hlt mid hmid heq =>
    rw [← Option.some.inj hs, Array.getElem?_eq_getElem hmid, heq]
  | case2 lo hi h hlt mid hmid hne hless ih => exact ih hs
  | case3 lo hi h hlt mid hmid hne hless ih => exact ih hs
  | case4 => cases hs

theorem search_complete {l : Listing} {b : Byte} {lo hi k : Nat} {h : hi ≤ l.values.size}
    (hlo : lo ≤ k) (hhi : k < hi) (hk : l.values[k]? = some b) :
    (search l.values b lo hi h).isSome = true := by
  fun_induction search l.values b lo hi h with
  | case1 => rfl
  | case2 lo hi h hlt mid hmid hne hless ih =>
    refine ih ?_ hhi
    rw [Array.getElem?_eq_getElem (by omega)] at hk
    have hkb := Option.some.inj hk
    rcases Nat.lt_trichotomy mid k with hmk | hmk | hmk
    · exact hmk
    · subst hmk
      exact absurd hkb hne
    · exact absurd (hkb ▸ getElem_lt hmk hmid) (UInt8.lt_asymm hless)
  | case3 lo hi h hlt mid hmid hne hless ih =>
    refine ih hlo ?_
    rw [Array.getElem?_eq_getElem (by omega)] at hk
    have hkb := Option.some.inj hk
    rcases Nat.lt_trichotomy mid k with hmk | hmk | hmk
    · exact absurd (hkb ▸ getElem_lt hmk (by omega)) hless
    · subst hmk
      exact absurd hkb hne
    · exact hmk
  | case4 => omega

theorem contains_iff {l : Listing} {b : Byte} : l.contains b = true ↔ b ∈ l.toList := by
  rw [contains, indexOf?, toList, Array.mem_toList_iff, Array.mem_iff_getElem?]
  constructor
  · intro h
    obtain ⟨i, hi⟩ := Option.isSome_iff_exists.1 h
    exact ⟨i, search_sound hi⟩
  · rintro ⟨k, hk⟩
    obtain ⟨hlt, _⟩ := Array.getElem?_eq_some_iff.1 hk
    exact search_complete (Nat.zero_le k) hlt hk

theorem contains_ofSet (s : ByteSet) (b : Byte) : (ofSet s).contains b = s.contains b := by
  rw [Bool.eq_iff_iff, contains_iff, toList_ofSet, ByteSet.mem_toList, ByteSet.mem_iff]

end Listing

end Bytewise

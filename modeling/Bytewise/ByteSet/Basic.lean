import Bytewise.Byte

/-!
# Sets of bytes

A set of bytes is a word of 256 bits, bit `b` telling whether byte `b` is a member. Membership is
the one view of a set: each operation has a lemma that says what it does to the members, and
`ByteSet.ext` says that the members are all there is.

Core Lean only.
-/

namespace Bytewise

structure ByteSet where
  bits : BitVec 256
  deriving DecidableEq

namespace ByteSet

/-- The set without members. -/
def empty : ByteSet := ⟨0#256⟩

/-- The set of every byte. -/
def full : ByteSet := ⟨BitVec.allOnes 256⟩

instance : EmptyCollection ByteSet := ⟨empty⟩

instance : Inhabited ByteSet := ⟨empty⟩

def contains (s : ByteSet) (b : Byte) : Bool := s.bits.getLsbD b.toNat

instance : Membership Byte ByteSet := ⟨fun s b => s.contains b = true⟩

instance (b : Byte) (s : ByteSet) : Decidable (b ∈ s) :=
  inferInstanceAs (Decidable (s.contains b = true))

def insert (s : ByteSet) (b : Byte) : ByteSet := ⟨s.bits ||| BitVec.twoPow 256 b.toNat⟩

def erase (s : ByteSet) (b : Byte) : ByteSet := ⟨s.bits &&& ~~~BitVec.twoPow 256 b.toNat⟩

/-- The bytes that are not in the set. -/
def complement (s : ByteSet) : ByteSet := ⟨~~~s.bits⟩

/-- The set itself, or its complement when `inverse` holds. -/
def complementIf (s : ByteSet) (inverse : Bool) : ByteSet :=
  if inverse then s.complement else s

/-- Inserts the bytes of a list one after another. -/
def insertAll (s : ByteSet) (bs : List Byte) : ByteSet := bs.foldl insert s

def eraseAll (s : ByteSet) (bs : List Byte) : ByteSet := bs.foldl erase s

/-- The set of the bytes that occur in a list. -/
def ofList (bs : List Byte) : ByteSet := empty.insertAll bs

/-- The set of the bytes that pass a test. -/
def ofPred (p : Byte → Bool) : ByteSet := ofList (Byte.all.filter p)

/-- The number of members, from 0 to 256. -/
def card (s : ByteSet) : Nat := s.bits.cpop.toNat

def isEmpty (s : ByteSet) : Bool := s.bits == 0#256

def isFull (s : ByteSet) : Bool := s.bits == BitVec.allOnes 256

/-- The smallest member. -/
def min? (s : ByteSet) : Option Byte := Byte.all.find? s.contains

/-- The largest member. -/
def max? (s : ByteSet) : Option Byte := Byte.all.reverse.find? s.contains

/-- The members, ascending. -/
def toList (s : ByteSet) : List Byte := Byte.all.filter s.contains

/-- The members, descending. -/
def toListDesc (s : ByteSet) : List Byte := Byte.all.reverse.filter s.contains

/-- The bytes that are not members, ascending. -/
def missing (s : ByteSet) : List Byte := Byte.all.filter (!s.contains ·)

/-- The bytes that are not members, descending. -/
def missingDesc (s : ByteSet) : List Byte := Byte.all.reverse.filter (!s.contains ·)

/-- The word in 32 bytes, lowest first: byte `b` is bit `b % 8` of byte `b / 8`. -/
def image (s : ByteSet) : List Byte :=
  (List.range 32).map fun i => ⟨s.bits.extractLsb' (8 * i) 8⟩

/-! ## Members -/

theorem mem_iff {s : ByteSet} {b : Byte} : b ∈ s ↔ s.contains b = true := Iff.rfl

theorem ext {s t : ByteSet} (h : ∀ b, b ∈ s ↔ b ∈ t) : s = t := by
  obtain ⟨s⟩ := s
  obtain ⟨t⟩ := t
  refine congrArg mk (BitVec.eq_of_getLsbD_eq fun i hi => ?_)
  have hb := h (UInt8.ofNat i)
  simpa [mem_iff, contains, Nat.mod_eq_of_lt hi] using Bool.eq_iff_iff.2 hb

theorem eq_iff_contains_eq {s t : ByteSet} : s = t ↔ ∀ b, s.contains b = t.contains b := by
  constructor
  · rintro rfl b
    rfl
  · intro h
    exact ext fun b => by rw [mem_iff, mem_iff, h b]

theorem not_mem_empty (b : Byte) : b ∉ empty := by simp [mem_iff, contains, empty]

theorem mem_full (b : Byte) : b ∈ full := by
  rw [mem_iff, contains, full, BitVec.getLsbD_allOnes]
  exact decide_eq_true b.toNat_lt

theorem mem_insert {s : ByteSet} {b c : Byte} : c ∈ s.insert b ↔ c = b ∨ c ∈ s := by
  have hb := b.toNat_lt
  simp only [mem_iff, contains, insert, BitVec.getLsbD_or, BitVec.getLsbD_twoPow,
    Bool.or_eq_true, Bool.and_eq_true, decide_eq_true_eq, UInt8.toNat_inj]
  grind

theorem mem_erase {s : ByteSet} {b c : Byte} : c ∈ s.erase b ↔ c ≠ b ∧ c ∈ s := by
  have hb := b.toNat_lt
  have hc := c.toNat_lt
  have hbc : b.toNat = c.toNat ↔ b = c := UInt8.toNat_inj
  simp only [mem_iff, contains, erase, BitVec.getLsbD_and, BitVec.getLsbD_not,
    BitVec.getLsbD_twoPow]
  grind

theorem mem_complement {s : ByteSet} {b : Byte} : b ∈ s.complement ↔ b ∉ s := by
  have hb := b.toNat_lt
  simp only [mem_iff, contains, complement, BitVec.getLsbD_not]
  grind

theorem mem_complementIf {s : ByteSet} {inverse : Bool} {b : Byte} :
    b ∈ s.complementIf inverse ↔ (s.contains b != inverse) = true := by
  cases inverse
  · simp [complementIf, mem_iff]
  · rw [complementIf, if_pos rfl, mem_complement, mem_iff]
    simp

theorem mem_insertAll {s : ByteSet} {bs : List Byte} {b : Byte} :
    b ∈ s.insertAll bs ↔ b ∈ s ∨ b ∈ bs := by
  induction bs generalizing s with
  | nil => simp [insertAll]
  | cons c bs ih =>
    have := ih (s := s.insert c)
    simp only [insertAll, List.foldl_cons] at this ⊢
    rw [this, mem_insert, List.mem_cons]
    grind

theorem mem_ofList {bs : List Byte} {b : Byte} : b ∈ ofList bs ↔ b ∈ bs := by
  simp [ofList, mem_insertAll, not_mem_empty]

theorem mem_ofPred {p : Byte → Bool} {b : Byte} : b ∈ ofPred p ↔ p b = true := by
  simp [ofPred, mem_ofList]

theorem mem_toList {s : ByteSet} {b : Byte} : b ∈ s.toList ↔ b ∈ s := by
  simp [toList, mem_iff]

theorem mem_missing {s : ByteSet} {b : Byte} : b ∈ s.missing ↔ b ∉ s := by
  simp [missing, mem_iff]

end ByteSet

end Bytewise

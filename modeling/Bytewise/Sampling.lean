import Bytewise.ByteSet.Basic
import Bytewise.Fault

/-!
# Sampling of sets

Sets of a wanted size from a source of distinct numbers. Whatever the source draws, the size is the
wanted one.

Core Lean only.
-/

namespace Bytewise

/-- Some `k` distinct numbers below `n`, in the order drawn. -/
structure Draw (n k : Nat) where
  numbers : List Nat
  lt_of_mem : ∀ i ∈ numbers, i < n
  nodup : numbers.Nodup
  length_eq : numbers.length = k

namespace Draw

/-- The one number of a single draw. -/
def single {n : Nat} (d : Draw n 1) : Nat :=
  d.numbers.head (List.ne_nil_of_length_eq_add_one d.length_eq)

/-- The set of the numbers drawn below 256. -/
def toSet {k : Nat} (d : Draw 256 k) : ByteSet := ByteSet.ofList (d.numbers.map UInt8.ofNat)

/-- The bytes from a drawn start on, `len` of them. -/
def toRun {len : Nat} (d : Draw (257 - len) 1) : ByteSet :=
  let first := UInt8.ofNat d.single
  ByteSet.ofList (Byte.between first (first + UInt8.ofNat (len - 1)))

end Draw

/-- Draws any number of distinct numbers below any bound that leaves room for them. -/
structure Source (σ : Type) where
  draw : (n k : Nat) → k ≤ n → σ → Draw n k × σ

namespace Source

variable {σ : Type}

/-- A set of the given size. -/
def set (src : Source σ) (len : Nat) (state : σ) : Except Fault (ByteSet × σ) :=
  if h : len ≤ 256 then
    let drawn := src.draw 256 len h state
    .ok (drawn.1.toSet, drawn.2)
  else .error .tooManyValues

/-- A set of the given number of neighbours. -/
def run (src : Source σ) (len : Nat) (state : σ) : Except Fault (ByteSet × σ) :=
  if h : 1 ≤ len ∧ len ≤ 256 then
    let drawn := src.draw (257 - len) 1 (by omega) state
    .ok (drawn.1.toRun, drawn.2)
  else .error .runLength

end Source

/-! ## A seeded source -/

namespace Seeded

/-- One step of a linear congruential sequence. -/
def step (seed : UInt64) : UInt64 := seed * 6364136223846793005 + 1442695040888963407

/-- Takes up to `k` numbers out of a pool, each time at a place that the seed decides. -/
def pick (pool : List Nat) (seed : UInt64) : Nat → List Nat × UInt64
  | 0 => ([], seed)
  | k + 1 =>
    match pool[(seed >>> 33).toNat % pool.length]? with
    | none => ([], seed)
    | some i =>
      let rest := pick (pool.erase i) (step seed) k
      (i :: rest.1, rest.2)

theorem pick_mem_nodup_length (k : Nat) : ∀ (pool : List Nat) (seed : UInt64), pool.Nodup →
    k ≤ pool.length →
    (∀ i ∈ (pick pool seed k).1, i ∈ pool) ∧ (pick pool seed k).1.Nodup ∧
      (pick pool seed k).1.length = k := by
  induction k with
  | zero => intro pool seed _ _; simp [pick]
  | succ k ih =>
    intro pool seed hpool hk
    have hlt : (seed >>> 33).toNat % pool.length < pool.length := Nat.mod_lt _ (by omega)
    have hget := List.getElem?_eq_getElem hlt
    have hmem := List.getElem_mem hlt
    generalize pool[(seed >>> 33).toNat % pool.length] = i at hget hmem
    have hlen := List.length_erase_of_mem hmem
    obtain ⟨h₁, h₂, h₃⟩ := ih (pool.erase i) (step seed) (hpool.erase i) (by omega)
    simp only [pick, hget]
    refine ⟨?_, ?_, by simp [h₃]⟩
    · intro j hj
      rcases List.mem_cons.1 hj with rfl | hj
      · exact hmem
      · exact List.mem_of_mem_erase (h₁ j hj)
    · refine List.nodup_cons.2 ⟨fun hi => ?_, h₂⟩
      exact hpool.not_mem_erase (h₁ i hi)

/-- The source whose state is a seed. -/
def source : Source UInt64 where
  draw n k h seed :=
    have hpick := pick_mem_nodup_length k (List.range n) seed List.nodup_range (by simpa using h)
    (⟨(pick (List.range n) seed k).1, fun i hi => List.mem_range.1 (hpick.1 i hi), hpick.2.1,
      hpick.2.2⟩, (pick (List.range n) seed k).2)

end Seeded

end Bytewise

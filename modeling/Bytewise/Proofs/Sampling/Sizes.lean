import Bytewise.Sampling
import Bytewise.Proofs.ByteSet.Collecting
import Bytewise.Proofs.ByteSet.Overlap
import Bytewise.Proofs.Selector.Checked
import Mathlib.Data.List.Nodup

/-!
# Sizes of drawn sets

A source is trusted with one thing: the numbers it draws are distinct and lie below the bound. The
size of a drawn set depends on nothing else. Numbers below 256 are bytes, so that none is lost and
no two become one; a start that leaves room for the run keeps the last byte at 255 or below.

* `Draw.card_toSet`, `Draw.mem_toSet`: sets of distinct bytes;
* `Draw.toNat_first`, `Draw.toNat_last`, `Draw.span?_toRun`: runs of neighbours;
* `Draw.exists_toSet_eq_iff`, `Draw.exists_toRun_eq_iff`: what can be drawn;
* `Checked.set_eq`, `Checked.run_eq`: the same steps with every operation checked;
* `Source.sizes_hold_for_every_draw`: all of it.
-/

namespace Bytewise

variable {len k : Nat}

/-! ## Sets of distinct bytes -/

theorem Byte.nodup_map_ofNat {ns : List Nat} (hlt : ∀ n ∈ ns, n < 256) (hns : ns.Nodup) :
    (ns.map UInt8.ofNat).Nodup := by
  refine List.Nodup.map_on (fun m hm n hn h => ?_) hns
  rw [← Byte.toNat_ofNat_of_lt (hlt m hm), h, Byte.toNat_ofNat_of_lt (hlt n hn)]

namespace Draw

theorem card_toSet (d : Draw 256 k) : d.toSet.card = k := by
  have hnodup := Byte.nodup_map_ofNat d.lt_of_mem d.nodup
  rw [toSet, ByteSet.card_ofList_of_nodup hnodup, List.length_map, d.length_eq]

theorem mem_toSet (d : Draw 256 k) {b : Byte} : b ∈ d.toSet ↔ b.toNat ∈ d.numbers := by
  rw [toSet, ByteSet.mem_ofList, List.mem_map]
  constructor
  · rintro ⟨n, hn, rfl⟩
    rwa [Byte.toNat_ofNat_of_lt (d.lt_of_mem n hn)]
  · intro hb
    exact ⟨b.toNat, hb, UInt8.ofNat_toNat⟩

/-- Every set of the size can be drawn, and no other. -/
theorem exists_toSet_eq_iff {s : ByteSet} : (∃ d : Draw 256 k, d.toSet = s) ↔ s.card = k := by
  constructor
  · rintro ⟨d, rfl⟩
    exact d.card_toSet
  · intro hcard
    have hnodup : s.toList.Nodup := Byte.nodup_of_ascending s.pairwise_toList
    -- any order of the members would do
    let d : Draw 256 k :=
      { numbers := s.toList.map UInt8.toNat
        lt_of_mem := by
          intro n hn
          obtain ⟨b, _, rfl⟩ := List.mem_map.mp hn
          exact b.toNat_lt
        nodup := hnodup.map fun _ _ => UInt8.toNat_inj.mp
        length_eq := by rw [List.length_map, ← ByteSet.card_eq_length_toList, hcard] }
    refine ⟨d, ByteSet.ext fun b => ?_⟩
    rw [mem_toSet, List.mem_map_of_injective fun _ _ => UInt8.toNat_inj.mp, ByteSet.mem_toList]

/-! ## Runs of neighbours -/

theorem single_mem {n : Nat} (d : Draw n 1) : d.single ∈ d.numbers := List.head_mem _

theorem single_lt {n : Nat} (d : Draw n 1) : d.single < n := d.lt_of_mem _ d.single_mem

/-- The first byte of a drawn run. -/
def first (d : Draw (257 - len) 1) : Byte := UInt8.ofNat d.single

/-- The last byte of a drawn run. -/
def last (d : Draw (257 - len) 1) : Byte := d.first + UInt8.ofNat (len - 1)

/-- There is no place for a start when the run is longer than the row of bytes. -/
theorem len_le (d : Draw (257 - len) 1) : len ≤ 256 := by
  have hlt := d.single_lt
  omega

theorem toNat_others (h : len ≤ 256) : (UInt8.ofNat (len - 1)).toNat = len - 1 :=
  Byte.toNat_ofNat_of_lt (by omega)

variable (d : Draw (257 - len) 1)

theorem toNat_first (h : 1 ≤ len) : d.first.toNat = d.single := by
  have hlt := d.single_lt
  exact Byte.toNat_ofNat_of_lt (by omega)

/-- The start leaves room for the bytes after it. -/
theorem first_add_others_lt (h : 1 ≤ len) :
    d.first.toNat + (UInt8.ofNat (len - 1)).toNat < 256 := by
  have hlt := d.single_lt
  rw [d.toNat_first h, toNat_others d.len_le]
  omega

theorem toNat_last (h : 1 ≤ len) : d.last.toNat = d.first.toNat + (len - 1) := by
  rw [last, UInt8.toNat_add, Nat.mod_eq_of_lt (d.first_add_others_lt h), toNat_others d.len_le]

/-- The interval that a drawn run is. -/
def span (h : 1 ≤ len) : Span where
  first := d.first
  last := d.last
  first_le_last := by
    rw [UInt8.le_iff_toNat_le, d.toNat_last h]
    exact Nat.le_add_right ..

theorem size_span (h : 1 ≤ len) : (d.span h).size = len := by
  have hlast : (d.span h).last.toNat = (d.span h).first.toNat + (len - 1) := d.toNat_last h
  rw [Span.size_eq]
  omega

theorem toList_toRun (h : 1 ≤ len) : d.toRun.toList = (d.span h).toList := by
  have hrun : d.toRun = ByteSet.ofList (d.span h).toList := rfl
  rw [hrun, ByteSet.toList_ofList_eq_iff]
  exact ⟨Span.pairwise_toList _, fun _ => Iff.rfl⟩

theorem card_toRun (h : 1 ≤ len) : d.toRun.card = len := by
  rw [ByteSet.card_eq_length_toList, d.toList_toRun h, Span.length_toList, d.size_span h]

theorem span?_toRun (h : 1 ≤ len) : d.toRun.span? = some (d.span h) :=
  ByteSet.toList_eq_span_iff.mp (d.toList_toRun h)

/-- Every interval of the size can be drawn, and nothing else. -/
theorem exists_toRun_eq_iff (h : 1 ≤ len) {s : ByteSet} :
    (∃ d : Draw (257 - len) 1, d.toRun = s) ↔ ∃ i, s.span? = some i ∧ i.size = len := by
  constructor
  · rintro ⟨d, rfl⟩
    exact ⟨d.span h, d.span?_toRun h, d.size_span h⟩
  · rintro ⟨i, hspan, hsize⟩
    have hends := i.first_le_last_toNat
    have hlt := i.last.toNat_lt
    rw [Span.size_eq] at hsize
    let d : Draw (257 - len) 1 :=
      { numbers := [i.first.toNat]
        lt_of_mem := by
          intro n hn
          rw [List.mem_singleton.mp hn]
          omega
        nodup := List.nodup_singleton _
        length_eq := rfl }
    have hfirst : d.first = i.first := UInt8.ofNat_toNat
    have hlast : d.last = i.last := by
      apply UInt8.toNat_inj.mp
      rw [d.toNat_last h, hfirst]
      omega
    have hi : d.span h = i := Span.ext hfirst hlast
    refine ⟨d, ByteSet.toList_inj.mp ?_⟩
    rw [d.toList_toRun h, hi, ByteSet.toList_eq_span_iff.mpr hspan]

end Draw

/-! ## Refusals -/

namespace Source

variable {σ : Type} {src : Source σ} {state : σ} {fault : Fault}

theorem set_of_le (h : len ≤ 256) : src.set len state =
    .ok ((src.draw 256 len h state).1.toSet, (src.draw 256 len h state).2) := dif_pos h

/-- There is a start to draw. -/
theorem one_le_starts (h : 1 ≤ len ∧ len ≤ 256) : 1 ≤ 257 - len := by omega

theorem run_of_le (h : 1 ≤ len ∧ len ≤ 256) :
    src.run len state = .ok ((src.draw (257 - len) 1 (one_le_starts h) state).1.toRun,
      (src.draw (257 - len) 1 (one_le_starts h) state).2) := dif_pos h

theorem set_eq_error_iff :
    src.set len state = .error fault ↔ fault = .tooManyValues ∧ 256 < len := by
  by_cases h : len ≤ 256
  · rw [set_of_le h]
    simp only [reduceCtorEq, false_iff, not_and, not_lt]
    exact fun _ => h
  · rw [set, dif_neg h, Except.error.injEq, and_iff_left (Nat.lt_of_not_le h)]
    exact eq_comm

theorem run_eq_error_iff :
    src.run len state = .error fault ↔ fault = .runLength ∧ (len = 0 ∨ 256 < len) := by
  by_cases h : 1 ≤ len ∧ len ≤ 256
  · rw [run_of_le h]
    simp only [reduceCtorEq, false_iff, not_and]
    omega
  · rw [run, dif_neg h, Except.error.injEq, and_iff_left (by omega)]
    exact eq_comm

end Source

/-! ## Every operation checked -/

namespace Checked

variable {σ : Type}

/-- The byte that a number is. -/
def narrow (n : Nat) : Except Stop Byte :=
  if n < 256 then .ok (UInt8.ofNat n) else .error .outOfRange

def addByte (a b : Byte) : Except Stop Byte :=
  if a.toNat + b.toNat < 256 then .ok (a + b) else .error .outOfRange

/-- Draws, if the bound leaves room for the numbers wanted. -/
def draw (src : Source σ) (n k : Nat) (state : σ) : Except Stop (Draw n k × σ) :=
  if h : k ≤ n then .ok (src.draw n k h state) else .error .missing

def set (src : Source σ) (len : Nat) (state : σ) : Except Stop (ByteSet × σ) :=
  if len ≤ 256 then do
    let drawn ← draw src 256 len state
    let bytes ← drawn.1.numbers.mapM narrow
    .ok (.ofList bytes, drawn.2)
  else .error (.refused .tooManyValues)

def run (src : Source σ) (len : Nat) (state : σ) : Except Stop (ByteSet × σ) :=
  if 1 ≤ len ∧ len ≤ 256 then do
    let bound ← sub 257 len
    let drawn ← draw src bound 1 state
    let start ← present drawn.1.numbers.head?
    let first ← narrow start
    let distance ← sub len 1
    let others ← narrow distance
    let last ← addByte first others
    .ok (.ofList (Byte.between first last), drawn.2)
  else .error (.refused .runLength)

theorem narrow_of_lt {n : Nat} (h : n < 256) : narrow n = .ok (UInt8.ofNat n) := if_pos h

theorem addByte_of_lt {a b : Byte} (h : a.toNat + b.toNat < 256) : addByte a b = .ok (a + b) :=
  if_pos h

theorem draw_of_le {n : Nat} (src : Source σ) (state : σ) (h : k ≤ n) :
    draw src n k state = .ok (src.draw n k h state) := dif_pos h

theorem mapM_narrow {ns : List Nat} (h : ∀ n ∈ ns, n < 256) :
    ns.mapM narrow = .ok (ns.map UInt8.ofNat) := by
  induction ns with
  | nil => rfl
  | cons n ns ih =>
    have hns := ih fun m hm => h m (List.mem_cons_of_mem n hm)
    rw [List.mapM_cons, narrow_of_lt (h n (List.mem_cons_self ..)), ok_bind, hns, ok_bind]
    rfl

theorem set_eq (src : Source σ) (len : Nat) (state : σ) :
    set src len state = accepted (src.set len state) := by
  unfold set Source.set
  by_cases h : len ≤ 256
  · have hdraw := draw_of_le src state h
    rw [if_pos h, dif_pos h, hdraw, ok_bind, mapM_narrow (Draw.lt_of_mem _), ok_bind]
    rfl
  · rw [if_neg h, dif_neg h]
    rfl

theorem run_eq (src : Source σ) (len : Nat) (state : σ) :
    run src len state = accepted (src.run len state) := by
  unfold run Source.run
  by_cases h : 1 ≤ len ∧ len ≤ 256
  · have hdraw := draw_of_le src state (Source.one_le_starts h)
    rw [if_pos h, dif_pos h, sub_of_le (by omega), ok_bind, hdraw, ok_bind]
    -- what is drawn does not matter from here on
    generalize src.draw (257 - len) 1 _ state = drawn
    obtain ⟨d, after⟩ := drawn
    have hhead : d.numbers.head? = some d.single := List.head?_eq_some_head _
    have hlt := d.single_lt
    rw [hhead, present, ok_bind, narrow_of_lt (by omega), ok_bind, sub_of_le h.1, ok_bind,
      narrow_of_lt (by omega), ok_bind, ← Draw.first, addByte_of_lt (d.first_add_others_lt h.1)]
    rfl
  · rw [if_neg h, dif_neg h]
    rfl

end Checked

/-! ## All draws -/

namespace Source

variable {σ : Type}

/-- **Sizes hold for every draw.** A set is refused exactly when more values are wanted than there
are bytes. Else it has just the numbers drawn for members, and as many as wanted. A run is refused
exactly when its length is zero or beyond the number of bytes. Else the number drawn and the
length less one are bytes as they stand, their sum is one too, and the run is the interval from the
first to that sum, of the length wanted. All sets of a size can be drawn, and all intervals, and
the steps pass every check. -/
theorem sizes_hold_for_every_draw (src : Source σ) (len : Nat) (state : σ) :
    (∀ fault, src.set len state = .error fault ↔ fault = .tooManyValues ∧ 256 < len) ∧
    (∀ h : len ≤ 256, ∃ d after, src.draw 256 len h state = (d, after) ∧
      src.set len state = .ok (d.toSet, after) ∧ d.toSet.card = len ∧
      ∀ b, b ∈ d.toSet ↔ b.toNat ∈ d.numbers) ∧
    (∀ fault, src.run len state = .error fault ↔
      fault = .runLength ∧ (len = 0 ∨ 256 < len)) ∧
    (∀ h : 1 ≤ len ∧ len ≤ 256, ∃ d after first last,
      src.draw (257 - len) 1 (one_le_starts h) state = (d, after) ∧
      first = UInt8.ofNat d.single ∧ first.toNat = d.single ∧
      (UInt8.ofNat (len - 1)).toNat = len - 1 ∧
      last = first + UInt8.ofNat (len - 1) ∧ last.toNat = first.toNat + (len - 1) ∧
      src.run len state = .ok (d.toRun, after) ∧ d.toRun.card = len ∧
      d.toRun.span?.map (fun i => (i.first, i.last)) = some (first, last)) ∧
    (∀ s : ByteSet, (∃ d : Draw 256 len, d.toSet = s) ↔ s.card = len) ∧
    (1 ≤ len → ∀ s : ByteSet, (∃ d : Draw (257 - len) 1, d.toRun = s) ↔
      ∃ i, s.span? = some i ∧ i.size = len) ∧
    Checked.set src len state = Checked.accepted (src.set len state) ∧
    Checked.run src len state = Checked.accepted (src.run len state) := by
  refine ⟨fun fault => ?_, fun h => ?_, fun fault => ?_, fun h => ?_,
    fun s => Draw.exists_toSet_eq_iff, fun h s => Draw.exists_toRun_eq_iff h,
    Checked.set_eq src len state, Checked.run_eq src len state⟩
  · exact set_eq_error_iff
  · let drawn := src.draw 256 len h state
    exact ⟨drawn.1, drawn.2, rfl, set_of_le h, drawn.1.card_toSet, fun b => drawn.1.mem_toSet⟩
  · exact run_eq_error_iff
  · let drawn := src.draw (257 - len) 1 (one_le_starts h) state
    let d := drawn.1
    have hspan : d.toRun.span?.map (fun i => (i.first, i.last)) = some (d.first, d.last) := by
      rw [d.span?_toRun h.1]
      rfl
    exact ⟨d, drawn.2, d.first, d.last, rfl, rfl, d.toNat_first h.1, Draw.toNat_others h.2, rfl,
      d.toNat_last h.1, run_of_le h, d.card_toRun h.1, hspan⟩

/-- With all bytes wanted, there is one set and one start to draw. -/
theorem sizes_hold_for_every_draw_all_bytes :
    (∃ after, Seeded.source.set 256 7 = .ok (.full, after)) ∧
    (∃ after, Seeded.source.run 256 7 = .ok (.full, after)) ∧
    ByteSet.full.span?.map (fun i => (i.first, i.last)) = some (0, 255) ∧
    ∃ i, ByteSet.full.span? = some i ∧ i.size = 256 := by
  obtain ⟨_, hset, _, hrun, _, hruns, _⟩ := sizes_hold_for_every_draw Seeded.source 256 7
  obtain ⟨d, after, _, hok, hcard, _⟩ := hset (by decide)
  obtain ⟨e, after', first, last, _, _, hfirst, _, _, hlast, hok', hcard', hspan⟩ :=
    hrun (by decide)
  rw [ByteSet.card_eq_256_iff] at hcard hcard'
  rw [hcard] at hok
  rw [hcard'] at hok' hspan
  have hlt := e.single_lt
  have hzero : first = 0 := UInt8.toNat_inj.mp (by rw [UInt8.toNat_zero]; omega)
  rw [hzero] at hlast hspan
  have hend : last = 255 := UInt8.toNat_inj.mp hlast
  rw [hend] at hspan
  exact ⟨⟨after, hok⟩, ⟨after', hok'⟩, hspan, (hruns (by decide) .full).mp ⟨e, hcard'⟩⟩

end Source

end Bytewise

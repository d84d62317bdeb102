import Bytewise.Expression
import Bytewise.Proofs.ByteSet.Ascending
import Mathlib.Algebra.Order.BigOperators.Group.List
import Mathlib.Algebra.Order.Ring.Nat

/-!
# The shortest expression

Any items that stand for the members of a set make an expression for it, in whatever order and with
whatever overlaps. None is shorter than the one that writes the runs of the set, in either style.

* `Span.pairwise_runs`: a byte is missing between two runs;
* `Item.widths_items_le`: no items for a run take fewer characters than those written for it;
* `Item.widths_flatMap_items_le`: nor do items for several runs, by induction on the runs, as no
  item reaches from one run into the next;
* `Expression.ofBytes_shortest`: the expression of a set.
-/

namespace Bytewise

/-! ## Runs are maximal -/

namespace Span

/-- The second interval lies above the first, and a byte between them. -/
def Apart (s t : Span) : Prop := s.last.toNat + 1 < t.first.toNat

theorem mem_toList_iff_toNat {s : Span} {b : Byte} :
    b ∈ s.toList ↔ s.first.toNat ≤ b.toNat ∧ b.toNat ≤ s.last.toNat := by
  rw [mem_toList, contains_iff, UInt8.le_iff_toNat_le, UInt8.le_iff_toNat_le]

theorem first_mem_of_mem_runs {bs : List Byte} {s : Span} (h : s ∈ runs bs) : s.first ∈ bs := by
  rw [← flatMap_runs bs, List.mem_flatMap]
  exact ⟨s, h, mem_toList_iff_toNat.mpr ⟨Nat.le_refl _, s.first_le_last_toNat⟩⟩

/-- **The runs of an ascending list are maximal**, and they ascend. -/
theorem pairwise_runs {bs : List Byte} (h : Byte.Ascending bs) : (runs bs).Pairwise Apart := by
  induction bs with
  | nil => exact List.Pairwise.nil
  | cons b bs ih =>
    obtain ⟨hb, hbs⟩ := List.pairwise_cons.mp h
    have hrest := ih hbs
    rw [runs]
    cases hruns : runs bs with
    | nil => exact List.pairwise_singleton ..
    | cons s rest =>
      rw [hruns] at hrest
      obtain ⟨hs, htail⟩ := List.pairwise_cons.mp hrest
      have hlt : b.toNat < s.first.toNat := by
        have hmem : s.first ∈ bs := first_mem_of_mem_runs (hruns ▸ List.mem_cons_self ..)
        exact UInt8.lt_iff_toNat_lt.mp (hb s.first hmem)
      by_cases hnext : b.toNat + 1 = s.first.toNat
      · -- The first run has grown downwards, which keeps it away from the others.
        simp only [dif_pos hnext]
        exact List.pairwise_cons.mpr ⟨hs, htail⟩
      · simp only [dif_neg hnext]
        refine List.pairwise_cons.mpr ⟨fun t ht => ?_, hrest⟩
        show b.toNat + 1 < t.first.toNat
        rcases List.mem_cons.mp ht with rfl | ht
        · omega
        · have hst : s.last.toNat + 1 < t.first.toNat := hs t ht
          have := s.first_le_last_toNat
          omega

end Span

/-! ## Widths -/

namespace Byte

theorem two_le_length_chars (style : Style) (b : Byte) : 2 ≤ (chars style b).length := by
  unfold chars
  split
  · simp
  · simp [Hex.ofByte]

end Byte

theorem Style.length_separator_le (style : Style) : style.separator.length ≤ 1 := by
  cases style <;> decide

namespace Item

/-- The interval that an item stands for. -/
def span : Item → Span
  | byte b => .single b
  | range s => s

theorem toList_eq_toList_span (i : Item) : i.toList = i.span.toList := by
  cases i with
  | byte b => exact (Span.toList_single b).symm
  | range s => rfl

theorem mem_toList_iff_toNat {i : Item} {b : Byte} :
    b ∈ i.toList ↔ i.span.first.toNat ≤ b.toNat ∧ b.toNat ≤ i.span.last.toNat := by
  rw [toList_eq_toList_span, Span.mem_toList_iff_toNat]

/-- The characters of an item, and those that separate it from the next. -/
def width (style : Style) (i : Item) : Nat := (i.chars style).length + style.separator.length

theorem width_byte (style : Style) (b : Byte) :
    (byte b).width style = (Byte.chars style b).length + style.separator.length := rfl

theorem width_range (style : Style) (s : Span) :
    (range s).width style = (Byte.chars style s.first).length + 1 +
      (Byte.chars style s.last).length + style.separator.length := by
  rw [width, chars, List.length_append, List.length_cons]
  omega

/-- Whatever its form, an item writes each of its ends. -/
theorem ends_le_width (style : Style) (i : Item) :
    (Byte.chars style i.span.first).length + style.separator.length ≤ i.width style ∧
    (Byte.chars style i.span.last).length + style.separator.length ≤ i.width style := by
  cases i with
  | byte b => exact ⟨Nat.le_refl _, Nat.le_refl _⟩
  | range s =>
    rw [width_range]
    simp only [span]
    omega

/-- The width of a row of items, with a separator behind each. -/
def widths (style : Style) (is : List Item) : Nat := (is.map (width style)).sum

theorem widths_nil (style : Style) : widths style [] = 0 := rfl

theorem widths_cons (style : Style) (i : Item) (is : List Item) :
    widths style (i :: is) = i.width style + widths style is := by
  simp [widths]

theorem widths_append (style : Style) (is js : List Item) :
    widths style (is ++ js) = widths style is + widths style js := by
  rw [widths, List.map_append, List.sum_append]
  rfl

/-- Different items of a row take their widths each. -/
theorem widths_le_of_subset (style : Style) {is js : List Item} (hnodup : js.Nodup)
    (h : js ⊆ is) : widths style js ≤ widths style is := by
  obtain ⟨ks, hperm, hsub⟩ := List.subperm_of_subset hnodup h
  calc widths style js = widths style ks := ((hperm.map _).sum_eq).symm
    _ ≤ widths style is := (hsub.map _).sum_le_sum fun _ _ => Nat.zero_le _

theorem width_add_width_le (style : Style) {is : List Item} {i j : Item} (hi : i ∈ is) (hj : j ∈ is)
    (hij : i ≠ j) : i.width style + j.width style ≤ widths style is := by
  have hle : widths style [i, j] ≤ widths style is :=
    widths_le_of_subset style (by simp [hij]) (by simp [hi, hj])
  simpa [widths_cons, widths_nil] using hle

theorem widths_filter (style : Style) (p : Item → Bool) (is : List Item) :
    widths style (is.filter p) + widths style (is.filter fun i => !p i) = widths style is := by
  rw [← widths_append]
  exact ((List.filter_append_perm p is).map _).sum_eq

/-! ## One run -/

/-- The items stand for the bytes of a list, in whatever order and however often. -/
def Cover (is : List Item) (bs : List Byte) : Prop := ∀ b, (∃ i ∈ is, b ∈ i.toList) ↔ b ∈ bs

variable {style : Style} {is : List Item} {r : Span}

/-- What is written for a run is no wider than an item for the whole run. -/
theorem widths_items_le_width {i : Item} (h : i.span = r) :
    widths style r.items ≤ i.width style := by
  subst h
  have hsep := style.length_separator_le
  unfold Span.items
  split
  · simpa [widths_cons, widths_nil, width_byte] using (i.ends_le_width style).1
  · cases i with
    | byte b => simp [span, Span.single, Span.size] at *
    | range s =>
      split
      · simp only [span, widths_cons, widths_nil, width_byte, width_range]
        omega
      · simp [span, widths_cons, widths_nil]

/-- No item for a run reaches beyond it. -/
theorem Cover.inside (h : Cover is r.toList) {i : Item} (hi : i ∈ is) :
    r.first.toNat ≤ i.span.first.toNat ∧ i.span.last.toNat ≤ r.last.toNat := by
  have hspan := i.span.first_le_last_toNat
  have hfirst := (h i.span.first).mp ⟨i, hi, mem_toList_iff_toNat.mpr ⟨Nat.le_refl _, hspan⟩⟩
  have hlast := (h i.span.last).mp ⟨i, hi, mem_toList_iff_toNat.mpr ⟨hspan, Nat.le_refl _⟩⟩
  exact ⟨(Span.mem_toList_iff_toNat.mp hfirst).1, (Span.mem_toList_iff_toNat.mp hlast).2⟩

theorem Cover.exists_mem (h : Cover is r.toList) {b : Byte} (hlo : r.first.toNat ≤ b.toNat)
    (hhi : b.toNat ≤ r.last.toNat) :
    ∃ i ∈ is, i.span.first.toNat ≤ b.toNat ∧ b.toNat ≤ i.span.last.toNat := by
  obtain ⟨i, hi, hb⟩ := (h b).mpr (Span.mem_toList_iff_toNat.mpr ⟨hlo, hhi⟩)
  exact ⟨i, hi, mem_toList_iff_toNat.mp hb⟩

/-- Some item begins where the run begins, and some item ends where it ends. -/
theorem Cover.exists_ends (h : Cover is r.toList) :
    (∃ i ∈ is, i.span.first = r.first) ∧ ∃ j ∈ is, j.span.last = r.last := by
  have hle := r.first_le_last_toNat
  constructor
  · obtain ⟨i, hi, hfirst, _⟩ := h.exists_mem (Nat.le_refl _) hle
    exact ⟨i, hi, UInt8.toNat_inj.mp (Nat.le_antisymm hfirst (h.inside hi).1)⟩
  · obtain ⟨j, hj, _, hlast⟩ := h.exists_mem hle (Nat.le_refl _)
    exact ⟨j, hj, UInt8.toNat_inj.mp (Nat.le_antisymm (h.inside hj).2 hlast)⟩

/-- The bytes at the ends leave the middle of a longer run to some other item. -/
theorem Cover.exists_third (h : Cover is r.toList) (hsize : 3 ≤ r.size) :
    ∃ k ∈ is, k ≠ byte r.first ∧ k ≠ byte r.last := by
  have hr := r.size_eq
  have hlt := r.last.toNat_lt
  have hnext := Byte.toNat_succ_of_lt (b := r.first) (by omega)
  obtain ⟨k, hk, hlo, hhi⟩ := h.exists_mem (b := r.first + 1) (by omega) (by omega)
  rw [hnext] at hlo hhi
  refine ⟨k, hk, ?_, ?_⟩
  · rintro rfl
    simp only [span, Span.single] at hhi
    omega
  · rintro rfl
    simp only [span, Span.single] at hlo
    omega

/-- Two items at the ends of a run are as wide as the range, or else they are two bytes, and a
longer run needs a third item. -/
theorem width_range_le (h : Cover is r.toList) (hsize : 3 ≤ r.size) {i j : Item} (hi : i ∈ is)
    (hj : j ∈ is) (hfirst : i.span.first = r.first) (hlast : j.span.last = r.last) (hij : i ≠ j) :
    (range r).width style ≤ widths style is := by
  have hpair := width_add_width_le style hi hj hij
  have hwi := (i.ends_le_width style).1
  have hwj := (j.ends_le_width style).2
  rw [hfirst] at hwi
  rw [hlast] at hwj
  rw [width_range]
  cases i with
  | range s =>
    have hwidth := width_range style s
    rw [show s.first = r.first from hfirst] at hwidth
    have := Byte.two_le_length_chars style s.last
    omega
  | byte b =>
    cases j with
    | range s =>
      have hwidth := width_range style s
      rw [show s.last = r.last from hlast] at hwidth
      have := Byte.two_le_length_chars style s.first
      omega
    | byte c =>
      obtain rfl : b = r.first := hfirst
      obtain rfl : c = r.last := hlast
      obtain ⟨k, hk, hkf, hkl⟩ := h.exists_third hsize
      have htriple : widths style [byte r.first, byte r.last, k] ≤ widths style is :=
        widths_le_of_subset style (by simp [hij, hkf.symm, hkl.symm]) (by simp [hi, hj, hk])
      have hwk := (k.ends_le_width style).1
      have := Byte.two_le_length_chars style k.span.first
      simp only [widths_cons, widths_nil] at htriple
      omega

/-- No items for a run are narrower than those written for it. -/
theorem widths_items_le (h : Cover is r.toList) : widths style r.items ≤ widths style is := by
  obtain ⟨⟨i, hi, hfirst⟩, j, hj, hlast⟩ := h.exists_ends
  by_cases hij : i = j
  · have hspan : i.span = r := Span.ext hfirst (hij ▸ hlast)
    calc widths style r.items ≤ i.width style := widths_items_le_width hspan
      _ = widths style [i] := by simp [widths_cons, widths_nil]
      _ ≤ widths style is := widths_le_of_subset style (by simp) (by simpa using hi)
  · have hpair := width_add_width_le style hi hj hij
    have hwi := (i.ends_le_width style).1
    have hwj := (j.ends_le_width style).2
    rw [hfirst] at hwi
    rw [hlast] at hwj
    by_cases h1 : r.size = 1
    · rw [Span.items, if_pos h1]
      simp only [widths_cons, widths_nil, width_byte]
      omega
    · by_cases h2 : r.size = 2
      · rw [Span.items, if_neg h1, if_pos h2]
        simp only [widths_cons, widths_nil, width_byte]
        omega
      · have hsize : 3 ≤ r.size := by
          have := r.size_eq
          omega
        rw [Span.items, if_neg h1, if_neg h2]
        calc widths style [range r] = (range r).width style := by simp [widths_cons, widths_nil]
          _ ≤ widths style is := width_range_le h hsize hi hj hfirst hlast hij

/-! ## Several runs -/

/-- The item begins no later than the interval ends. -/
def startsIn (r : Span) (i : Item) : Bool := i.span.first ≤ r.last

variable {rs : List Span}

theorem lt_of_mem_runs_above (hr : ∀ t ∈ rs, r.Apart t) {b : Byte}
    (hb : b ∈ rs.flatMap Span.toList) : r.last.toNat + 1 < b.toNat := by
  obtain ⟨t, ht, hbt⟩ := List.mem_flatMap.mp hb
  have hapart : r.last.toNat + 1 < t.first.toNat := hr t ht
  have := (Span.mem_toList_iff_toNat.mp hbt).1
  omega

/-- An item that begins in the first run ends there, as it would have to pass the byte that is
missing behind the run. -/
theorem Cover.le_of_startsIn (h : Cover is (r.toList ++ rs.flatMap Span.toList))
    (hr : ∀ t ∈ rs, r.Apart t) {i : Item} (hi : i ∈ is) (hstart : startsIn r i = true) {b : Byte}
    (hb : b ∈ i.toList) : b.toNat ≤ r.last.toNat := by
  have hstart : i.span.first.toNat ≤ r.last.toNat :=
    UInt8.le_iff_toNat_le.mp (of_decide_eq_true hstart)
  have hlast := (mem_toList_iff_toNat.mp hb).2
  have hlt := b.toNat_lt
  by_contra hbeyond
  have hnext := Byte.toNat_succ_of_lt (b := r.last) (by omega)
  have hmem := (h (r.last + 1)).mp ⟨i, hi, mem_toList_iff_toNat.mpr (by omega)⟩
  rcases List.mem_append.mp hmem with hmem | hmem
  · have := (Span.mem_toList_iff_toNat.mp hmem).2
    omega
  · have := lt_of_mem_runs_above hr hmem
    omega

/-- Items for several runs fall into those for the first and those for the others. -/
theorem Cover.split (h : Cover is (r.toList ++ rs.flatMap Span.toList))
    (hr : ∀ t ∈ rs, r.Apart t) :
    Cover (is.filter (startsIn r)) r.toList ∧
      Cover (is.filter fun i => !startsIn r i) (rs.flatMap Span.toList) := by
  constructor
  · intro b
    constructor
    · rintro ⟨i, hi, hb⟩
      obtain ⟨hi, hstart⟩ := List.mem_filter.mp hi
      have hle := h.le_of_startsIn hr hi hstart hb
      rcases List.mem_append.mp ((h b).mp ⟨i, hi, hb⟩) with hmem | hmem
      · exact hmem
      · have := lt_of_mem_runs_above hr hmem
        omega
    · intro hmem
      obtain ⟨i, hi, hb⟩ := (h b).mpr (List.mem_append_left _ hmem)
      have hstart : i.span.first.toNat ≤ r.last.toNat :=
        Nat.le_trans (mem_toList_iff_toNat.mp hb).1 (Span.mem_toList_iff_toNat.mp hmem).2
      exact ⟨i, List.mem_filter.mpr ⟨hi, decide_eq_true (UInt8.le_iff_toNat_le.mpr hstart)⟩, hb⟩
  · intro b
    constructor
    · rintro ⟨i, hi, hb⟩
      obtain ⟨hi, hstart⟩ := List.mem_filter.mp hi
      have hlt : r.last.toNat < i.span.first.toNat := by
        simpa [startsIn, UInt8.lt_iff_toNat_lt] using hstart
      rcases List.mem_append.mp ((h b).mp ⟨i, hi, hb⟩) with hmem | hmem
      · have hle := (Span.mem_toList_iff_toNat.mp hmem).2
        have := (mem_toList_iff_toNat.mp hb).1
        omega
      · exact hmem
    · intro hmem
      have hlt := lt_of_mem_runs_above hr hmem
      obtain ⟨i, hi, hb⟩ := (h b).mpr (List.mem_append_right _ hmem)
      have hstart : startsIn r i ≠ true := by
        intro hstart
        have := h.le_of_startsIn hr hi hstart hb
        omega
      exact ⟨i, List.mem_filter.mpr ⟨hi, by simpa using hstart⟩, hb⟩

/-- No items for the runs of a list are narrower than those written for them. -/
theorem widths_flatMap_items_le (hrs : rs.Pairwise Span.Apart)
    (h : Cover is (rs.flatMap Span.toList)) :
    widths style (rs.flatMap Span.items) ≤ widths style is := by
  induction rs generalizing is with
  | nil => exact Nat.zero_le _
  | cons r rs ih =>
    obtain ⟨hr, hrs⟩ := List.pairwise_cons.mp hrs
    rw [List.flatMap_cons] at h ⊢
    obtain ⟨hrun, hrest⟩ := h.split hr
    calc widths style (r.items ++ rs.flatMap Span.items)
        = widths style r.items + widths style (rs.flatMap Span.items) := widths_append ..
      _ ≤ widths style (is.filter (startsIn r)) + widths style (is.filter fun i => !startsIn r i) :=
        Nat.add_le_add (widths_items_le hrun) (ih hrs hrest)
      _ = widths style is := widths_filter ..

end Item

/-! ## Expressions -/

namespace Expression

open Item

/-- The last item has no separator behind it. -/
theorem length_intercalate_items (style : Style) (is : List Item) :
    (style.separator.intercalate (is.map (Item.chars style))).length + style.separator.length =
      max style.separator.length (widths style is) := by
  induction is with
  | nil => simp [widths_nil]
  | cons i is ih =>
    cases is with
    | nil => simp [widths_cons, widths_nil, width]
    | cons j is =>
      rw [List.map_cons, List.map_cons, List.intercalate_cons_cons, List.length_append,
        List.length_append]
      rw [List.map_cons] at ih
      have hi : i.width style = (i.chars style).length + style.separator.length := rfl
      have hj : j.width style = (j.chars style).length + style.separator.length := rfl
      rw [widths_cons] at ih ⊢
      rw [widths_cons]
      omega

theorem length_chars (style : Style) (e : Expression) :
    (e.chars style).length + style.separator.length =
      (caretIf e.inverted).length + max style.separator.length (widths style e.items) + 2 := by
  have hitems := length_intercalate_items style e.items
  simp only [chars, List.cons_append, List.length_cons, List.length_append, List.length_nil]
  omega

/-- **The expression of a set is the shortest.** Its items stand for the members, each once and in
ascending order; and no items that stand for just the members, in whatever order and however often,
make an expression of fewer characters in the same style and sense. -/
theorem ofBytes_shortest (s : ByteSet) (style : Style) (inverted : Bool) :
    (ofBytes inverted s.toList).inverted = inverted ∧
    (ofBytes inverted s.toList).toList = s.toList ∧ s.toList.Pairwise (· < ·) ∧
    ∀ e : Expression, e.inverted = inverted → (∀ b, b ∈ e.toList ↔ b ∈ s) →
      ((ofBytes inverted s.toList).chars style).length ≤ (e.chars style).length := by
  refine ⟨rfl, toList_ofBytes inverted s.toList, s.pairwise_toList, fun e hinverted hmem => ?_⟩
  have hcover : Cover e.items ((Span.runs s.toList).flatMap Span.toList) := by
    intro b
    rw [Span.flatMap_runs, ByteSet.mem_toList, ← hmem, toList, List.mem_flatMap]
  have hwidths : widths style ((Span.runs s.toList).flatMap Span.items) ≤ widths style e.items :=
    widths_flatMap_items_le (Span.pairwise_runs s.pairwise_toList) hcover
  have hlength := length_chars style e
  have hlength' := length_chars style (ofBytes inverted s.toList)
  rw [hinverted] at hlength
  simp only [ofBytes] at hlength' ⊢
  omega

/-- Four letters, against the same in pieces that overlap. -/
theorem ofBytes_shortest_letters :
    ((ofBytes true (ByteSet.ofList [97, 98, 99, 100]).toList).chars .pretty).length ≤
      (chars .pretty ⟨true, [.range ⟨98, 100, by decide⟩, .byte 97, .byte 98]⟩).length := by
  have hmem : ∀ b, b ∈ toList ⟨true, [.range ⟨98, 100, by decide⟩, .byte 97, .byte 98]⟩ ↔
      b ∈ ByteSet.ofList [97, 98, 99, 100] := Byte.forall_of_lt (by decide +kernel)
  exact (ofBytes_shortest (.ofList [97, 98, 99, 100]) .pretty true).2.2.2 _ rfl hmem

end Expression

end Bytewise

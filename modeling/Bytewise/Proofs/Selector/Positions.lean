import Bytewise.Matcher.Scan
import Bytewise.Proofs.Selector.Target

/-!
# Positions in rows of bytes

The accepted positions of a row are found byte after byte, so those of a joined row are those of its
parts, the later ones moved behind the earlier. A set and its complement are requested in opposite
senses, and whatever encodings the two answers have, each position of a row is accepted by one of
them and none outside the row by either.

* `Matcher.positions_cons`, `Matcher.positions_append`: the positions of a longer row;
* `Matcher.positions_perm`: two matchers that share out the bytes share out the positions;
* `Selector.select_shares_positions`: the answers to opposite requests.
-/

namespace Bytewise

/-! ## One matcher -/

namespace Matcher

variable {m m' : Matcher} {bytes : List Byte}

theorem acceptsAt_of_lt {position : Nat} (h : position < bytes.length) :
    m.acceptsAt bytes position = m.accepts bytes[position] := by
  rw [acceptsAt, List.getElem?_eq_getElem h]

theorem pairwise_positions (m : Matcher) (bytes : List Byte) :
    (m.positions bytes).Pairwise (· < ·) :=
  List.pairwise_lt_range.filter _

/-- The first byte is at position zero, and the others are one further than without it. -/
theorem positions_cons (m : Matcher) (b : Byte) (bytes : List Byte) :
    m.positions (b :: bytes) =
      (if m.accepts b then [0] else []) ++ (m.positions bytes).map (· + 1) := by
  have hlater : m.acceptsAt (b :: bytes) ∘ Nat.succ = m.acceptsAt bytes := by
    funext position
    simp [acceptsAt]
  rw [positions, List.length_cons, List.range_succ_eq_map, List.filter_cons, List.filter_map,
    hlater, ← positions]
  cases h : m.accepts b <;> simp [acceptsAt, h]

/-- **The positions of a joined row** are those of the first part and, behind them, those of the
second. -/
theorem positions_append (m : Matcher) (xs ys : List Byte) :
    m.positions (xs ++ ys) = m.positions xs ++ (m.positions ys).map (· + xs.length) := by
  induction xs with
  | nil => simp [positions, acceptsAt]
  | cons b xs ih =>
    rw [List.cons_append, positions_cons, positions_cons, ih, List.map_append, List.map_map,
      List.append_assoc, List.length_cons]
    rfl

/-- Where one matcher accepts what the other refuses, each position is one of either. -/
theorem positions_perm (h : ∀ b, m'.accepts b = !m.accepts b) (bytes : List Byte) :
    (m.positions bytes ++ m'.positions bytes).Perm (List.range bytes.length) := by
  induction bytes with
  | nil => simp [positions, acceptsAt]
  | cons b bytes ih =>
    have hlater := (ih.map (· + 1)).cons 0
    rw [List.map_append] at hlater
    rw [positions_cons, positions_cons, List.length_cons, List.range_succ_eq_map, h b]
    cases m.accepts b with
    | true => exact hlater
    | false => exact List.perm_middle.trans hlater

end Matcher

/-! ## Opposite requests -/

namespace Selector

variable {s : ByteSet}

theorem accepts_choose (sel : Selector) (s : ByteSet) (inverse : Bool) (b : Byte) :
    (sel.choose s inverse).accepts b = (s.contains b != inverse) := by
  rw [Bool.eq_iff_iff, sel.decides_choose s inverse b, ByteSet.mem_complementIf]

/-- **Opposite requests share out the positions of every row.** Whatever the limits of the two
selectors, one answer accepts the positions where a member stands and the other the rest; neither
accepts a position outside the row. The accepted positions, listed ascending, are for a joined row
those of its first part and, moved by its length, those of the second. -/
theorem select_shares_positions (hs : s ≠ .empty) (limit limit' : Nat) :
    ∃ m m', Selector.select ⟨limit⟩ s false = .ok m ∧ Selector.select ⟨limit'⟩ s true = .ok m' ∧
      (∀ (bytes : List Byte) (position : Nat) (h : position < bytes.length),
        m.acceptsAt bytes position = s.contains bytes[position] ∧
        m'.acceptsAt bytes position = !m.acceptsAt bytes position) ∧
      (∀ (bytes : List Byte) (position : Nat), bytes.length ≤ position →
        m.acceptsAt bytes position = false ∧ m'.acceptsAt bytes position = false) ∧
      (∀ bytes : List Byte,
        (m.positions bytes ++ m'.positions bytes).Perm (List.range bytes.length)) ∧
      (∀ n ∈ [m, m'], ∀ bytes : List Byte, (n.positions bytes).Pairwise (· < ·) ∧
        ∀ position, position ∈ n.positions bytes ↔ n.acceptsAt bytes position = true) ∧
      (∀ n ∈ [m, m'], ∀ xs ys : List Byte,
        n.positions (xs ++ ys) = n.positions xs ++ (n.positions ys).map (· + xs.length)) := by
  have hopposite : ∀ b,
      (choose ⟨limit'⟩ s true).accepts b = !(choose ⟨limit⟩ s false).accepts b := by
    intro b
    rw [accepts_choose, accepts_choose, Bool.bne_true, Bool.bne_false]
  refine ⟨_, _, select_of_ne_empty ⟨limit⟩ hs false, select_of_ne_empty ⟨limit'⟩ hs true,
    fun bytes position h => ?_, fun bytes position h => ?_, Matcher.positions_perm hopposite,
    fun n _ bytes => ?_, fun n _ => n.positions_append⟩
  · rw [Matcher.acceptsAt_of_lt h, Matcher.acceptsAt_of_lt h, hopposite, accepts_choose,
      Bool.bne_false]
    exact ⟨rfl, rfl⟩
  · exact ⟨Matcher.acceptsAt_of_length_le h, Matcher.acceptsAt_of_length_le h⟩
  · exact ⟨n.pairwise_positions bytes, fun _ => Matcher.mem_positions⟩

/-- The high half of the bytes, a mask for one answer and an interval for the other. -/
theorem select_shares_positions_high_half :
    ∃ m m', Selector.select ⟨0⟩ (.ofList (Byte.between 128 255)) false = .ok m ∧
      Selector.select {} (.ofList (Byte.between 128 255)) true = .ok m' ∧
      m.acceptsAt [127, 128, 255] 1 = true ∧ m'.acceptsAt [127, 128, 255] 1 = false ∧
      m'.acceptsAt [127, 128, 255] (2 ^ 64 - 1) = false ∧
      m.positions ([127, 128] ++ [0, 255]) =
        m.positions [127, 128] ++ (m.positions [0, 255]).map (· + 2) := by
  have hs : ByteSet.ofList (Byte.between 128 255) ≠ .empty := by decide +kernel
  have hmember : (ByteSet.ofList (Byte.between 128 255)).contains 128 = true := by decide +kernel
  obtain ⟨m, m', hm, hm', hinside, houtside, _, _, hjoined⟩ := select_shares_positions hs 0 16
  obtain ⟨hfirst, hsecond⟩ := hinside [127, 128, 255] 1 (by decide)
  have haccepted : m.acceptsAt [127, 128, 255] 1 = true := hfirst.trans hmember
  refine ⟨m, m', hm, hm', haccepted, ?_, (houtside _ _ (by decide)).2, ?_⟩
  · rw [hsecond, haccepted]
    rfl
  · exact hjoined m (List.mem_cons_self ..) [127, 128] [0, 255]

end Selector

end Bytewise

import Mathlib.Data.List.TakeWhile
import SlotBoard.Editor.Cursor

/-!
The identifier at a cursor. In a line, the identifier bytes around a column lie between two bounds,
and at each bound the line ends or another byte stands. The stem is what lies before the column, the
word is all of it. So the word is the same wherever the cursor stands between the bounds.
-/
namespace SlotBoard.Cursor

/-- Lines are what stands between line feeds. -/
theorem lines_eq_splitOn (text : Bytes) : lines text = text.splitOn 0x0A := by
  induction text with
  | nil => rfl
  | cons b text ih =>
    rw [lines, List.splitOn_cons_eq_if_modifyHead, ih]
    by_cases hb : b = 0x0A
    · rw [if_pos hb, if_pos (beq_iff_eq.mpr hb)]
    · rw [if_neg hb, if_neg (by simpa using hb)]
      cases hrest : text.splitOn 0x0A with
      | nil => exact absurd hrest (List.splitOn_ne_nil _ _)
      | cons line rest => rfl

def identifierAt (bytes : Bytes) (i : Nat) : Bool := bytes[i]?.any isIdentifier

/-- A column lies in a stretch of identifier bytes that cannot be made longer. -/
structure Spans (line : Bytes) (column start stop : Nat) : Prop where
  start_le : start ≤ column
  le_stop : column ≤ stop
  stop_le : stop ≤ line.length
  inside : ∀ i, start ≤ i → i < stop → identifierAt line i = true
  left : start = 0 ∨ identifierAt line (start - 1) = false
  right : stop = line.length ∨ identifierAt line stop = false

/-- Going to the left ends at the front of the line or behind a byte that is no identifier byte. -/
theorem exists_start (line : Bytes) (column : Nat) :
    ∃ start ≤ column, (∀ i, start ≤ i → i < column → identifierAt line i = true) ∧
      (start = 0 ∨ identifierAt line (start - 1) = false) := by
  induction column with
  | zero => exact ⟨0, Nat.le_refl 0, by omega, Or.inl rfl⟩
  | succ column ih =>
    by_cases hbyte : identifierAt line column = true
    · obtain ⟨start, hle, hinside, hleft⟩ := ih
      refine ⟨start, by omega, ?_, hleft⟩
      intro i hstart hi
      by_cases hlast : i = column
      · rwa [hlast]
      · exact hinside i hstart (by omega)
    · refine ⟨column + 1, Nat.le_refl _, by omega, Or.inr ?_⟩
      rw [Nat.add_sub_cancel]
      exact Bool.eq_false_iff.mpr hbyte

/-- Going to the right ends at the end of the line or before a byte that is no identifier byte. -/
theorem exists_stop (line : Bytes) {column : Nat} (h : column ≤ line.length) :
    ∃ stop, column ≤ stop ∧ stop ≤ line.length ∧
      (∀ i, column ≤ i → i < stop → identifierAt line i = true) ∧
      (stop = line.length ∨ identifierAt line stop = false) := by
  induction hrest : line.length - column generalizing column with
  | zero => exact ⟨column, Nat.le_refl _, h, by omega, Or.inl (by omega)⟩
  | succ rest ih =>
    by_cases hbyte : identifierAt line column = true
    · obtain ⟨stop, hle, hlength, hinside, hright⟩ := @ih (column + 1) (by omega) (by omega)
      refine ⟨stop, by omega, hlength, ?_, hright⟩
      intro i hi hstop
      by_cases hfirst : i = column
      · rwa [hfirst]
      · exact hinside i (by omega) hstop
    · exact ⟨column, Nat.le_refl _, h, by omega, Or.inr (Bool.eq_false_iff.mpr hbyte)⟩

theorem exists_spans (line : Bytes) {column : Nat} (h : column ≤ line.length) :
    ∃ start stop, Spans line column start stop := by
  obtain ⟨start, hstart, hbefore, hleft⟩ := exists_start line column
  obtain ⟨stop, hstop, hlength, hbehind, hright⟩ := exists_stop line h
  refine ⟨start, stop, hstart, hstop, hlength, ?_, hleft, hright⟩
  intro i hi hi'
  by_cases hcolumn : i < column
  · exact hbefore i hi hcolumn
  · exact hbehind i (by omega) hi'

theorem isIdentifier_of_mem_extract {line : Bytes} {start stop : Nat}
    (h : ∀ i, start ≤ i → i < stop → identifierAt line i = true) :
    ∀ b ∈ line.extract start stop, isIdentifier b = true := by
  intro b hb
  obtain ⟨i, hi, rfl⟩ := List.getElem_of_mem hb
  have hlength : i < stop - start ∧ start + i < line.length := by
    rw [List.length_take, List.length_drop] at hi
    omega
  have hat := h (start + i) (by omega) (by omega)
  rw [identifierAt, List.getElem?_eq_getElem hlength.2] at hat
  rw [List.getElem_take, List.getElem_drop]
  exact hat

theorem filter_eq_none {bytes : Bytes} {i : Nat} (h : identifierAt bytes i = false) :
    bytes[i]?.filter isIdentifier = none := by
  rw [Option.filter_eq_none_iff]
  intro b hb
  rw [(Option.any_eq_false _ _).mp h b hb]
  exact Bool.false_ne_true

namespace Spans

variable {line : Bytes} {column start stop : Nat}

/-- Every other column between the bounds has the same bounds. -/
theorem moved (h : Spans line column start stop) {other : Nat} (hstart : start ≤ other)
    (hstop : other ≤ stop) : Spans line other start stop :=
  { h with start_le := hstart, le_stop := hstop }

theorem trailing_take (h : Spans line column start stop) :
    trailing (line.take column) = line.extract start column := by
  have hbytes : ∀ b ∈ (line.extract start column).reverse, isIdentifier b = true := by
    intro b hb
    refine isIdentifier_of_mem_extract ?_ b (List.mem_reverse.mp hb)
    exact fun i hi hi' => h.inside i hi (Nat.lt_of_lt_of_le hi' h.le_stop)
  have hfront : (line.take start).reverse.takeWhile isIdentifier = [] := by
    rw [← List.head?_eq_none_iff, List.head?_takeWhile, List.head?_reverse, List.getLast?_take]
    by_cases hzero : start = 0
    · rw [if_pos hzero]
      rfl
    · have hindex : start - 1 < line.length := by
        have := h.start_le
        have := h.le_stop
        have := h.stop_le
        omega
      rw [if_neg hzero, List.getElem?_eq_getElem hindex, Option.some_or,
        ← List.getElem?_eq_getElem hindex]
      exact filter_eq_none (h.left.resolve_left hzero)
  have hsplit : line.take column = line.take start ++ line.extract start column := by
    rw [← List.take_add, Nat.add_sub_cancel' h.start_le]
  rw [trailing, hsplit, List.reverse_append, List.takeWhile_append_of_pos hbytes, hfront,
    List.append_nil, List.reverse_reverse]

theorem takeWhile_drop (h : Spans line column start stop) :
    (line.drop column).takeWhile isIdentifier = line.extract column stop := by
  have hbytes : ∀ b ∈ line.extract column stop, isIdentifier b = true :=
    isIdentifier_of_mem_extract fun i hi hi' => h.inside i (Nat.le_trans h.start_le hi) hi'
  have hback : (line.drop stop).takeWhile isIdentifier = [] := by
    rw [← List.head?_eq_none_iff, List.head?_takeWhile, List.head?_drop]
    rcases h.right with hend | hbyte
    · rw [hend, List.getElem?_eq_none (Nat.le_refl _)]
      rfl
    · exact filter_eq_none hbyte
  have hsplit : line.drop column = line.extract column stop ++ line.drop stop := by
    have hdrop : line.drop stop = (line.drop column).drop (stop - column) := by
      rw [List.drop_drop, Nat.add_sub_cancel' h.le_stop]
    rw [hdrop, List.take_append_drop]
  rw [hsplit, List.takeWhile_append_of_pos hbytes, hback, List.append_nil]

theorem extract_append (h : Spans line column start stop) :
    line.extract start column ++ line.extract column stop = line.extract start stop := by
  have hstart := h.start_le
  have hstop := h.le_stop
  have hlength : stop - start = (column - start) + (stop - column) := by omega
  rw [List.extract, List.extract, List.extract, hlength, List.take_add, List.drop_drop,
    Nat.add_sub_cancel' hstart]

end Spans

variable {text line : Bytes} {number column start stop : Nat}

/-- A column behind the end of a line counts as the end. -/
theorem stem_of_spans (hline : (lines text)[number]? = some line)
    (h : Spans line (min column line.length) start stop) :
    stem text number column = line.extract start (min column line.length) := by
  rw [stem, hline]
  dsimp only
  rw [← h.trailing_take, List.take_eq_take_min]

theorem word_of_spans (hline : (lines text)[number]? = some line)
    (h : Spans line (min column line.length) start stop) :
    word text number column = line.extract start stop := by
  rw [word, hline]
  dsimp only
  rw [← h.extract_append, ← h.trailing_take, ← h.takeWhile_drop, ← List.take_eq_take_min,
    ← List.drop_eq_drop_min]

/-- The word at a cursor is the longest stretch of identifier bytes around it, and the stem is the part
of it before the cursor. The cursor may stand anywhere between the two ends of the word. Where there is
no line, both are empty. -/
theorem word_is_maximal_identifier (text : Bytes) (number column : Nat) :
    match (text.splitOn 0x0A)[number]? with
    | none => stem text number column = [] ∧ word text number column = []
    | some line => ∃ start stop, Spans line (min column line.length) start stop ∧
        word text number column = line.extract start stop ∧
        stem text number column = line.extract start (min column line.length) ∧
        stem text number column <+: word text number column ∧
        ∀ other, start ≤ min other line.length → min other line.length ≤ stop →
          word text number other = word text number column := by
  rw [← lines_eq_splitOn]
  cases hline : (lines text)[number]? with
  | none =>
    rw [stem, word, hline]
    exact ⟨rfl, rfl⟩
  | some line =>
    obtain ⟨start, stop, hspans⟩ := exists_spans line (Nat.min_le_right column line.length)
    have hword := word_of_spans hline hspans
    have hstem := stem_of_spans hline hspans
    refine ⟨start, stop, hspans, hword, hstem, ?_, ?_⟩
    · rw [hword, hstem, ← hspans.extract_append]
      exact List.prefix_append _ _
    · intro other hstart hstop
      rw [hword, word_of_spans hline (hspans.moved hstart hstop)]

-- right behind a word the cursor is still at it, and behind the end of a line it is at the end
example : word [0x61, 0x62, 0x20, 0x63] 0 2 = [0x61, 0x62] ∧ stem [0x61, 0x62, 0x20, 0x63] 0 9 = [0x63] := by
  decide

end SlotBoard.Cursor

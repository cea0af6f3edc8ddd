import Mathlib.Order.Bounds.Basic
import Mathlib.Order.MinMax
import NormalGrammar.Chart
import NormalGrammar.Proofs.Text.Segments

/-!
# Columns and lines

A line of a printed chart is its columns with a bar between any two of them. No column holds a bar,
so cutting the line at its bars gives the columns back, up to blank ends
(`map_trim_splitOn_barred`). All columns have the same width, so the bars stand at equal distances
(`getElem?_barred_eq_bar_iff`).

The members of a cell are left sides of rules, and so uppercase characters (`Chart.Cased`): they
cannot be taken for a blank, for a bar or for the dash of an empty cell. Hence each line of a
printed chart can be cut into what is shown of the cells of its row (`map_trim_splitOn_line`).
-/

namespace NormalGrammar

open Text

namespace Chart

/-! ## Columns behind one another -/

section Barred

variable {w i : Nat} {cols : List (List Char)} {last : List Char}

/-- The columns, each with a separator behind it. -/
def barred (cols : List (List Char)) : List Char := cols.flatMap (· ++ separator)

theorem barred_cons_append (col : List Char) (cols : List (List Char)) (t : List Char) :
    barred (col :: cols) ++ t = (col ++ [' ']) ++ '|' :: ' ' :: (barred cols ++ t) := by
  simp [barred, separator]

theorem intercalate_concat (cols : List (List Char)) (last : List Char) :
    separator.intercalate (cols ++ [last]) = barred cols ++ last := by
  induction cols with
  | nil => simp [barred]
  | cons col cols ih =>
    obtain ⟨col', cols', h⟩ := List.exists_cons_of_ne_nil
      (List.append_ne_nil_of_right_ne_nil cols (List.cons_ne_nil last []))
    rw [h] at ih
    rw [List.cons_append, h, List.intercalate_cons_cons, ih, barred_cons_append]
    simp [separator]

/-! ## Pieces -/

theorem map_trim_splitOn_blank_cons (t : List Char) :
    ((' ' :: t).splitOn '|').map trim = (t.splitOn '|').map trim := by
  obtain ⟨s, ss, h⟩ := List.exists_cons_of_ne_nil (List.splitOn_ne_nil '|' t)
  have blank : Blank [' '] := List.forall_mem_singleton.2 (by decide)
  rw [splitOn_cons (by decide) h, h, List.map_cons, List.map_cons]
  exact congrArg (· :: ss.map trim) (trim_blank_append blank s)

/-- Between the bars there are the columns, with a blank on either side. -/
theorem map_trim_splitOn_barred (hcols : ∀ col ∈ cols, '|' ∉ col) (hlast : '|' ∉ last) :
    ((barred cols ++ last).splitOn '|').map trim = (cols ++ [last]).map trim := by
  induction cols with
  | nil => rw [barred, List.flatMap_nil, List.nil_append, List.splitOn_eq_singleton hlast]; rfl
  | cons col cols ih =>
    obtain ⟨hcol, hcols⟩ := List.forall_mem_cons.1 hcols
    have blank : Blank [' '] := List.forall_mem_singleton.2 (by decide)
    have no_bar : '|' ∉ col ++ [' '] := by simp [hcol]
    rw [barred_cons_append, List.splitOn_append_cons_self_of_not_mem no_bar, List.map_cons,
      map_trim_splitOn_blank_cons, ih hcols, trim_append_blank col blank]
    rfl

/-! ## Bars -/

/-- Each column with its separator takes `w + 3` places, of which the bar is the last but one. -/
theorem getElem?_barred_eq_bar_iff (width : ∀ col ∈ cols, col.length = w)
    (hcols : ∀ col ∈ cols, '|' ∉ col) (hlast : '|' ∉ last) :
    (barred cols ++ last)[i]? = some '|' ↔ ∃ k, k < cols.length ∧ i = k * (w + 3) + w + 1 := by
  induction cols generalizing i with
  | nil =>
    have none : last[i]? ≠ some '|' := fun h => hlast (List.mem_of_getElem? h)
    simp [barred, none]
  | cons col cols ih =>
    obtain ⟨hw, width⟩ := List.forall_mem_cons.1 width
    obtain ⟨hcol, hcols⟩ := List.forall_mem_cons.1 hcols
    have no_bar : ∀ j : Nat, (col ++ [' '])[j]? ≠ some '|' := by
      intro j h
      have := List.mem_of_getElem? h
      simp [hcol] at this
    have length : (col ++ [' ']).length = w + 1 := by simp [hw]
    rw [barred_cons_append, List.getElem?_append, length, List.length_cons,
      Nat.exists_lt_succ_left]
    simp only [Nat.succ_mul]
    by_cases hi : i < w + 1
    · rw [if_pos hi]
      refine iff_of_false (no_bar i) ?_
      rintro (h | ⟨k, -, h⟩) <;> omega
    · obtain ⟨j, rfl⟩ := Nat.exists_eq_add_of_le (Nat.not_lt.1 hi)
      rw [if_neg hi, Nat.add_sub_cancel_left]
      rcases j with _ | _ | j
      · simp
      · refine iff_of_false (by simp) ?_
        rintro (h | ⟨k, -, h⟩) <;> omega
      · rw [List.getElem?_cons_succ, List.getElem?_cons_succ, ih width hcols]
        constructor
        · rintro ⟨k, hk, rfl⟩
          exact Or.inr ⟨k, hk, by omega⟩
        · rintro (h | ⟨k, hk, h⟩)
          · omega
          · exact ⟨k, hk, by omega⟩

end Barred

variable {c c' : Chart} {n w : Nat} {s : Span} {cell : SymbolSet}

/-! ## The width of a column -/

/-- The sizes of all cells. -/
def sizes (c : Chart) : Set Nat := {n | ∃ s cell, c.cell? s = some cell ∧ cell.size = n}

theorem cell?_eq_some_iff : c.cell? s = some cell ↔
    s.first ≤ s.last ∧ ∃ row, c.rows[s.first]? = some row ∧ row[s.last - s.first]? = some cell := by
  unfold cell?
  by_cases hs : s.last < s.first
  · simp [hs, Nat.not_le.2 hs]
  · simp [hs, Nat.not_lt.1 hs, Option.bind_eq_some_iff]

theorem width_eq (c : Chart) : c.width =
    (c.rows.toList.flatMap fun row => row.toList.map SymbolSet.size).foldl max 1 := by
  unfold width
  simp only [List.foldl_flatMap, List.foldl_map, Array.foldl_toList]

theorem mem_sizes_iff : n ∈ c.sizes ↔
    n ∈ c.rows.toList.flatMap fun row => row.toList.map SymbolSet.size := by
  simp only [sizes, Set.mem_ofPred_eq, List.mem_flatMap, List.mem_map, cell?_eq_some_iff]
  constructor
  · rintro ⟨s, cell, ⟨-, row, hrow, hcell⟩, rfl⟩
    exact ⟨row, Array.mem_toList_iff.2 (Array.mem_of_getElem? hrow), cell,
      Array.mem_toList_iff.2 (Array.mem_of_getElem? hcell), rfl⟩
  · rintro ⟨row, hrow, cell, hcell, rfl⟩
    obtain ⟨i, hi⟩ := Array.mem_iff_getElem?.1 (Array.mem_toList_iff.1 hrow)
    obtain ⟨k, hk⟩ := Array.mem_iff_getElem?.1 (Array.mem_toList_iff.1 hcell)
    exact ⟨⟨i, i + k⟩, cell, ⟨Nat.le_add_right i k, row, hi, by simpa using hk⟩, rfl⟩

theorem isGreatest_foldl_max (l : List Nat) (a : Nat) :
    IsGreatest (insert a {n | n ∈ l}) (l.foldl max a) := by
  induction l generalizing a with
  | nil => simp
  | cons b l ih =>
    obtain ⟨attained, bound⟩ := ih (max a b)
    have first : max a b ≤ l.foldl max (max a b) := bound (Set.mem_insert _ _)
    rw [List.foldl_cons]
    constructor
    · rcases attained with h | h
      · rw [h]
        rcases max_choice a b with e | e
        · exact Or.inl e
        · exact Or.inr (List.mem_cons.2 (Or.inl e))
      · exact Or.inr (List.mem_cons_of_mem b h)
    · rintro m (rfl | hm)
      · exact (Nat.le_max_left m b).trans first
      · rcases List.mem_cons.1 hm with rfl | hm
        · exact (Nat.le_max_right a m).trans first
        · exact bound (Or.inr hm)

/-- The columns are as wide as the largest cell, and never empty. -/
theorem isGreatest_width (c : Chart) : IsGreatest (insert 1 c.sizes) c.width := by
  have same : c.sizes = {n | n ∈ c.rows.toList.flatMap fun row => row.toList.map SymbolSet.size} :=
    Set.ext fun n => mem_sizes_iff
  rw [width_eq, same]
  exact isGreatest_foldl_max _ 1

/-! ## Cells -/

/-- All members of the cells are uppercase characters. -/
def Cased (c : Chart) : Prop :=
  ∀ s cell, c.cell? s = some cell → ∀ x ∈ cell, Unicode.isUppercase x = true

end Chart

namespace SymbolSet

variable {cell : SymbolSet}

theorem label_ne_nil (cell : SymbolSet) : cell.label ≠ [] := by
  by_cases h : cell = ∅
  · rw [h, label_empty]
    exact List.cons_ne_nil '-' []
  · rw [label_of_ne_empty h]
    exact mt eq_empty_iff.2 h

theorem length_label_le (cell : SymbolSet) : cell.label.length ≤ max 1 cell.size := by
  by_cases h : cell = ∅
  · rw [h, label_empty]
    exact Nat.le_max_left 1 _
  · rw [label_of_ne_empty h]
    exact Nat.le_max_right 1 _

section Cased

variable (cased : ∀ x ∈ cell, Unicode.isUppercase x = true)

include cased

theorem mem_label {x : Char} (hx : x ∈ cell.label) : x = '-' ∨ Unicode.isUppercase x = true := by
  by_cases h : cell = ∅
  · rw [h, label_empty, List.mem_singleton] at hx
    exact Or.inl hx
  · rw [label_of_ne_empty h] at hx
    exact Or.inr (cased x hx)

theorem isBlank_of_mem_label {x : Char} (hx : x ∈ cell.label) : Unicode.isBlank x = false := by
  rcases mem_label cased hx with rfl | upper
  · decide
  · rw [← Bool.not_eq_true]
    intro blank
    rw [Unicode.isUppercase_of_isBlank blank] at upper
    cases upper

theorem trim_label : trim cell.label = cell.label :=
  trim_eq_self ⟨fun _ hx => isBlank_of_mem_label cased (List.mem_of_mem_head? hx),
    fun _ hx => isBlank_of_mem_label cased (List.mem_of_mem_getLast? hx)⟩

/-- A dash is not uppercase. -/
theorem label_eq_dash_iff : cell.label = ['-'] ↔ cell = ∅ := by
  constructor
  · intro h
    by_contra members
    rw [label_of_ne_empty members] at h
    have upper := cased '-' (by rw [mem_def, h]; exact List.mem_singleton_self '-')
    revert upper
    decide
  · rintro rfl
    exact label_empty

end Cased

end SymbolSet

namespace Chart

variable {c c' : Chart} {n w start : Nat} {s : Span} {cell : SymbolSet}

theorem column_of_cell (h : c.cell? s = some cell) (w : Nat) :
    c.column w s = cell.label ++ List.replicate (w - cell.label.length) ' ' := by
  unfold column
  rw [h]
  rfl

theorem column_of_no_cell (h : c.cell? s = none) (w : Nat) :
    c.column w s = List.replicate w ' ' := by
  unfold column
  rw [h]

theorem length_column (c : Chart) (s : Span) : (c.column c.width s).length = c.width := by
  rcases h : c.cell? s with _ | cell
  · rw [column_of_no_cell h, List.length_replicate]
  · have bound := (isGreatest_width c).2
    have one : 1 ≤ c.width := bound (Set.mem_insert 1 _)
    have size : cell.size ≤ c.width := bound (Or.inr ⟨s, cell, h, rfl⟩)
    have fits : cell.label.length ≤ c.width := cell.length_label_le.trans (Nat.max_le.2 ⟨one, size⟩)
    rw [column_of_cell h, List.length_append, List.length_replicate, Nat.add_sub_cancel' fits]

theorem blank_replicate (n : Nat) : Blank (List.replicate n ' ') := by
  intro x hx
  rw [List.eq_of_mem_replicate hx]
  decide

/-- What is shown of the cell of a span, and nothing if there is no cell. -/
def entry (c : Chart) (s : Span) : List Char := ((c.cell? s).map SymbolSet.label).getD []

section Cased

variable (cased : c.Cased)

include cased

theorem trim_column (w : Nat) (s : Span) : trim (c.column w s) = c.entry s := by
  unfold entry
  rcases h : c.cell? s with _ | cell
  · rw [column_of_no_cell h, trim_eq_nil_iff.2 (blank_replicate w)]
    rfl
  · rw [column_of_cell h, trim_append_blank _ (blank_replicate _),
      SymbolSet.trim_label (cased s cell h)]
    rfl

theorem mem_column {x : Char} (hx : x ∈ c.column w s) :
    x = ' ' ∨ x = '-' ∨ Unicode.isUppercase x = true := by
  rcases h : c.cell? s with _ | cell
  · rw [column_of_no_cell h] at hx
    exact Or.inl (List.eq_of_mem_replicate hx)
  · rw [column_of_cell h, List.mem_append] at hx
    rcases hx with hx | hx
    · exact Or.inr (SymbolSet.mem_label (cased s cell h) hx)
    · exact Or.inl (List.eq_of_mem_replicate hx)

/-! ## Lines -/

/-- The last column of a line has a cell, and only what is behind it is trimmed. -/
theorem line_eq {last : Nat} (size : c.size = last + 1) (h : c.cell? ⟨start, last⟩ = some cell)
    (w : Nat) : c.line w start =
      barred ((List.range last).map fun stop => c.column w ⟨start, stop⟩) ++
        trimEnd (c.column w ⟨start, last⟩) := by
  have not_blank : ¬ Blank (c.column w ⟨start, last⟩) := by
    rw [← trim_eq_nil_iff, trim_column cased, entry, h]
    exact cell.label_ne_nil
  unfold line
  rw [size, List.range_succ, List.map_append, List.map_singleton, intercalate_concat,
    trimEnd_append_of_not_blank not_blank]

theorem bar_not_mem_columns (w start last : Nat) :
    (∀ col ∈ (List.range last).map fun stop => c.column w ⟨start, stop⟩, '|' ∉ col) ∧
      '|' ∉ trimEnd (c.column w ⟨start, last⟩) := by
  constructor
  · intro col hcol
    obtain ⟨stop, -, rfl⟩ := List.mem_map.1 hcol
    exact mt (mem_column cased) (by decide)
  · exact mt (fun hx => mem_column cased (trimEnd_subset _ hx)) (by decide)

section LastColumn

variable {last : Nat} (size : c.size = last + 1) (h : c.cell? ⟨start, last⟩ = some cell)

include size h

theorem newline_not_mem_line (w : Nat) : '\n' ∉ c.line w start := by
  have no_newline : ∀ s, '\n' ∉ c.column w s := fun s => mt (mem_column cased) (by decide)
  rw [line_eq cased size h, List.mem_append, not_or]
  constructor
  · unfold barred separator
    simp [no_newline]
  · exact mt (fun hx => trimEnd_subset _ hx) (no_newline _)

/-- Cut at its bars, the line gives what is shown of the cells of its row. -/
theorem map_trim_splitOn_line (w : Nat) : ((c.line w start).splitOn '|').map trim =
    (List.range (last + 1)).map fun stop => c.entry ⟨start, stop⟩ := by
  obtain ⟨no_bar, no_last_bar⟩ := bar_not_mem_columns cased w start last
  rw [line_eq cased size h, map_trim_splitOn_barred no_bar no_last_bar, List.map_append,
    List.map_singleton, trim_trimEnd, List.map_map, List.range_succ, List.map_append,
    List.map_singleton, trim_column cased]
  congr 1
  exact List.map_congr_left fun stop _ => trim_column cased w _

theorem getElem?_line_eq_bar_iff (i : Nat) : (c.line c.width start)[i]? = some '|' ↔
    ∃ k, k < last ∧ i = k * (c.width + 3) + c.width + 1 := by
  obtain ⟨no_bar, no_last_bar⟩ := bar_not_mem_columns cased c.width start last
  have width : ∀ col ∈ (List.range last).map fun stop => c.column c.width ⟨start, stop⟩,
      col.length = c.width := by
    intro col hcol
    obtain ⟨stop, -, rfl⟩ := List.mem_map.1 hcol
    exact length_column c _
  rw [line_eq cased size h, getElem?_barred_eq_bar_iff width no_bar no_last_bar, List.length_map,
    List.length_range]

end LastColumn

end Cased

end Chart

end NormalGrammar

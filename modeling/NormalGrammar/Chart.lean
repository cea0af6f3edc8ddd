import NormalGrammar.SymbolSet
import NormalGrammar.Text.Lines

/-!
# Charts of an input

A span is a stretch of positions, both ends included, and `Span.schedule` lists the spans of an
input so that the parts of a span always come before it. A chart is a triangle of cells, one for
each span; `cell?_blank` and `cell?_fill` describe a new chart and a written cell. A chart is
printed one line per row. All columns have the same width, and the cells below the diagonal stay
blank.
-/

namespace NormalGrammar

/-! ## Spans -/

/-- The positions from `first` to `last`. -/
structure Span where
  first : Nat
  last : Nat
deriving DecidableEq

namespace Span

/-- The span is a stretch of an input of length `n`. -/
def Within (s : Span) (n : Nat) : Prop := s.first ≤ s.last ∧ s.last < n

instance (s : Span) (n : Nat) : Decidable (s.Within n) := inferInstanceAs (Decidable (_ ∧ _))

/-- The ways to cut a span into a left and a right part, shortest left part first. -/
def splits (s : Span) : List (Span × Span) :=
  (List.range' s.first (s.last - s.first)).map fun k => (⟨s.first, k⟩, ⟨k + 1, s.last⟩)

/-- All spans of an input of length `n`, shorter ones first, and from left to right. -/
def schedule (n : Nat) : List Span :=
  (List.range n).flatMap fun d => (List.range (n - d)).map fun i => ⟨i, i + d⟩

theorem mem_splits {s l r : Span} :
    (l, r) ∈ s.splits ↔
      ∃ k, s.first ≤ k ∧ k < s.last ∧ l = ⟨s.first, k⟩ ∧ r = ⟨k + 1, s.last⟩ := by
  simp only [splits, List.mem_map, List.mem_range'_1, Prod.mk.injEq]
  constructor
  · rintro ⟨k, ⟨h₁, h₂⟩, rfl, rfl⟩
    exact ⟨k, h₁, by omega, rfl, rfl⟩
  · rintro ⟨k, h₁, h₂, rfl, rfl⟩
    exact ⟨k, ⟨h₁, by omega⟩, rfl, rfl⟩

@[simp] theorem mem_schedule {n : Nat} {s : Span} : s ∈ schedule n ↔ s.Within n := by
  simp only [schedule, List.mem_flatMap, List.mem_range, List.mem_map, Within]
  constructor
  · rintro ⟨d, hd, i, hi, rfl⟩
    exact ⟨by simp, by simp; omega⟩
  · rintro ⟨h₁, h₂⟩
    refine ⟨s.last - s.first, by omega, s.first, by omega, ?_⟩
    rw [Nat.add_sub_cancel' h₁]

end Span

/-! ## Cells -/

/-- Row `i` holds the cells of the spans that start at `i`, shortest first. -/
structure Chart where
  rows : Array (Array SymbolSet)
deriving DecidableEq

namespace Chart

/-- The chart of an input of length `n`, with all cells empty. -/
def blank (n : Nat) : Chart := ⟨Array.ofFn fun i : Fin n => Array.replicate (n - i) ∅⟩

/-- The length of the input. -/
def size (c : Chart) : Nat := c.rows.size

/-- There is no input. -/
def isEmpty (c : Chart) : Bool := c.rows.isEmpty

/-- The cell of a span, none if the input has no such span. -/
def cell? (c : Chart) (s : Span) : Option SymbolSet :=
  if s.last < s.first then none
  else c.rows[s.first]?.bind fun row => row[s.last - s.first]?

/-- Writes the cell of a span. -/
def fill (c : Chart) (s : Span) (x : SymbolSet) : Chart :=
  ⟨c.rows.modify s.first fun row => row.setIfInBounds (s.last - s.first) x⟩

theorem cell?_blank (n : Nat) (s : Span) :
    (blank n).cell? s = if s.Within n then some ∅ else none := by
  unfold cell? blank
  by_cases hw : s.Within n
  · rw [if_pos hw, if_neg (Nat.not_lt.2 hw.1)]
    have hn : s.first < n := Nat.lt_of_le_of_lt hw.1 hw.2
    simp only [Array.getElem?_ofFn, hn, dite_true, Option.bind_some]
    rw [Array.getElem?_replicate, if_pos (Nat.sub_lt_sub_right hw.1 hw.2)]
  · rw [if_neg hw]
    split
    · rfl
    · rename_i hle
      by_cases hn : s.first < n
      · simp only [Array.getElem?_ofFn, hn, dite_true, Option.bind_some]
        have hl : ¬ s.last < n := fun hl => hw ⟨Nat.not_lt.1 hle, hl⟩
        rw [Array.getElem?_replicate, if_neg (by omega)]
      · simp [hn]

theorem cell?_fill (c : Chart) (s t : Span) (x : SymbolSet) (h : (c.cell? s).isSome) :
    (c.fill s x).cell? t = if t = s then some x else c.cell? t := by
  obtain ⟨i, j⟩ := s
  obtain ⟨k, l⟩ := t
  simp only [cell?, fill, Span.mk.injEq] at h ⊢
  have hij : ¬ j < i := by
    intro hlt
    simp [hlt] at h
  rw [if_neg hij] at h
  by_cases hkl : l < k
  · have : ¬ (k = i ∧ l = j) := by omega
    simp [hkl, this]
  · rw [if_neg hkl, if_neg hkl, Array.getElem?_modify]
    by_cases hk : i = k
    · subst hk
      rw [if_pos rfl]
      cases hr : c.rows[i]? with
      | none => simp [hr] at h
      | some row =>
        simp only [hr, Option.bind_some, Option.map_some] at h ⊢
        rw [Array.getElem?_setIfInBounds]
        by_cases hl : j - i = l - i
        · have : l = j := by omega
          subst this
          simp only [Option.isSome_iff_exists, Array.getElem?_eq_some_iff] at h
          obtain ⟨y, hlt, -⟩ := h
          simp [hlt]
        · have : ¬ l = j := by omega
          simp [hl, this]
    · have : ¬ k = i := fun h => hk h.symm
      simp [hk, this]

@[simp] theorem size_fill (c : Chart) (s : Span) (x : SymbolSet) :
    (c.fill s x).size = c.size := by
  simp [size, fill]

@[simp] theorem size_blank (n : Nat) : (blank n).size = n := by
  simp [size, blank]

/-! ## Printing -/

/-- The size of the largest cell, at least 1. -/
def width (c : Chart) : Nat :=
  c.rows.foldl (fun w row => row.foldl (fun w s => max w s.size) w) 1

/-- The text of one cell, filled up to the width `w`. -/
def column (c : Chart) (w : Nat) (s : Span) : List Char :=
  match c.cell? s with
  | some cell => cell.label.rightpad w ' '
  | none => List.replicate w ' '

/-- What stands between two columns. -/
def separator : List Char := [' ', '|', ' ']

/-- The line of the spans that start at a position, in columns of width `w`. -/
def line (c : Chart) (w : Nat) (start : Nat) : List Char :=
  Text.trimEnd (separator.intercalate
    ((List.range c.size).map fun stop => c.column w ⟨start, stop⟩))

/-- The lines of the chart, without their endings. -/
def lines (c : Chart) : List (List Char) := (List.range c.size).map (c.line c.width)

/-- All lines, each with its ending. -/
def render (c : Chart) : List Char := c.lines.flatMap (· ++ ['\n'])

end Chart

end NormalGrammar

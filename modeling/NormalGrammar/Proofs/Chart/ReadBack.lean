import NormalGrammar.Proofs.Chart.Columns
import NormalGrammar.Proofs.Loading.Format
import NormalGrammar.Proofs.Recognition.Extension

/-!
# Reading a printed chart

Each line of a printed chart can be cut into the cells of its row (`ShowsRow`), and a chart is known
from its text (`eq_of_render_eq`).
-/

namespace NormalGrammar

open Text

namespace Chart

variable {c c' : Chart} {n w start : Nat} {s : Span} {cell : SymbolSet}

/-! ## What a line shows -/

/-- The piece is empty below the diagonal, a dash for an empty cell, and otherwise the members of
the cell in ascending order. Blanks at its ends do not count. -/
structure ShowsCell (c : Chart) (s : Span) (piece : List Char) : Prop where
  blank : trim piece = [] ↔ s.last < s.first
  dash : trim piece = ['-'] ↔ s.first ≤ s.last ∧ c.cell? s = some ∅
  members : ∀ cell, c.cell? s = some cell → cell ≠ ∅ →
    (trim piece).Pairwise (· < ·) ∧ ∀ x, x ∈ trim piece ↔ x ∈ cell

/-- The line is cut at its bars into `n` pieces that show the cells of the row. The bars stand at
the ends of columns of width `w`, and the line does not end in a blank. -/
structure ShowsRow (c : Chart) (n w start : Nat) (l : List Char) : Prop where
  count : (l.splitOn '|').length = n
  pieces : ∀ stop piece, (l.splitOn '|')[stop]? = some piece → c.ShowsCell ⟨start, stop⟩ piece
  bars : ∀ i, l[i]? = some '|' ↔ ∃ k, k + 1 < n ∧ i = k * (w + 3) + w + 1
  ending : ∀ x ∈ l.getLast?, Unicode.isBlank x = false

/-- The chart has its cells for an input of length `n`, with uppercase members. -/
structure Finished (c : Chart) (n : Nat) : Prop where
  size : c.size = n
  triangular : c.Triangular n
  cased : c.Cased

theorem Finished.exists_last (hc : c.Finished n) (hstart : start < n) :
    ∃ last cell, c.size = last + 1 ∧ n = last + 1 ∧ c.cell? ⟨start, last⟩ = some cell := by
  obtain ⟨last, rfl⟩ := Nat.exists_eq_succ_of_ne_zero (Nat.ne_zero_of_lt hstart)
  obtain ⟨cell, hcell⟩ := Option.isSome_iff_exists.1
    ((hc.triangular ⟨start, last⟩).2 ⟨Nat.le_of_lt_succ hstart, Nat.lt_succ_self last⟩)
  exact ⟨last, cell, hc.size, rfl, hcell⟩

theorem Finished.showsCell (hc : c.Finished n) {piece : List Char} (hs : s.last < n)
    (h : trim piece = c.entry s) : c.ShowsCell s piece := by
  have within : (c.cell? s).isSome ↔ s.first ≤ s.last := by
    rw [hc.triangular s]
    exact and_iff_left hs
  rcases hcell : c.cell? s with _ | cell
  · have below : s.last < s.first := by simpa [hcell] using within
    rw [entry, hcell] at h
    refine ⟨iff_of_true h below, iff_of_false (by simp [h]) (by simp [hcell]), ?_⟩
    intro cell some_cell
    simp [hcell] at some_cell
  · have ordered : s.first ≤ s.last := within.1 (by rw [hcell]; rfl)
    have h : trim piece = cell.label := by rw [h, entry, hcell]; rfl
    refine ⟨?_, ?_, ?_⟩
    · rw [h]
      exact iff_of_false cell.label_ne_nil (Nat.not_lt.2 ordered)
    · rw [h, SymbolSet.label_eq_dash_iff (hc.cased s cell hcell), hcell, Option.some.injEq]
      exact (and_iff_right ordered).symm
    · intro cell' hcell' members
      obtain rfl := Option.some.inj (hcell.symm.trans hcell')
      rw [h, SymbolSet.label_of_ne_empty members]
      exact ⟨cell.ascending, fun x => Iff.rfl⟩

/-- A printed line shows its row. -/
theorem Finished.showsRow (hc : c.Finished n) (hstart : start < n) :
    c.ShowsRow n c.width start (c.line c.width start) := by
  obtain ⟨last, cell, size, rfl, hcell⟩ := hc.exists_last hstart
  have entries := map_trim_splitOn_line hc.cased size hcell c.width
  refine ⟨by simpa using congrArg List.length entries, ?_, ?_, ?_⟩
  · intro stop piece hpiece
    have shown := congrArg (·[stop]?) entries
    simp only [List.getElem?_map, hpiece, Option.map_some] at shown
    obtain ⟨stop', hstop, hentry⟩ := Option.map_eq_some_iff.1 shown.symm
    obtain ⟨hlt, rfl⟩ := List.getElem?_eq_some_iff.1 hstop
    rw [List.getElem_range] at hentry
    rw [List.length_range] at hlt
    exact hc.showsCell hlt hentry.symm
  · intro i
    rw [getElem?_line_eq_bar_iff hc.cased size hcell]
    simp only [Nat.add_lt_add_iff_right]
  · exact getLast?_trimEnd _

/-! ## Whole charts -/

theorem splitOn_flatMap_newline {ls : List (List Char)} (h : ∀ l ∈ ls, '\n' ∉ l) :
    (ls.flatMap (· ++ ['\n'])).splitOn '\n' = ls ++ [[]] := by
  induction ls with
  | nil => rfl
  | cons l ls ih =>
    obtain ⟨hl, hls⟩ := List.forall_mem_cons.1 h
    rw [List.flatMap_cons, List.append_assoc, List.singleton_append,
      List.splitOn_append_cons_self_of_not_mem hl, ih hls]
    rfl

/-- The text of a chart consists of its lines. -/
theorem Finished.splitOn_render (hc : c.Finished n) :
    c.render.splitOn '\n' = c.lines ++ [[]] := by
  apply splitOn_flatMap_newline
  intro l hl
  obtain ⟨start, hstart, rfl⟩ := List.mem_map.1 hl
  rw [List.mem_range, hc.size] at hstart
  obtain ⟨last, cell, size, -, hcell⟩ := hc.exists_last hstart
  exact newline_not_mem_line hc.cased size hcell c.width

theorem length_lines (c : Chart) : c.lines.length = c.size := by
  rw [lines, List.length_map, List.length_range]

theorem Finished.showsRow_of_getElem?_lines (hc : c.Finished n) {line : List Char}
    (h : c.lines[start]? = some line) : c.ShowsRow n c.width start line := by
  obtain ⟨hlt, rfl⟩ := List.getElem?_eq_some_iff.1 h
  rw [length_lines, hc.size] at hlt
  simp only [lines, List.getElem_map, List.getElem_range]
  exact hc.showsRow hlt

/-- A piece shows one cell only. -/
theorem ShowsCell.unique {piece : List Char} {cell cell' : SymbolSet} (h : c.ShowsCell s piece)
    (h' : c'.ShowsCell s piece) (ordered : s.first ≤ s.last) (hc : c.cell? s = some cell)
    (hc' : c'.cell? s = some cell') : cell = cell' := by
  have both_empty : cell = ∅ ↔ cell' = ∅ := by
    have same := h.dash.symm.trans h'.dash
    simpa [ordered, hc, hc'] using same
  by_cases empty : cell = ∅
  · rw [empty, both_empty.1 empty]
  · ext x
    rw [← (h.members cell hc empty).2, (h'.members cell' hc' (mt both_empty.2 empty)).2]

/-- The rows show all cells of a chart. -/
theorem Finished.eq_of_showsRow {w' : Nat} (hc : c.Finished n) (hc' : c'.Finished n)
    (h : ∀ start < n, ∃ line, c.ShowsRow n w start line ∧ c'.ShowsRow n w' start line) :
    c = c' := by
  apply ext_cell? (hc.size.trans hc'.size.symm)
  rintro ⟨start, stop⟩
  by_cases within : Span.Within ⟨start, stop⟩ n
  · obtain ⟨line, hline, hline'⟩ := h start (Nat.lt_of_le_of_lt within.1 within.2)
    have hlt : stop < (line.splitOn '|').length := hline.count.symm ▸ within.2
    have hpiece := List.getElem?_eq_getElem hlt
    obtain ⟨cell, hcell⟩ := Option.isSome_iff_exists.1 ((hc.triangular ⟨start, stop⟩).2 within)
    obtain ⟨cell', hcell'⟩ := Option.isSome_iff_exists.1 ((hc'.triangular ⟨start, stop⟩).2 within)
    have same := (hline.pieces stop _ hpiece).unique (hline'.pieces stop _ hpiece) within.1
      hcell hcell'
    rw [hcell, hcell', same]
  · rw [Option.not_isSome_iff_eq_none.1 (mt (hc.triangular _).1 within),
      Option.not_isSome_iff_eq_none.1 (mt (hc'.triangular _).1 within)]

/-- Charts with the same text are equal. -/
theorem Finished.eq_of_render_eq {n' : Nat} (hc : c.Finished n) (hc' : c'.Finished n')
    (h : c.render = c'.render) : c = c' := by
  have lines_eq : c.lines = c'.lines := by
    rw [← List.append_left_inj [[]], ← hc.splitOn_render, ← hc'.splitOn_render, h]
  obtain rfl : n = n' := by
    rw [← hc.size, ← hc'.size, ← length_lines, ← length_lines, lines_eq]
  apply hc.eq_of_showsRow hc'
  intro start hstart
  rw [← hc.size, ← length_lines] at hstart
  have hline := List.getElem?_eq_getElem hstart
  exact ⟨_, hc.showsRow_of_getElem?_lines hline, hc'.showsRow_of_getElem?_lines (lines_eq ▸ hline)⟩

end Chart

/-! ## Printed results -/

/-- The grammar was made from written rules, and then got any start symbol. -/
def Grammar.Validated (g : Grammar) : Prop :=
  ∃ raws g₀ x, (Loading.validate raws).result = .ok g₀ ∧ g = g₀.withStart x

theorem Grammar.Validated.cased {g : Grammar} (h : g.Validated) : ∀ r ∈ g.rules, r.Cased := by
  obtain ⟨raws, g₀, x, hg, rfl⟩ := h
  rw [Loading.result_validate, ofRaw_eq_ok_iff] at hg
  intro r hr
  obtain ⟨raw, -, shaped⟩ := exists_of_mem_right hg.1 hr
  exact (Rule.ofRaw_eq_ok_iff.1 shaped).2.2

namespace Recognition

variable {g : Grammar} {w : List Char}

/-- The members of the cells are left sides of rules. -/
theorem cased_chartOf (h : g.Validated) (w : List Char) : (chartOf g w).Cased := by
  rintro ⟨i, j⟩ cell hcell x hx
  have within := (triangular_chartOf g w ⟨i, j⟩).1 (by rw [hcell]; rfl)
  rw [cell?_chartOf_eq_cell within] at hcell
  obtain rfl := Option.some.inj hcell
  rw [mem_cell_iff_yields within.1 within.2] at hx
  rcases hx.cases with ⟨c, -, rule⟩ | ⟨b, c, u, v, -, rule, -, -⟩
  · exact (h.cased _ rule).left
  · exact (h.cased _ rule).left

theorem finished_chartOf (h : g.Validated) (w : List Char) :
    (chartOf g w).Finished w.length where
  size := size_chartOf g w
  triangular := triangular_chartOf g w
  cased := cased_chartOf h w

theorem chart_of_ofInput {r : Recognition} (hr : ofInput g w = .ok r) : r.chart = chartOf g w := by
  have hw : w ≠ [] := by
    rintro rfl
    rw [ofInput_nil] at hr
    cases hr
  rw [ofInput_of_ne_nil hw] at hr
  rw [← Except.ok.inj hr]

/-- **Reading back.** The printed chart of an input consists of as many lines as the input has
characters. Each line shows its row in columns whose width is the size of the largest cell, and at
least 1. Charts that are printed alike are equal, whatever their grammars and inputs. -/
theorem render_reads_back (hg : g.Validated) (hw : w ≠ []) :
    ∃ r, ofInput g w = .ok r ∧
      (∃ width lines, IsGreatest (insert 1 r.chart.sizes) width ∧
        r.chart.render.splitOn '\n' = lines ++ [[]] ∧ lines.length = w.length ∧
        ∀ start line, lines[start]? = some line → r.chart.ShowsRow w.length width start line) ∧
      ∀ g' w' r', g'.Validated → ofInput g' w' = .ok r' → r'.chart.render = r.chart.render →
        r'.chart = r.chart := by
  have finished := finished_chartOf hg w
  refine ⟨_, ofInput_of_ne_nil hw, ⟨(chartOf g w).width, (chartOf g w).lines, ?_, ?_, ?_, ?_⟩, ?_⟩
  · exact Chart.isGreatest_width _
  · exact finished.splitOn_render
  · rw [Chart.length_lines, finished.size]
  · exact fun start line => finished.showsRow_of_getElem?_lines
  · intro g' w' r' hg' hr' same
    rw [chart_of_ofInput hr'] at same ⊢
    exact (finished_chartOf hg' w').eq_of_render_eq finished same

/-- The four lines of a chart, for a grammar that was made from written rules. -/
theorem render_balanced_aabb :
    Grammar.balanced.Validated ∧ ['a', 'a', 'b', 'b'] ≠ [] ∧
    ∃ r, ofInput .balanced ['a', 'a', 'b', 'b'] = .ok r ∧
      ∃ width lines, r.chart.render.splitOn '\n' = lines ++ [[]] ∧ lines.length = 4 ∧
        ∀ start line, lines[start]? = some line → r.chart.ShowsRow 4 width start line := by
  have validated : Grammar.balanced.Validated := by
    refine ⟨[⟨['S'], ['A', 'B'], ⟨"", 1⟩⟩, ⟨['S'], ['A', 'C'], ⟨"", 2⟩⟩,
      ⟨['C'], ['S', 'B'], ⟨"", 3⟩⟩, ⟨['A'], ['a'], ⟨"", 4⟩⟩, ⟨['B'], ['b'], ⟨"", 5⟩⟩],
      .balanced, 'S', ?_, rfl⟩
    rw [Loading.result_validate]
    decide +kernel
  have nonempty : ['a', 'a', 'b', 'b'] ≠ [] := by decide
  obtain ⟨r, hr, ⟨width, lines, -, text, count, rows⟩, -⟩ := render_reads_back validated nonempty
  exact ⟨validated, nonempty, r, hr, width, lines, text, count, rows⟩

end Recognition

end NormalGrammar

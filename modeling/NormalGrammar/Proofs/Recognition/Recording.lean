import NormalGrammar.Proofs.Recognition.Language

/-!
# Every use of a cell

`recorded?` fills a chart in loops over lengths and starts, by operations that refuse what must not
happen: a negative difference, a cell that is not there, writing to a cell that holds something. It
keeps a record of all reads and writes, with the sets that are read and written. Nothing is
refused, and the chart is `chartOf` (`recorded?_eq`): when the turn of a span comes, its parts have
had theirs and it has not (`turn?_of_turn`). So each cell is written once, and what is read is
final.
-/

namespace NormalGrammar

namespace Span

/-- The schedule in terms of lengths and starts: the single positions, then the longer spans. -/
theorem schedule_eq (n : Nat) :
    schedule n = (List.range n).map (fun i => ⟨i, i⟩) ++
      (List.range' 2 (n - 1)).flatMap fun len =>
        (List.range (n - len + 1)).map fun start => ⟨start, start + len - 1⟩ := by
  unfold schedule
  cases n with
  | zero => rfl
  | succ n =>
    rw [List.range_succ_eq_map, List.flatMap_cons, List.flatMap_map, Nat.add_sub_cancel,
      List.range'_eq_map_range, List.flatMap_map, ← List.range_succ_eq_map]
    congr 1
    apply List.flatMap_congr
    intro d hd
    have hd := List.mem_range.1 hd
    rw [show n + 1 - d.succ = n + 1 - (2 + d) + 1 by omega]
    congr 1
    funext i
    rw [show i + d.succ = i + (2 + d) - 1 by omega]

end Span

/-- A use of a cell, with the set that is read or written. -/
inductive Access where
  | read (s : Span) (x : SymbolSet)
  | write (s : Span) (x : SymbolSet)
deriving DecidableEq

/-- The spans whose cells are written, in order. -/
def Access.written (as : List Access) : List Span :=
  as.filterMap fun
    | .read _ _ => none
    | .write s _ => some s

/-- A chart in the making and the uses of its cells so far. -/
structure Recording where
  chart : Chart
  accesses : List Access
deriving DecidableEq

namespace Recording

/-- The difference of two positions, if it is not negative. -/
def minus? (m n : Nat) : Option Nat := if n ≤ m then some (m - n) else none

/-- Reads a cell, which must be there. -/
def read? (r : Recording) (s : Span) : Option (SymbolSet × Recording) := do
  let x ← r.chart.cell? s
  return (x, ⟨r.chart, r.accesses ++ [.read s x]⟩)

/-- Writes to a cell, which must be there and empty. -/
def write? (r : Recording) (s : Span) (x : SymbolSet) : Option Recording := do
  let k ← minus? s.last s.first
  let row ← r.chart.rows[s.first]?
  let old ← row[k]?
  if old.isEmpty then some ⟨r.chart.fill s x, r.accesses ++ [.write s x]⟩ else none

variable (g : Grammar) (w : List Char)

/-- The turn of a single position. -/
def one? (r : Recording) (i : Nat) : Option Recording := do
  let c ← w[i]?
  r.write? ⟨i, i⟩ (g.producers (.terminal c))

/-- Adds the producers of all pairs over one cut. -/
def cut? (acc : List SymbolSet × Recording) (parts : Span × Span) :
    Option (List SymbolSet × Recording) := do
  let (left, r) ← acc.2.read? parts.1
  let (right, r) ← r.read? parts.2
  return (acc.1 ++ left.toList.flatMap fun b => right.toList.map fun c => g.producers (.pair b c),
    r)

/-- The turn of a longer span. -/
def cuts? (r : Recording) (s : Span) : Option Recording := do
  let (sets, r) ← s.splits.foldlM (cut? g) ([], r)
  r.write? s (.unions sets)

/-- The turns of all spans of one length in an input of length `n`, from left to right. -/
def starts? (n : Nat) (r : Recording) (len : Nat) : Option Recording := do
  let lastStart ← minus? n len
  (List.range (lastStart + 1)).foldlM (fun r start => do
    let stop ← minus? (start + len) 1
    cuts? g r ⟨start, stop⟩) r

/-- The turns of all single positions, then of all lengths from 2 upwards. -/
def recorded? : Option Recording := do
  let n := w.length
  let r ← (List.range n).foldlM (one? g w) ⟨.blank n, []⟩
  (List.range' 2 (n - 1)).foldlM (starts? g n) r

variable {g w} {c : Chart} {as : List Access} {s t : Span} {x : SymbolSet}

/-! ## What is not refused -/

theorem minus?_of_le {m n : Nat} (h : n ≤ m) : minus? m n = some (m - n) := if_pos h

theorem read?_of_cell? (h : c.cell? s = some x) :
    read? ⟨c, as⟩ s = some (x, ⟨c, as ++ [.read s x]⟩) := by
  rw [read?, h]
  rfl

theorem write?_of_empty (h : c.cell? s = some ∅) :
    write? ⟨c, as⟩ s x = some ⟨c.fill s x, as ++ [.write s x]⟩ := by
  unfold Chart.cell? at h
  split at h
  · cases h
  · rename_i hle
    obtain ⟨row, hrow, hold⟩ := Option.bind_eq_some_iff.1 h
    unfold write?
    rw [minus?_of_le (Nat.not_lt.1 hle)]
    simp only [Option.bind_eq_bind, Option.bind_some, hrow, hold]
    rfl

/-- What the pairs over one cut produce, by the cells of its parts. -/
def pairSets (g : Grammar) (f : Span → SymbolSet) (parts : Span × Span) : List SymbolSet :=
  (f parts.1).toList.flatMap fun b => (f parts.2).toList.map fun c => g.producers (.pair b c)

/-- The two reads of one cut. -/
def partReads (f : Span → SymbolSet) (parts : Span × Span) : List Access :=
  [.read parts.1 (f parts.1), .read parts.2 (f parts.2)]

theorem foldlM_cut? {f : Span → SymbolSet} {cuts : List (Span × Span)}
    (hcuts : ∀ p ∈ cuts, c.cell? p.1 = some (f p.1) ∧ c.cell? p.2 = some (f p.2))
    (sets : List SymbolSet) (as : List Access) :
    cuts.foldlM (cut? g) (sets, ⟨c, as⟩) =
      some (sets ++ cuts.flatMap (pairSets g f), ⟨c, as ++ cuts.flatMap (partReads f)⟩) := by
  induction cuts generalizing sets as with
  | nil => simp
  | cons p cuts ih =>
    obtain ⟨⟨hl, hr⟩, hcuts⟩ := List.forall_mem_cons.1 hcuts
    have first : cut? g (sets, ⟨c, as⟩) p =
        some (sets ++ pairSets g f p, ⟨c, as ++ partReads f p⟩) := by
      unfold cut?
      simp only [read?_of_cell? hl, read?_of_cell? hr, Option.bind_eq_bind, Option.bind_some]
      simp [pairSets, partReads]
    rw [List.foldlM_cons, first, Option.bind_eq_bind, Option.bind_some, ih hcuts]
    simp only [List.flatMap_cons, List.append_assoc]

theorem pairCell_eq {f : Span → SymbolSet}
    (hs : ∀ p ∈ s.splits, c.cell? p.1 = some (f p.1) ∧ c.cell? p.2 = some (f p.2)) :
    Recognition.pairCell g c s = .unions (s.splits.flatMap (pairSets g f)) := by
  unfold Recognition.pairCell
  congr 1
  apply List.flatMap_congr
  intro p hp
  obtain ⟨hl, hr⟩ := hs p hp
  simp only [hl, hr, pairSets]

/-! ## Turns -/

variable (g w) in
/-- The uses of cells in the turn of a span: it reads its parts and writes itself. -/
def turnAccesses (s : Span) : List Access :=
  s.splits.flatMap (partReads (Recognition.cell g w)) ++ [.write s (Recognition.cell g w s)]

variable (g w) in
/-- What has been recorded after the turns of some spans. -/
def after (done : List Span) : Recording :=
  ⟨Recognition.chartAfter g w done, done.flatMap (turnAccesses g w)⟩

variable (g w) in
/-- The turn of a span. -/
def turn? (r : Recording) (s : Span) : Option Recording :=
  if s.first = s.last then one? g w r s.first else cuts? g r s

section Turn

open Recognition

variable {done rest : List Span} (h : Span.schedule w.length = done ++ s :: rest)

include h

/-- What has been written before is final. -/
theorem cell?_chartAfter_of_mem {t : Span} (ht : t ∈ done) :
    (chartAfter g w done).cell? t = some (cell g w t) := by
  obtain ⟨hdone, -, -⟩ := within_of_turn h
  obtain ⟨-, apart⟩ := apart_of_turn h
  obtain ⟨other, later⟩ := apart t ht
  rw [← cell?_chartOf_eq_cell (hdone t ht), cell?_chartOf_of_turn h later, if_neg other]

theorem cell?_chartAfter_self : (chartAfter g w done).cell? s = some ∅ := by
  obtain ⟨hdone, hs, -⟩ := within_of_turn h
  obtain ⟨-, apart⟩ := apart_of_turn h
  have fresh : s ∉ done := fun hmem => (apart s hmem).1 rfl
  rw [chartAfter, cell?_foldl_step_of_not_mem (Chart.triangular_blank _) hdone fresh,
    Chart.cell?_blank, if_pos hs]

/-- What is written is final. -/
theorem cellOf_chartAfter : cellOf g w (chartAfter g w done) s = cell g w s := by
  obtain ⟨-, hs, -⟩ := within_of_turn h
  obtain ⟨own, -⟩ := apart_of_turn h
  have final := cell?_chartOf_of_turn (g := g) h own
  rw [if_pos rfl, cell?_chartOf_eq_cell hs] at final
  exact (Option.some.inj final).symm

theorem chartAfter_append :
    chartAfter g w (done ++ [s]) = (chartAfter g w done).fill s (cell g w s) := by
  unfold chartAfter
  rw [List.foldl_append, List.foldl_cons, List.foldl_nil, step, ← chartAfter, cellOf_chartAfter h]

theorem one?_of_turn (single : s.first = s.last) :
    one? g w (after g w done) s.first = some (after g w (done ++ [s])) := by
  obtain ⟨i, j⟩ := s
  obtain rfl : i = j := single
  obtain ⟨-, hs, -⟩ := within_of_turn h
  have hi : i < w.length := hs.2
  have hc : w[i]? = some w[i] := List.getElem?_eq_getElem hi
  have final := cellOf_chartAfter (g := g) h
  rw [cellOf, if_pos rfl, hc] at final
  have no_cuts : Span.splits ⟨i, i⟩ = [] := by simp [Span.splits]
  rw [one?, hc, Option.bind_eq_bind, Option.bind_some, after,
    write?_of_empty (cell?_chartAfter_self h), after, chartAfter_append h, List.flatMap_append,
    List.flatMap_singleton, turnAccesses, no_cuts, ← final]
  rfl

theorem cuts?_of_turn (longer : s.first ≠ s.last) :
    cuts? g (after g w done) s = some (after g w (done ++ [s])) := by
  have parts : ∀ p ∈ s.splits, (chartAfter g w done).cell? p.1 = some (cell g w p.1) ∧
      (chartAfter g w done).cell? p.2 = some (cell g w p.2) := by
    intro p hp
    obtain ⟨hl, hr⟩ := Span.mem_done_of_mem_splits h hp
    exact ⟨cell?_chartAfter_of_mem h hl, cell?_chartAfter_of_mem h hr⟩
  have final := cellOf_chartAfter (g := g) h
  rw [cellOf, if_neg longer, pairCell_eq parts] at final
  rw [cuts?, after, foldlM_cut? parts, Option.bind_eq_bind, Option.bind_some, List.nil_append]
  dsimp only
  rw [write?_of_empty (cell?_chartAfter_self h), after, chartAfter_append h, List.flatMap_append,
    List.flatMap_singleton, turnAccesses, final, List.append_assoc]

/-- Nothing is refused in a turn. -/
theorem turn?_of_turn : turn? g w (after g w done) s = some (after g w (done ++ [s])) := by
  unfold turn?
  split
  · rename_i single
    exact one?_of_turn h single
  · rename_i longer
    exact cuts?_of_turn h longer

end Turn

/-- Nothing is refused in the remaining turns. -/
theorem foldlM_turn? {done rest : List Span} (h : Span.schedule w.length = done ++ rest) :
    rest.foldlM (turn? g w) (after g w done) = some (after g w (Span.schedule w.length)) := by
  induction rest generalizing done with
  | nil => rw [h, List.append_nil, List.foldlM_nil, Option.pure_def]
  | cons s rest ih =>
    rw [List.foldlM_cons, turn?_of_turn h, Option.bind_eq_bind, Option.bind_some]
    exact ih (by rw [h, List.append_assoc, List.singleton_append])

/-! ## The loops -/

theorem foldlM_flatMap {α β σ : Type} {f : σ → β → Option σ} {k : α → List β} (as : List α) (a : σ) :
    (as.flatMap k).foldlM f a = as.foldlM (fun a x => (k x).foldlM f a) a := by
  induction as generalizing a with
  | nil => rfl
  | cons x as ih => simp only [List.flatMap_cons, List.foldlM_append, List.foldlM_cons, ih]

theorem foldlM_congr {α σ : Type} {f f' : σ → α → Option σ} {as : List α}
    (same : ∀ x ∈ as, ∀ a, f a x = f' a x) (a : σ) : as.foldlM f a = as.foldlM f' a := by
  induction as generalizing a with
  | nil => rfl
  | cons x as ih =>
    obtain ⟨first, rest⟩ := List.forall_mem_cons.1 same
    rw [List.foldlM_cons, List.foldlM_cons, first]
    exact bind_congr fun b => ih rest b

/-- No difference is negative, and the turns are those of the spans of one length. -/
theorem starts?_eq {len n : Nat} (two : 2 ≤ len) (hlen : len ≤ n) (r : Recording) :
    starts? g n r len =
      ((List.range (n - len + 1)).map fun start => (⟨start, start + len - 1⟩ : Span)).foldlM
        (turn? g w) r := by
  rw [starts?, minus?_of_le hlen, Option.bind_eq_bind, Option.bind_some, List.foldlM_map]
  apply foldlM_congr
  intro start _ r
  rw [minus?_of_le (by omega), Option.bind_some, turn?, if_neg (by simp only; omega)]

/-- The loops take the spans in the order of the schedule. -/
theorem recorded?_eq_foldlM (g : Grammar) (w : List Char) :
    recorded? g w = (Span.schedule w.length).foldlM (turn? g w) (after g w []) := by
  have single : one? g w = fun r i => turn? g w r ⟨i, i⟩ := by
    funext r i
    rw [turn?, if_pos rfl]
  rw [Span.schedule_eq, List.foldlM_append, List.foldlM_map, ← single]
  apply bind_congr
  intro r
  rw [foldlM_flatMap]
  apply foldlM_congr
  intro len hlen r
  obtain ⟨h₂, hn⟩ := List.mem_range'_1.1 hlen
  exact starts?_eq h₂ (by omega) r

/-- Nothing is refused. The chart is the one that is filled in the order of the schedule. -/
theorem recorded?_eq (g : Grammar) (w : List Char) :
    recorded? g w = some ⟨Recognition.chartOf g w,
      (Span.schedule w.length).flatMap (turnAccesses g w)⟩ := by
  rw [recorded?_eq_foldlM, foldlM_turn? (List.nil_append _).symm]
  rfl

/-! ## The record -/

open Access (written)

theorem written_append (as bs : List Access) : written (as ++ bs) = written as ++ written bs :=
  List.filterMap_append

theorem written_turnAccesses (g : Grammar) (w : List Char) (s : Span) :
    written (turnAccesses g w s) = [s] := by
  have reads : written (s.splits.flatMap (partReads (Recognition.cell g w))) = [] := by
    apply List.filterMap_eq_nil_iff.2
    intro a ha
    obtain ⟨p, -, ha⟩ := List.mem_flatMap.1 ha
    rcases List.mem_pair.1 ha with rfl | rfl <;> rfl
  rw [turnAccesses, written_append, reads]
  rfl

/-- Each turn writes the cell of its span and no other. -/
theorem written_flatMap (g : Grammar) (w : List Char) (ss : List Span) :
    written (ss.flatMap (turnAccesses g w)) = ss := by
  induction ss with
  | nil => rfl
  | cons s ss ih =>
    rw [List.flatMap_cons, written_append, written_turnAccesses, ih, List.singleton_append]

theorem read_mem_turnAccesses (h : .read s x ∈ turnAccesses g w t) :
    x = Recognition.cell g w s ∧ ∃ p ∈ t.splits, s = p.1 ∨ s = p.2 := by
  rcases List.mem_append.1 h with h | h
  · obtain ⟨p, hp, h⟩ := List.mem_flatMap.1 h
    rcases List.mem_pair.1 h with h | h
    · obtain ⟨rfl, rfl⟩ := Access.read.inj h
      exact ⟨rfl, p, hp, Or.inl rfl⟩
    · obtain ⟨rfl, rfl⟩ := Access.read.inj h
      exact ⟨rfl, p, hp, Or.inr rfl⟩
  · cases List.mem_singleton.1 h

/-- An element of a concatenation belongs to one of the parts. -/
theorem exists_of_flatMap_eq {α β : Type} {k : α → List β} {as : List α} {before after : List β}
    {b : β} (h : as.flatMap k = before ++ b :: after) :
    ∃ done a rest u v, as = done ++ a :: rest ∧ k a = u ++ b :: v ∧
      before = done.flatMap k ++ u ∧ after = v ++ rest.flatMap k := by
  induction as generalizing before with
  | nil => simp at h
  | cons a as ih =>
    rw [List.flatMap_cons, List.append_eq_append_iff] at h
    rcases h with ⟨before, rfl, h⟩ | ⟨u, hu, h⟩
    · obtain ⟨done, a', rest, u, v, rfl, hk, rfl, rfl⟩ := ih h
      exact ⟨a :: done, a', rest, u, v, rfl, hk, by simp, rfl⟩
    · cases u with
      | nil =>
        have later : as.flatMap k = [] ++ b :: after := h.symm
        obtain ⟨done, a', rest, u, v, rfl, hk, hb, rfl⟩ := ih later
        obtain ⟨e, rfl⟩ := List.append_eq_nil_iff.1 hb.symm
        refine ⟨a :: done, a', rest, [], v, rfl, hk, ?_, rfl⟩
        simp [hu, e]
      | cons b' u =>
        obtain ⟨rfl, rfl⟩ := List.cons.inj h
        exact ⟨[], a, as, before, u, rfl, hu, rfl, rfl⟩

/-- A cell that is read has been written before and is not written again. -/
theorem final_of_read {before after : List Access}
    (h : (Span.schedule w.length).flatMap (turnAccesses g w) = before ++ .read s x :: after) :
    (Recognition.chartOf g w).cell? s = some x ∧ s ∈ written before ∧ s ∉ written after := by
  obtain ⟨done, t, rest, u, v, turn, ht, rfl, rfl⟩ := exists_of_flatMap_eq h
  have mem : .read s x ∈ turnAccesses g w t := by
    rw [ht]
    exact List.mem_append_right u List.mem_cons_self
  obtain ⟨rfl, p, hp, part⟩ := read_mem_turnAccesses mem
  have earlier : s ∈ done := by
    obtain ⟨hl, hr⟩ := Span.mem_done_of_mem_splits turn hp
    rcases part with rfl | rfl
    · exact hl
    · exact hr
  obtain ⟨hdone, -, -⟩ := Recognition.within_of_turn turn
  obtain ⟨-, apart⟩ := Recognition.apart_of_turn turn
  obtain ⟨other, later⟩ := apart s earlier
  refine ⟨Recognition.cell?_chartOf_eq_cell (hdone s earlier), ?_, ?_⟩
  · rw [written_append, written_flatMap]
    exact List.mem_append_left _ earlier
  · rw [written_append, written_flatMap, List.mem_append, not_or]
    refine ⟨?_, later⟩
    intro hv
    have own := written_turnAccesses g w t
    rw [ht, written_append] at own
    have : s ∈ written u ++ written (.read s (Recognition.cell g w s) :: v) :=
      List.mem_append_right _ hv
    rw [own] at this
    exact other (List.mem_singleton.1 this)

/-- **Written once, read when final.** For a non-empty input the loops run without a negative
difference, a missing cell or a cell that holds something when it is written, and fill the chart
of the recogniser. Turn by turn, the parts of a span are read and then its cell is written. Each of
the cells is written exactly once; what is read has been written before, is not written again, and
is what the finished chart holds. The finished chart has the cells of the spans, and no others. -/
theorem writes_once_reads_final (g : Grammar) {w : List Char} (hw : w ≠ []) :
    ∃ r as, Recognition.ofInput g w = .ok r ∧ recorded? g w = some ⟨r.chart, as⟩ ∧
      as = (Span.schedule w.length).flatMap (turnAccesses g w) ∧
      (written as).Nodup ∧ (∀ i j, ⟨i, j⟩ ∈ written as ↔ i ≤ j ∧ j < w.length) ∧
      (written as).length = w.length * (w.length + 1) / 2 ∧
      (∀ before s x after, as = before ++ .read s x :: after →
        r.chart.cell? s = some x ∧ s ∈ written before ∧ s ∉ written after) ∧
      ∀ i j, (r.chart.cell? ⟨i, j⟩).isSome ↔ i ≤ j ∧ j < w.length := by
  refine ⟨_, _, Recognition.ofInput_of_ne_nil hw, recorded?_eq g w, rfl, ?_, ?_, ?_, ?_, ?_⟩
  · rw [written_flatMap]
    exact Span.nodup_schedule w.length
  · intro i j
    rw [written_flatMap, Span.mem_schedule]
    exact Iff.rfl
  · rw [written_flatMap, Span.length_schedule]
  · intro before s x after h
    exact final_of_read h
  · intro i j
    exact Recognition.triangular_chartOf g w ⟨i, j⟩

theorem balanced_aab_written_once :
    ['a', 'a', 'b'] ≠ [] ∧
    ∃ r as, Recognition.ofInput Grammar.balanced ['a', 'a', 'b'] = .ok r ∧
      recorded? Grammar.balanced ['a', 'a', 'b'] = some ⟨r.chart, as⟩ ∧
      (written as).Nodup ∧ ⟨0, 2⟩ ∈ written as ∧ ⟨2, 1⟩ ∉ written as ∧
      (written as).length = 6 ∧ (r.chart.cell? ⟨1, 2⟩).isSome ∧
      ¬ (r.chart.cell? ⟨1, 3⟩).isSome := by
  have hw : ['a', 'a', 'b'] ≠ [] := by decide
  obtain ⟨r, as, hr, run, -, nodup, mem, length, -, cells⟩ :=
    writes_once_reads_final Grammar.balanced hw
  refine ⟨hw, r, as, hr, run, nodup, (mem 0 2).2 (by decide), ?_, length, (cells 1 2).2 (by decide),
    ?_⟩
  · rw [mem 2 1]
    decide
  · rw [cells 1 3]
    decide

end Recording

end NormalGrammar

import Mathlib.Data.List.Basic
import NormalGrammar.Recognition

/-!
# How a chart is filled

The schedule lists the spans by their distance and then by their start. Hence the parts of a span
are filled before it and are not touched again, and the finished chart satisfies the equation of
every step at once: each cell is what belongs into it by the finished chart itself
(`cell?_chartOf`).
-/

namespace NormalGrammar

/-! ## The order of the schedule -/

namespace Span

/-- The number of places between the ends. -/
def distance (s : Span) : Nat := s.last - s.first

/-- The place of `s` in a schedule is before that of `t`. -/
def Earlier (s t : Span) : Prop :=
  s.distance < t.distance ∨ s.distance = t.distance ∧ s.first < t.first

theorem Earlier.irrefl (s : Span) : ¬ s.Earlier s := by
  unfold Earlier
  omega

theorem Earlier.asymm {s t : Span} (h : s.Earlier t) : ¬ t.Earlier s := by
  unfold Earlier at *
  omega

theorem pairwise_schedule (n : Nat) : (schedule n).Pairwise Earlier := by
  unfold schedule
  apply List.pairwise_flatMap.2
  constructor
  · intro d _
    apply List.pairwise_map.2
    apply List.pairwise_lt_range.imp
    intro i j hij
    refine Or.inr ⟨?_, hij⟩
    simp [distance]
  · apply List.pairwise_lt_range.imp
    intro d e hde s hs t ht
    obtain ⟨i, -, rfl⟩ := List.mem_map.1 hs
    obtain ⟨j, -, rfl⟩ := List.mem_map.1 ht
    left
    simpa [distance] using hde

theorem nodup_schedule (n : Nat) : (schedule n).Nodup := by
  apply (pairwise_schedule n).imp
  intro s t h
  rintro rfl
  exact Earlier.irrefl s h

/-- Beside the single positions there is a longer span for each span of an input with one place
less. -/
theorem length_schedule_succ (n : Nat) :
    (schedule (n + 1)).length = n + 1 + (schedule n).length := by
  have shift : (fun d => n + 1 - d) ∘ Nat.succ = fun d => n - d := by
    funext d
    exact Nat.add_sub_add_right n 1 d
  simp only [schedule, List.length_flatMap, List.length_map, List.length_range]
  rw [List.range_succ_eq_map, List.map_cons, List.map_map, List.sum_cons, shift, Nat.sub_zero]

theorem length_schedule (n : Nat) : (schedule n).length = n * (n + 1) / 2 := by
  have twice : (schedule n).length * 2 = n * (n + 1) := by
    induction n with
    | zero => rfl
    | succ n ih =>
      rw [length_schedule_succ, Nat.add_mul, ih, Nat.mul_comm n, ← Nat.mul_add, Nat.add_comm 2]
  rw [← twice, Nat.mul_div_cancel _ Nat.two_pos]

/-- When the turn of a span comes, the spans that are done are the earlier ones. -/
theorem mem_done_iff {n : Nat} {done rest : List Span} {s t : Span}
    (h : schedule n = done ++ s :: rest) : t ∈ done ↔ t.Within n ∧ t.Earlier s := by
  have order := pairwise_schedule n
  rw [h, List.pairwise_append, List.pairwise_cons] at order
  obtain ⟨-, ⟨later, -⟩, before⟩ := order
  constructor
  · intro ht
    refine ⟨mem_schedule.1 ?_, before t ht s List.mem_cons_self⟩
    rw [h]
    exact List.mem_append_left _ ht
  · rintro ⟨hw, he⟩
    have ht := mem_schedule.2 hw
    rw [h, List.mem_append, List.mem_cons] at ht
    rcases ht with ht | rfl | ht
    · exact ht
    · exact absurd he (Earlier.irrefl t)
    · exact absurd he (later t ht).asymm

theorem Within.of_mem_splits {n : Nat} {s l r : Span} (h : s.Within n) (hs : (l, r) ∈ s.splits) :
    l.Within n ∧ r.Within n := by
  obtain ⟨k, h₁, h₂, rfl, rfl⟩ := mem_splits.1 hs
  exact ⟨⟨h₁, Nat.lt_trans h₂ h.2⟩, ⟨h₂, h.2⟩⟩

theorem earlier_of_mem_splits {s l r : Span} (hs : (l, r) ∈ s.splits) :
    l.Earlier s ∧ r.Earlier s := by
  obtain ⟨k, h₁, h₂, rfl, rfl⟩ := mem_splits.1 hs
  unfold Earlier distance
  exact ⟨Or.inl (by simp only; omega), Or.inl (by simp only; omega)⟩

/-- The parts of a span are done when its turn comes. -/
theorem mem_done_of_mem_splits {n : Nat} {done rest : List Span} {s l r : Span}
    (h : schedule n = done ++ s :: rest) (hs : (l, r) ∈ s.splits) : l ∈ done ∧ r ∈ done := by
  have hw : s.Within n := mem_schedule.1 (by simp [h])
  rw [mem_done_iff h, mem_done_iff h]
  exact ⟨⟨(hw.of_mem_splits hs).1, (earlier_of_mem_splits hs).1⟩,
    ⟨(hw.of_mem_splits hs).2, (earlier_of_mem_splits hs).2⟩⟩

end Span

/-! ## Writing a list of cells -/

/-- The chart has a cell for each span of an input of length `n` and for no other. -/
def Chart.Triangular (c : Chart) (n : Nat) : Prop := ∀ s, (c.cell? s).isSome ↔ s.Within n

namespace Chart

theorem triangular_blank (n : Nat) : (blank n).Triangular n := by
  intro s
  rw [cell?_blank]
  split <;> simp_all

theorem Triangular.cell?_fill {c : Chart} {n : Nat} (h : c.Triangular n) {s : Span}
    (hs : s.Within n) (x : SymbolSet) (t : Span) :
    (c.fill s x).cell? t = if t = s then some x else c.cell? t :=
  Chart.cell?_fill c s t x ((h s).2 hs)

theorem Triangular.fill {c : Chart} {n : Nat} (h : c.Triangular n) {s : Span} (hs : s.Within n)
    (x : SymbolSet) : (c.fill s x).Triangular n := by
  intro t
  rw [h.cell?_fill hs]
  by_cases ht : t = s
  · simp [ht, hs]
  · rw [if_neg ht, h t]

end Chart

namespace Recognition

variable {g : Grammar} {w : List Char} {n : Nat}

theorem triangular_foldl_step {ss : List Span} {c : Chart} (hc : c.Triangular n)
    (hss : ∀ s ∈ ss, s.Within n) : (ss.foldl (step g w) c).Triangular n := by
  induction ss generalizing c with
  | nil => exact hc
  | cons s ss ih =>
    obtain ⟨hs, hss⟩ := List.forall_mem_cons.1 hss
    exact ih (hc.fill hs _) hss

/-- Cells of other spans stay as they are. -/
theorem cell?_foldl_step_of_not_mem {ss : List Span} {c : Chart} (hc : c.Triangular n)
    (hss : ∀ s ∈ ss, s.Within n) {t : Span} (ht : t ∉ ss) :
    (ss.foldl (step g w) c).cell? t = c.cell? t := by
  induction ss generalizing c with
  | nil => rfl
  | cons s ss ih =>
    obtain ⟨hs, hss⟩ := List.forall_mem_cons.1 hss
    rw [List.mem_cons, not_or] at ht
    rw [List.foldl_cons, step, ih (hc.fill hs _) hss ht.2, hc.cell?_fill hs, if_neg ht.1]

/-! ## The finished chart -/

theorem triangular_chartOf (g : Grammar) (w : List Char) :
    (chartOf g w).Triangular w.length :=
  triangular_foldl_step (Chart.triangular_blank _) fun _ hs => Span.mem_schedule.1 hs

/-- What belongs into a cell is read off the parts of its span. -/
theorem cellOf_congr {c c' : Chart} {s : Span}
    (h : ∀ l r, (l, r) ∈ s.splits → c.cell? l = c'.cell? l ∧ c.cell? r = c'.cell? r) :
    cellOf g w c s = cellOf g w c' s := by
  unfold cellOf pairCell
  congr 2
  apply List.flatMap_congr
  intro p hp
  obtain ⟨hl, hr⟩ := h p.1 p.2 hp
  simp only [hl, hr]

/-- The chart after the steps for some spans. -/
def chartAfter (g : Grammar) (w : List Char) (done : List Span) : Chart :=
  done.foldl (step g w) (.blank w.length)

section Turn

variable {done rest : List Span} {s t : Span} (h : Span.schedule w.length = done ++ s :: rest)

include h

theorem within_of_turn :
    (∀ t ∈ done, t.Within w.length) ∧ s.Within w.length ∧ ∀ t ∈ rest, t.Within w.length := by
  have within : ∀ t ∈ done ++ s :: rest, t.Within w.length := by
    intro t ht
    rw [← h] at ht
    exact Span.mem_schedule.1 ht
  obtain ⟨hdone, hcons⟩ := List.forall_mem_append.1 within
  exact ⟨hdone, List.forall_mem_cons.1 hcons⟩

/-- No span has two turns. -/
theorem apart_of_turn : s ∉ rest ∧ ∀ t ∈ done, t ≠ s ∧ t ∉ rest := by
  have nodup := Span.nodup_schedule w.length
  rw [h, List.nodup_append, List.nodup_cons] at nodup
  obtain ⟨-, ⟨own, -⟩, apart⟩ := nodup
  refine ⟨own, ?_⟩
  intro t ht
  exact ⟨apart t ht s List.mem_cons_self,
    fun hrest => apart t ht t (List.mem_cons_of_mem s hrest) rfl⟩

/-- The later steps touch neither the span nor what was written before. -/
theorem cell?_chartOf_of_turn (ht : t ∉ rest) :
    (chartOf g w).cell? t =
      if t = s then some (cellOf g w (chartAfter g w done) s)
      else (chartAfter g w done).cell? t := by
  obtain ⟨hdone, hs, hrest⟩ := within_of_turn h
  have tri : (chartAfter g w done).Triangular w.length :=
    triangular_foldl_step (Chart.triangular_blank _) hdone
  calc (chartOf g w).cell? t
      = (rest.foldl (step g w) (step g w (chartAfter g w done) s)).cell? t := by
        rw [chartOf, h, List.foldl_append, List.foldl_cons, chartAfter]
    _ = (step g w (chartAfter g w done) s).cell? t :=
        cell?_foldl_step_of_not_mem (tri.fill hs _) hrest ht
    _ = _ := by rw [step, tri.cell?_fill hs]

end Turn

/-- A finished cell holds what belongs into it by the finished chart. -/
theorem cell?_chartOf {s : Span} (hs : s.Within w.length) :
    (chartOf g w).cell? s = some (cellOf g w (chartOf g w) s) := by
  obtain ⟨done, rest, h⟩ := List.append_of_mem (Span.mem_schedule.2 hs)
  obtain ⟨own, apart⟩ := apart_of_turn h
  have parts : ∀ t ∈ done, (chartAfter g w done).cell? t = (chartOf g w).cell? t := by
    intro t ht
    obtain ⟨other, later⟩ := apart t ht
    rw [cell?_chartOf_of_turn h later, if_neg other]
  rw [cell?_chartOf_of_turn h own, if_pos rfl]
  congr 1
  apply cellOf_congr
  intro l r hlr
  obtain ⟨hl, hr⟩ := Span.mem_done_of_mem_splits h hlr
  exact ⟨parts l hl, parts r hr⟩

/-! ## Cells -/

/-- The cell of a span in the finished chart. -/
def cell (g : Grammar) (w : List Char) (s : Span) : SymbolSet := ((chartOf g w).cell? s).getD ∅

theorem cell?_chartOf_eq_cell {s : Span} (hs : s.Within w.length) :
    (chartOf g w).cell? s = some (cell g w s) := by
  unfold cell
  rw [cell?_chartOf hs, Option.getD_some]

theorem cell_eq_cellOf {s : Span} (hs : s.Within w.length) :
    cell g w s = cellOf g w (chartOf g w) s := by
  unfold cell
  rw [cell?_chartOf hs, Option.getD_some]

/-- The cell of one position holds the left sides of the rules for its character. -/
theorem mem_cell_self {i : Nat} {x c : Char} (hc : w[i]? = some c) :
    x ∈ cell g w ⟨i, i⟩ ↔ ⟨x, .terminal c⟩ ∈ g.rules := by
  obtain ⟨hi, -⟩ := List.getElem?_eq_some_iff.1 hc
  rw [cell_eq_cellOf ⟨Nat.le_refl i, hi⟩, cellOf, if_pos rfl, hc]
  exact Grammar.mem_producers

/-- The cell of a longer span holds the left sides of the rules for the pairs over its cuts. -/
theorem mem_cell_of_lt {i j : Nat} {x : Char} (hij : i < j) (hj : j < w.length) :
    x ∈ cell g w ⟨i, j⟩ ↔ ∃ k b c, i ≤ k ∧ k < j ∧ b ∈ cell g w ⟨i, k⟩ ∧
      c ∈ cell g w ⟨k + 1, j⟩ ∧ ⟨x, .pair b c⟩ ∈ g.rules := by
  have hs : Span.Within ⟨i, j⟩ w.length := ⟨Nat.le_of_lt hij, hj⟩
  rw [cell_eq_cellOf hs, cellOf, if_neg (by simp only; omega), pairCell, SymbolSet.mem_unions]
  simp only [List.mem_flatMap]
  constructor
  · rintro ⟨set, ⟨⟨l, r⟩, hlr, hset⟩, hx⟩
    obtain ⟨hl, hr⟩ := hs.of_mem_splits hlr
    obtain ⟨k, h₁, h₂, rfl, rfl⟩ := Span.mem_splits.1 hlr
    simp only [cell?_chartOf_eq_cell hl, cell?_chartOf_eq_cell hr, List.mem_flatMap,
      List.mem_map] at hset
    obtain ⟨b, hb, c, hc, rfl⟩ := hset
    exact ⟨k, b, c, h₁, h₂, hb, hc, Grammar.mem_producers.1 hx⟩
  · rintro ⟨k, b, c, h₁, h₂, hb, hc, rule⟩
    have hlr : ((⟨i, k⟩, ⟨k + 1, j⟩) : Span × Span) ∈ Span.splits ⟨i, j⟩ :=
      Span.mem_splits.2 ⟨k, h₁, h₂, rfl, rfl⟩
    obtain ⟨hl, hr⟩ := hs.of_mem_splits hlr
    refine ⟨g.producers (.pair b c), ⟨_, hlr, ?_⟩, Grammar.mem_producers.2 rule⟩
    simp only [cell?_chartOf_eq_cell hl, cell?_chartOf_eq_cell hr, List.mem_flatMap,
      List.mem_map]
    exact ⟨b, hb, c, hc, rfl⟩

end Recognition

end NormalGrammar

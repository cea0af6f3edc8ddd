import NormalGrammar.Proofs.Recognition.Language

/-!
# Further rules that change no chart

A chart says by itself which right sides match which spans (`Production.Matches`), and a cell holds
the left sides of the rules that match its span (`mem_cell_iff_matches`). So a chart does not change
under further rules if and only if it is closed under them: whatever matches is there already. The
further rules cannot feed each other first, for what matches a span is read off its parts, and those
have not changed.
-/

namespace NormalGrammar

/-! ## Charts that agree on their cells -/

namespace Chart

theorem ext_cell? {c c' : Chart} (size : c.size = c'.size) (h : ∀ s, c.cell? s = c'.cell? s) :
    c = c' := by
  obtain ⟨rows⟩ := c
  obtain ⟨rows'⟩ := c'
  congr 1
  apply Array.ext size
  intro i hi hi'
  apply Array.ext_getElem?
  intro k
  have hk := h ⟨i, i + k⟩
  have ordered : ¬ i + k < i := by omega
  simpa [cell?, ordered, Array.getElem?_eq_getElem hi, Array.getElem?_eq_getElem hi'] using hk

/-- The nonterminal is in the cell of the span. -/
def Holds (c : Chart) (s : Span) (x : Char) : Prop := x ∈ (c.cell? s).getD ∅

instance (c : Chart) (s : Span) (x : Char) : Decidable (c.Holds s x) :=
  inferInstanceAs (Decidable (x ∈ (c.cell? s).getD ∅))

end Chart

/-! ## What matches a span -/

/-- The right side is the character of the span, or a pair from the cells of its two parts. -/
def Production.Matches (c : Chart) (w : List Char) (s : Span) : Production → Prop
  | .terminal a => s.first = s.last ∧ w[s.first]? = some a
  | .pair a b => ∃ k < s.last, s.first ≤ k ∧ c.Holds ⟨s.first, k⟩ a ∧ c.Holds ⟨k + 1, s.last⟩ b

instance (c : Chart) (w : List Char) (s : Span) (p : Production) : Decidable (p.Matches c w s) :=
  match p with
  | .terminal _ => inferInstanceAs (Decidable (_ ∧ _))
  | .pair _ _ => inferInstanceAs (Decidable (∃ k < s.last, _))

/-- The left side of a rule is in each cell whose span the right side matches. -/
def Chart.ClosedUnder (c : Chart) (w : List Char) (rules : List Rule) : Prop :=
  ∀ r ∈ rules, ∀ j < w.length, ∀ i ≤ j, r.right.Matches c w ⟨i, j⟩ → c.Holds ⟨i, j⟩ r.left

instance (c : Chart) (w : List Char) (rules : List Rule) : Decidable (c.ClosedUnder w rules) :=
  inferInstanceAs (Decidable (∀ r ∈ rules, ∀ j < w.length, ∀ i ≤ j, _ → _))

namespace Recognition

variable {g g' : Grammar} {w : List Char}

/-- A cell holds the left sides of the rules that match its span. -/
theorem mem_cell_iff_matches {i j : Nat} (hij : i ≤ j) (hj : j < w.length) {x : Char} :
    x ∈ cell g w ⟨i, j⟩ ↔ ∃ p, ⟨x, p⟩ ∈ g.rules ∧ p.Matches (chartOf g w) w ⟨i, j⟩ := by
  rcases Nat.eq_or_lt_of_le hij with rfl | hlt
  · have hc : w[i]? = some w[i] := List.getElem?_eq_getElem hj
    rw [mem_cell_self hc]
    constructor
    · intro rule
      exact ⟨_, rule, rfl, hc⟩
    · rintro ⟨a | ⟨b, c⟩, rule, m⟩
      · obtain ⟨-, ha⟩ := m
        rw [hc] at ha
        rwa [Option.some.inj ha]
      · obtain ⟨k, hkj, hik, -⟩ := m
        exact absurd hkj (Nat.not_lt.2 hik)
  · rw [mem_cell_of_lt hlt hj]
    constructor
    · rintro ⟨k, b, c, hik, hkj, hb, hc, rule⟩
      exact ⟨.pair b c, rule, k, hkj, hik, hb, hc⟩
    · rintro ⟨a | ⟨b, c⟩, rule, m⟩
      · obtain ⟨single, -⟩ := m
        exact absurd single (Nat.ne_of_lt hlt)
      · obtain ⟨k, hkj, hik, hb, hc⟩ := m
        exact ⟨k, b, c, hik, hkj, hb, hc, rule⟩

/-- What matches a span is read off shorter spans. -/
theorem matches_congr {i j : Nat}
    (shorter : ∀ i' j', j' - i' < j - i → i ≤ i' → j' ≤ j → i' ≤ j' →
      cell g' w ⟨i', j'⟩ = cell g w ⟨i', j'⟩) (p : Production) :
    p.Matches (chartOf g' w) w ⟨i, j⟩ ↔ p.Matches (chartOf g w) w ⟨i, j⟩ := by
  cases p with
  | terminal a => rw [Production.Matches, Production.Matches]
  | pair a b =>
    apply exists_congr
    intro k
    apply and_congr_right
    intro hkj
    apply and_congr_right
    intro hik
    have hik : i ≤ k := hik
    have hkj : k < j := hkj
    show a ∈ cell g' w ⟨i, k⟩ ∧ b ∈ cell g' w ⟨k + 1, j⟩ ↔
      a ∈ cell g w ⟨i, k⟩ ∧ b ∈ cell g w ⟨k + 1, j⟩
    rw [shorter i k (by omega) (Nat.le_refl i) (Nat.le_of_lt hkj) hik,
      shorter (k + 1) j (by omega) (Nat.le_succ_of_le hik) (Nat.le_refl j) hkj]

theorem size_foldl_step (ss : List Span) (c : Chart) : (ss.foldl (step g w) c).size = c.size := by
  induction ss generalizing c with
  | nil => rfl
  | cons s ss ih => rw [List.foldl_cons, ih, step, Chart.size_fill]

theorem size_chartOf (g : Grammar) (w : List Char) : (chartOf g w).size = w.length := by
  rw [chartOf, size_foldl_step, Chart.size_blank]

/-- Charts of one input agree if their cells do. -/
theorem chartOf_eq_of_cell (h : ∀ i j, i ≤ j → j < w.length → cell g' w ⟨i, j⟩ = cell g w ⟨i, j⟩) :
    chartOf g' w = chartOf g w := by
  apply Chart.ext_cell?
  · rw [size_chartOf, size_chartOf]
  · rintro ⟨i, j⟩
    by_cases hs : Span.Within ⟨i, j⟩ w.length
    · rw [cell?_chartOf_eq_cell hs, cell?_chartOf_eq_cell hs, h i j hs.1 hs.2]
    · have none_of (g : Grammar) : (chartOf g w).cell? ⟨i, j⟩ = none :=
        Option.not_isSome_iff_eq_none.1 (mt (triangular_chartOf g w _).1 hs)
      rw [none_of, none_of]

section Added

variable {added : List Rule} (h : ∀ r, r ∈ g'.rules ↔ r ∈ g.rules ∨ r ∈ added)

include h

/-- A closed chart is what the further rules lead to, from the short spans to the long ones. -/
theorem cell_eq_of_closedUnder (closed : (chartOf g w).ClosedUnder w added) {i j : Nat}
    (hij : i ≤ j) (hj : j < w.length) : cell g' w ⟨i, j⟩ = cell g w ⟨i, j⟩ := by
  induction hd : j - i using Nat.strongRecOn generalizing i j with
  | ind d ih =>
    subst hd
    have same : ∀ p : Production,
        p.Matches (chartOf g' w) w ⟨i, j⟩ ↔ p.Matches (chartOf g w) w ⟨i, j⟩ :=
      matches_congr fun i' j' shorter _ hj' hij' =>
        ih _ shorter hij' (Nat.lt_of_le_of_lt hj' hj) rfl
    ext x
    rw [mem_cell_iff_matches hij hj, mem_cell_iff_matches hij hj]
    constructor
    · rintro ⟨p, rule, m⟩
      rw [same] at m
      rcases (h _).1 rule with rule | rule
      · exact ⟨p, rule, m⟩
      · exact (mem_cell_iff_matches hij hj).1 (closed _ rule j hj i hij m)
    · rintro ⟨p, rule, m⟩
      exact ⟨p, (h _).2 (Or.inl rule), (same p).2 m⟩

/-- The chart does not change under further rules if and only if it is closed under them. -/
theorem chartOf_eq_iff_closedUnder :
    chartOf g' w = chartOf g w ↔ (chartOf g w).ClosedUnder w added := by
  constructor
  · intro same r hr j hj i hij m
    have mem : r.left ∈ cell g' w ⟨i, j⟩ := by
      rw [mem_cell_iff_matches hij hj, same]
      exact ⟨r.right, (h r).2 (Or.inr hr), m⟩
    unfold cell at mem
    rwa [same] at mem
  · intro closed
    exact chartOf_eq_of_cell fun i j hij hj => cell_eq_of_closedUnder h closed hij hj

end Added

end Recognition

namespace Grammar

/-- **Irrelevant rules.** Rules are added to a grammar, wherever they stand among the others. The
chart of an input stays the same if and only if, by the old chart, the left side of each added rule
is in the cell of each span that the right side matches. With the same start symbol, the verdict
then stays the same too. -/
theorem chart_eq_iff_closed {g g' : Grammar} {added : List Rule}
    (h : ∀ r, r ∈ g'.rules ↔ r ∈ g.rules ∨ r ∈ added) {w : List Char} (hw : w ≠ []) :
    ∃ r r', Recognition.ofInput g w = .ok r ∧ Recognition.ofInput g' w = .ok r' ∧
      (r'.chart = r.chart ↔ ∀ rule ∈ added, ∀ j < w.length, ∀ i ≤ j,
        rule.right.Matches r.chart w ⟨i, j⟩ → r.chart.Holds ⟨i, j⟩ rule.left) ∧
      (g'.start = g.start → r'.chart = r.chart → r'.accepted = r.accepted) := by
  refine ⟨_, _, Recognition.ofInput_of_ne_nil hw, Recognition.ofInput_of_ne_nil hw,
    Recognition.chartOf_eq_iff_closedUnder h, ?_⟩
  intro start same
  have same : Recognition.chartOf g' w = Recognition.chartOf g w := same
  rw [Bool.eq_iff_iff, decide_eq_true_iff, decide_eq_true_iff, start, Recognition.cell, same,
    Recognition.cell]

/-- Rules for a nonterminal that `balanced` does not have, and for `S`. -/
def detour : List Rule := [⟨'D', .pair 'D' 'D'⟩, ⟨'D', .terminal 'z'⟩, ⟨'S', .pair 'D' 'A'⟩]

/-- The rules of `balanced` amid those of `detour`. -/
def detoured : Grammar := .ofRules (detour.take 1 ++ balanced.rules ++ detour.drop 1)

theorem detour_changes_za_not_aabb :
    (∀ r, r ∈ detoured.rules ↔ r ∈ balanced.rules ∨ r ∈ detour) ∧
    (['a', 'a', 'b', 'b'] ≠ [] ∧
      ∃ r r', Recognition.ofInput balanced ['a', 'a', 'b', 'b'] = .ok r ∧
        Recognition.ofInput detoured ['a', 'a', 'b', 'b'] = .ok r' ∧
        r'.chart = r.chart ∧ r'.accepted = r.accepted) ∧
    (['z', 'a'] ≠ [] ∧
      ∃ r r', Recognition.ofInput balanced ['z', 'a'] = .ok r ∧
        Recognition.ofInput detoured ['z', 'a'] = .ok r' ∧ r'.chart ≠ r.chart) := by
  have added : ∀ r, r ∈ detoured.rules ↔ r ∈ balanced.rules ∨ r ∈ detour := by
    intro r
    have split : r ∈ detour ↔ r ∈ detour.take 1 ∨ r ∈ detour.drop 1 := by
      rw [← List.mem_append, List.take_append_drop]
    rw [detoured, rules_ofRules, List.mem_append, List.mem_append, split, or_assoc, or_left_comm]
  have hw : ['a', 'a', 'b', 'b'] ≠ [] := by decide
  have hv : ['z', 'a'] ≠ [] := by decide
  obtain ⟨r, r', hr, hr', closed, verdict⟩ := chart_eq_iff_closed added hw
  obtain ⟨q, q', hq, hq', closed', -⟩ := chart_eq_iff_closed added hv
  have chart := Except.ok.inj (hr.symm.trans (Recognition.ofInput_of_ne_nil hw))
  have chart' := Except.ok.inj (hq.symm.trans (Recognition.ofInput_of_ne_nil hv))
  have same : r'.chart = r.chart := by
    rw [closed, chart]
    decide +kernel
  have other : q'.chart ≠ q.chart := by
    rw [ne_eq, closed', chart']
    decide +kernel
  exact ⟨added, ⟨hw, r, r', hr, hr', same, verdict rfl same⟩, hv, q, q', hq, hq', other⟩

end Grammar

end NormalGrammar

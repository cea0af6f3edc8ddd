import NormalGrammar.Proofs.Heights.Least
import NormalGrammar.Proofs.Recognition.Language

/-!
# More rules, more words

A tree of a grammar becomes a tree of a grammar with more rules when each node is labelled anew
with a position of its rule (`Tree.ValidFor.exists_of_subset`). It keeps its yield and its height.
So cells only grow with the rules, and least heights only fall. Rule lists with the same elements
have the same producers, and so the very same charts.
-/

namespace NormalGrammar

variable {g g' : Grammar}

/-- A tree survives in a grammar with more rules, up to the positions of its rules. -/
theorem Tree.ValidFor.exists_of_subset (h : g.rules ⊆ g'.rules) {x : Char} {t : Tree}
    (valid : t.ValidFor g x) :
    ∃ t' : Tree, t'.ValidFor g' x ∧ t'.yield = t.yield ∧ t'.height = t.height := by
  induction valid with
  | @leaf x c k rule =>
    obtain ⟨k', hk'⟩ := List.getElem?_of_mem (h (List.mem_of_getElem? rule))
    exact ⟨.leaf k' c, .leaf hk', rfl, rfl⟩
  | @node x b c k l r rule _ _ ihl ihr =>
    obtain ⟨l', hl', yieldl, heightl⟩ := ihl
    obtain ⟨r', hr', yieldr, heightr⟩ := ihr
    obtain ⟨k', hk'⟩ := List.getElem?_of_mem (h (List.mem_of_getElem? rule))
    refine ⟨.node k' l' r', .node hk' hl' hr', ?_, ?_⟩
    · rw [Tree.yield_node, Tree.yield_node, yieldl, yieldr]
    · rw [Tree.height, Tree.height, heightl, heightr]

/-! ## Monotonicity -/

theorem Grammar.Yields.mono (h : g.rules ⊆ g'.rules) {x : Char} {w : List Char}
    (hw : g.Yields x w) : g'.Yields x w := by
  obtain ⟨t, valid, rfl⟩ := hw
  obtain ⟨t', valid', e, -⟩ := valid.exists_of_subset h
  exact ⟨t', valid', e⟩

theorem Recognition.mem_cell_mono (h : g.rules ⊆ g'.rules) {w : List Char} {i j : Nat}
    (hij : i ≤ j) (hj : j < w.length) {x : Char} (hx : x ∈ cell g w ⟨i, j⟩) :
    x ∈ cell g' w ⟨i, j⟩ := by
  rw [mem_cell_iff_yields hij hj] at hx ⊢
  exact hx.mono h

theorem Grammar.Accepts.mono (start : g.start = g'.start) (h : g.rules ⊆ g'.rules)
    {w : List Char} (hw : g.Accepts w) : g'.Accepts w := by
  rw [accepts_iff_yields] at hw ⊢
  rw [← start]
  exact hw.mono h

theorem Heights.exists_height?_least_le (h : g.rules ⊆ g'.rules) {x : Char} {n : Nat}
    (hx : (least g).height? x = some n) : ∃ m, (least g').height? x = some m ∧ m ≤ n := by
  obtain ⟨t, valid, rfl⟩ := attained_least g x n hx
  obtain ⟨t', valid', -, e⟩ := valid.exists_of_subset h
  rw [← e]
  exact exists_height?_le valid'

/-! ## Order and repetitions -/

theorem Grammar.producers_congr (h : ∀ r, r ∈ g.rules ↔ r ∈ g'.rules) :
    g.producers = g'.producers := by
  funext p
  ext x
  rw [mem_producers, mem_producers, h]

theorem Recognition.chartOf_congr (h : g.producers = g'.producers) (w : List Char) :
    chartOf g w = chartOf g' w := by
  have step_eq : step g w = step g' w := by
    unfold step cellOf pairCell
    rw [h]
  unfold chartOf
  rw [step_eq]

theorem Recognition.ofInput_congr (start : g.start = g'.start)
    (h : ∀ r, r ∈ g.rules ↔ r ∈ g'.rules) (w : List Char) : ofInput g w = ofInput g' w := by
  unfold ofInput
  rw [chartOf_congr (Grammar.producers_congr h), start]

/-- Each tree of the one grammar has a tree of the same height in the other. -/
theorem Heights.height?_least_eq_of_mem_iff (h : ∀ r, r ∈ g.rules ↔ r ∈ g'.rules) (x : Char) :
    (least g).height? x = (least g').height? x := by
  apply height?_least_congr
  intro m
  constructor
  · rintro ⟨t, valid, rfl⟩
    obtain ⟨t', valid', -, e⟩ := valid.exists_of_subset fun r hr => (h r).1 hr
    exact ⟨t', valid', e⟩
  · rintro ⟨t, valid, rfl⟩
    obtain ⟨t', valid', -, e⟩ := valid.exists_of_subset fun r hr => (h r).2 hr
    exact ⟨t', valid', e⟩

namespace Grammar

/-- **Monotonicity.** With more rules, cells grow, accepted inputs stay accepted, and recorded
heights stay recorded and do not rise. Order and repetition of the rules change nothing: charts,
verdicts and heights are the same. -/
theorem results_mono (start : g.start = g'.start) :
    (g.rules ⊆ g'.rules →
      (∀ w, w ≠ [] → ∃ r r', Recognition.ofInput g w = .ok r ∧ Recognition.ofInput g' w = .ok r' ∧
        (∀ i j, i ≤ j → j < w.length → ∃ cell cell', r.chart.cell? ⟨i, j⟩ = some cell ∧
          r'.chart.cell? ⟨i, j⟩ = some cell' ∧ ∀ x, x ∈ cell → x ∈ cell') ∧
        (r.accepted = true → r'.accepted = true)) ∧
      ∀ x n, (Heights.least g).height? x = some n →
        ∃ m, (Heights.least g').height? x = some m ∧ m ≤ n) ∧
    ((∀ r, r ∈ g.rules ↔ r ∈ g'.rules) →
      (∀ w, Recognition.ofInput g w = Recognition.ofInput g' w) ∧
      ∀ x, (Heights.least g).height? x = (Heights.least g').height? x) := by
  constructor
  · intro h
    refine ⟨?_, fun x n => Heights.exists_height?_least_le h⟩
    intro w hw
    have hr := Recognition.ofInput_of_ne_nil (g := g) hw
    have hr' := Recognition.ofInput_of_ne_nil (g := g') hw
    refine ⟨_, _, hr, hr', ?_, ?_⟩
    · intro i j hij hj
      exact ⟨_, _, Recognition.cell?_chartOf_eq_cell ⟨hij, hj⟩,
        Recognition.cell?_chartOf_eq_cell ⟨hij, hj⟩,
        fun x hx => Recognition.mem_cell_mono h hij hj hx⟩
    · rw [← accepts_iff_of_ofInput hr, ← accepts_iff_of_ofInput hr']
      exact Accepts.mono start h
  · intro h
    exact ⟨Recognition.ofInput_congr start h, Heights.height?_least_eq_of_mem_iff h⟩

/-- The rules for the shortest word of `balanced`. -/
def shortest : Grammar :=
  .ofRules [⟨'S', .pair 'A' 'B'⟩, ⟨'A', .terminal 'a'⟩, ⟨'B', .terminal 'b'⟩]

/-- The rules of `balanced` backwards and once more in order. -/
def doubled : Grammar := .ofRules (balanced.rules.reverse ++ balanced.rules)

theorem balanced_extends_shortest_equals_doubled :
    (shortest.start = balanced.start ∧ shortest.rules ⊆ balanced.rules ∧
      ∃ r, Recognition.ofInput balanced ['a', 'b'] = .ok r ∧ r.accepted = true) ∧
    (balanced.start = doubled.start ∧ (∀ r, r ∈ balanced.rules ↔ r ∈ doubled.rules) ∧
      Recognition.ofInput balanced ['a', 'b', 'b'] =
        Recognition.ofInput doubled ['a', 'b', 'b']) := by
  have fewer : shortest.rules ⊆ balanced.rules := by decide
  have same : ∀ r, r ∈ balanced.rules ↔ r ∈ doubled.rules := by
    intro r
    simp [doubled]
  have start : shortest.start = balanced.start := rfl
  have start' : balanced.start = doubled.start := rfl
  obtain ⟨mono, -⟩ := results_mono start
  obtain ⟨-, congr⟩ := results_mono start'
  obtain ⟨q, r, hq, hr, -, verdict⟩ := (mono fewer).1 ['a', 'b'] (by decide)
  have accepted : (Recognition.ofInput shortest ['a', 'b']).map (·.accepted) = .ok true := by
    decide +kernel
  rw [hq] at accepted
  exact ⟨⟨start, fewer, r, hr, verdict (Except.ok.inj accepted)⟩, start', same,
    (congr same).1 ['a', 'b', 'b']⟩

end Grammar

end NormalGrammar

import Mathlib.Logic.Relation
import Mathlib.Tactic.TFAE
import NormalGrammar.Proofs.Recognition.Language
import NormalGrammar.Proofs.Sampling.Picking

/-!
# The sampled language

Whatever the source, a sampled word is accepted. Conversely an accepted word has a tree that is
at most as high as the word is long, and some words of the source make the choices of that tree.
So recogniser and sampler agree on the language (`accepts_iff_sampled`).

A run fails before its first choice, because the start symbol has no tree, or not at all.

1. A call of `expand` fails only if some call below it has no candidates
   (`exists_reached_of_error`).
2. The budget of a call is never below the least height of its symbol (`Funded`): the start
   symbol gets at least its least height, and a candidate leaves enough for both of its parts.
3. A symbol with a tree has one that is at most as high as there are left sides, and so a yield
   of at most `2 ^ (N - 1)` characters (`exists_short_yield`).
-/

namespace NormalGrammar.Grammar

/-! ## Words -/

section Words

variable {g : Grammar} {w : List Char} {maxDepth : Nat}

theorem length_alternatives_le (g : Grammar) (x : Char) :
    (g.alternatives x).length ≤ g.rules.length := by
  rw [alternatives, List.length_map]
  exact List.length_filter_le _ _

theorem yields_of_generate {σ : Type} {choose : Chooser σ} {s : σ}
    (h : (generate choose g maxDepth s).1 = .ok w) : g.Yields g.start w := by
  cases hn : (Heights.least g).height? g.start with
  | none =>
    rw [generate_of_height?_eq_none hn] at h
    cases h
  | some n =>
    obtain ⟨t, ht, rfl⟩ := (generate_eq_ok_iff hn).1 (Prod.ext h rfl)
    exact ⟨t, (grow_eq_ok_iff.1 ht).1, rfl⟩

/-- Trees within the depth are grown from some words of the source. -/
theorem exists_sample_eq_yield (hg : ∀ x, (g.alternatives x).length < 2 ^ 32) {t : Tree}
    (valid : t.ValidFor g g.start) (hb : t.height ≤ maxDepth) :
    ∃ ws : List UInt32, (g.sample maxDepth (.ofList ws)).1 = .ok t.yield := by
  obtain ⟨n, hn, -⟩ := Heights.exists_height?_le valid
  have hb' : t.height ≤ max maxDepth n := hb.trans (Nat.le_max_left _ _)
  have hcs : ∀ c ∈ t.choices g (Heights.least g) (max maxDepth n) g.start,
      c.2 < c.1 ∧ c.1 < UInt32.size := by
    intro c hc
    obtain ⟨hi, y, hy⟩ := choices_lt valid hb' c hc
    exact ⟨hi, hy.trans_lt (hg y)⟩
  obtain ⟨ws, hws⟩ := Source.exists_makes hcs
  obtain ⟨s', made⟩ := hws (.ofList ws) (Source.begins_ofList ws)
  refine ⟨ws, ?_⟩
  rw [sample, (generate_eq_ok_iff hn).2 ⟨t, grow_eq_ok_iff.2 ⟨valid, hb', made⟩, rfl⟩]

/-- **Agreement.** A word within the depth is accepted if and only if it is sampled from some
list of random words, and every word that is written from any source at all is accepted. -/
theorem accepts_iff_sampled (hg : ∀ x, (g.alternatives x).length < 2 ^ 32) :
    (∀ w maxDepth, w.length ≤ maxDepth →
      (g.Accepts w ↔ ∃ ws : List UInt32, (g.sample maxDepth (.ofList ws)).1 = .ok w)) ∧
    ∀ (σ : Type) (choose : Chooser σ) maxDepth (s : σ) w,
      (generate choose g maxDepth s).1 = .ok w → g.Accepts w := by
  have sound : ∀ (σ : Type) (choose : Chooser σ) maxDepth (s : σ) w,
      (generate choose g maxDepth s).1 = .ok w → g.Accepts w := by
    intro σ choose maxDepth s w h
    exact accepts_iff_yields.2 (yields_of_generate h)
  refine ⟨?_, sound⟩
  intro w maxDepth hw
  constructor
  · intro h
    obtain ⟨t, valid, rfl⟩ := accepts_iff_yields.1 h
    exact exists_sample_eq_yield hg valid (t.height_le_length_yield.trans hw)
  · rintro ⟨ws, h⟩
    exact sound Source Source.choose maxDepth (.ofList ws) w h

theorem balanced_samples_aabb :
    (∀ x, (balanced.alternatives x).length < 2 ^ 32) ∧ ['a', 'a', 'b', 'b'].length ≤ 4 ∧
      ∃ ws : List UInt32, (balanced.sample 4 (.ofList ws)).1 = .ok ['a', 'a', 'b', 'b'] := by
  have few : ∀ x, (balanced.alternatives x).length < 2 ^ 32 := by
    intro x
    exact (length_alternatives_le balanced x).trans_lt (by decide)
  have accepted : balanced.Accepts ['a', 'a', 'b', 'b'] :=
    ⟨_, Recognition.ofInput_of_ne_nil (by decide), by decide +kernel⟩
  exact ⟨few, by decide, ((accepts_iff_sampled few).1 _ 4 (by decide)).1 accepted⟩

end Words

/-! ## Calls -/

/-- The arguments of a call of `expand`. -/
structure Call (σ : Type) where
  budget : Nat
  symbol : Char
  word : Array Char
  state : σ

variable {σ : Type} {choose : Chooser σ} {g : Grammar} {h : Heights}

/-- The calls that a call makes: one for the first nonterminal of the picked rule, and, once that
one has returned a word, one for the second. -/
inductive Calls (choose : Chooser σ) (g : Grammar) (h : Heights) : Call σ → Call σ → Prop where
  | first {budget k : Nat} {x b c : Char} {word : Array Char} {s s₁ : σ}
      (picked : pick choose g h x (budget + 1) s = (some (k, .pair b c), s₁)) :
      Calls choose g h ⟨budget + 1, x, word, s⟩ ⟨budget, b, word, s₁⟩
  | second {budget k : Nat} {x b c : Char} {word word₁ : Array Char} {s s₁ s₂ : σ}
      (picked : pick choose g h x (budget + 1) s = (some (k, .pair b c), s₁))
      (written : expand choose g h budget b word s₁ = (.ok word₁, s₂)) :
      Calls choose g h ⟨budget + 1, x, word, s⟩ ⟨budget, c, word₁, s₂⟩

/-- The calls of a run of `generate`. -/
def Reached (choose : Chooser σ) (g : Grammar) (maxDepth : Nat) (s : σ) (c : Call σ) : Prop :=
  ∃ n, (Heights.least g).height? g.start = some n ∧
    Relation.ReflTransGen (Calls choose g (Heights.least g)) ⟨max maxDepth n, g.start, #[], s⟩ c

theorem pick_eq_none_iff {x : Char} {budget : Nat} {s : σ} :
    (pick choose g h x budget s).1 = none ↔ g.candidates h x budget = [] := by
  unfold pick
  by_cases hn : 0 < (g.candidates h x budget).length
  · simp [hn, List.ne_nil_of_length_pos hn]
  · have none_fits := List.eq_nil_of_length_eq_zero (Nat.eq_zero_of_not_pos hn)
    simp [none_fits]

/-- An error comes from a call without candidates. -/
theorem exists_reached_of_error {x : Char} {budget : Nat} {word : Array Char} {s s' : σ}
    {e : SampleFault} (failed : expand choose g h budget x word s = (.error e, s')) :
    ∃ c, Relation.ReflTransGen (Calls choose g h) ⟨budget, x, word, s⟩ c ∧
      g.candidates h c.symbol c.budget = [] := by
  induction budget generalizing x word s s' e with
  | zero => exact ⟨_, .refl, candidates_zero g h x⟩
  | succ budget ih =>
    rw [expand] at failed
    rcases hp : pick choose g h x (budget + 1) s with ⟨_ | ⟨k, c | ⟨b, c⟩⟩, s₁⟩
    · exact ⟨_, .refl, pick_eq_none_iff.1 (by rw [hp])⟩
    · rw [hp] at failed
      cases (Prod.mk.inj failed).1
    · rw [hp] at failed
      rcases hb : expand choose g h budget b word s₁ with ⟨e₁ | word₁, s₂⟩
      · obtain ⟨d, hd, none_fits⟩ := ih hb
        exact ⟨d, .head (.first hp) hd, none_fits⟩
      · simp only [hb] at failed
        obtain ⟨d, hd, none_fits⟩ := ih failed
        exact ⟨d, .head (.second hp hb) hd, none_fits⟩

/-! ## Budgets -/

/-- The budget of the call suffices for a lowest tree of its symbol. -/
def Funded (g : Grammar) (c : Call σ) : Prop :=
  ∃ n, (Heights.least g).height? c.symbol = some n ∧ n ≤ c.budget

theorem Funded.candidates_ne_nil {c : Call σ} (hc : Funded g c) :
    g.candidates (Heights.least g) c.symbol c.budget ≠ [] := by
  obtain ⟨n, hn, hle⟩ := hc
  obtain ⟨t, valid, rfl⟩ := Heights.attained_least g _ _ hn
  cases valid with
  | leaf rule => exact List.ne_nil_of_mem (leaf_mem_candidates rule _ hle)
  | node rule validl validr =>
    exact List.ne_nil_of_mem (node_mem_candidates rule validl validr hle)

theorem Funded.budget_pos {c : Call σ} (hc : Funded g c) : 0 < c.budget := by
  apply Nat.pos_of_ne_zero
  intro h0
  apply hc.candidates_ne_nil
  rw [h0]
  exact candidates_zero g _ _

/-- A picked pair leaves a budget for its higher part, and hence for both. -/
theorem funded_of_pick {k budget : Nat} {x b c : Char} {s s₁ : σ}
    (picked : pick choose g (Heights.least g) x (budget + 1) s = (some (k, .pair b c), s₁)) :
    (∃ n, (Heights.least g).height? b = some n ∧ n ≤ budget) ∧
      ∃ n, (Heights.least g).height? c = some n ∧ n ≤ budget := by
  have mem := (pick_eq_some_iff.1 picked).1
  obtain ⟨n, hn, hle⟩ := fits_iff.1 (mem_candidates.1 mem).2
  obtain ⟨m, m', hb, hc, rfl⟩ := Heights.ofProduction?_pair_eq_some_iff.1 hn
  exact ⟨⟨m, hb, by omega⟩, ⟨m', hc, by omega⟩⟩

theorem Calls.funded {c d : Call σ} (hcd : Calls choose g (Heights.least g) c d) : Funded g d := by
  cases hcd with
  | first picked => exact (funded_of_pick picked).1
  | second picked _ => exact (funded_of_pick picked).2

theorem Funded.of_calls {c d : Call σ} (hc : Funded g c)
    (hcd : Relation.ReflTransGen (Calls choose g (Heights.least g)) c d) : Funded g d := by
  cases hcd with
  | refl => exact hc
  | tail _ last => exact last.funded

theorem Reached.funded {maxDepth : Nat} {s : σ} {c : Call σ}
    (hc : Reached choose g maxDepth s c) : Funded g c := by
  obtain ⟨n, hn, calls⟩ := hc
  exact Funded.of_calls ⟨n, hn, Nat.le_max_right _ _⟩ calls

/-- A start symbol with a tree never fails. -/
theorem exists_generate_eq_ok {n : Nat} (hn : (Heights.least g).height? g.start = some n)
    (choose : Chooser σ) (maxDepth : Nat) (s : σ) :
    ∃ w s', generate choose g maxDepth s = (.ok w, s') := by
  rcases he : expand choose g (Heights.least g) (max maxDepth n) g.start #[] s with ⟨e | word, s'⟩
  · obtain ⟨c, calls, none_fits⟩ := exists_reached_of_error he
    exact absurd none_fits (Reached.funded ⟨n, hn, calls⟩).candidates_ne_nil
  · exact ⟨word.toList, s', by simp [generate, hn, he, Except.map]⟩

/-! ## Productive start symbols -/

/-- The start symbol derives some word. -/
def Productive (g : Grammar) : Prop :=
  ∃ w, g.Derives [.nonterminal g.start] (Symbol.ofWord w)

theorem not_productive_iff :
    ¬ g.Productive ↔ (Heights.least g).height? g.start = none := by
  rw [Heights.height?_least_eq_none_iff]
  simp only [Productive, ← yields_iff_derives]
  constructor
  · intro h t valid
    exact h ⟨t.yield, t, valid, rfl⟩
  · rintro h ⟨w, t, valid, -⟩
    exact h t valid

/-- The leaves of a tree need terminal rules. -/
theorem not_productive_of_no_terminal (h : ∀ x c, ⟨x, .terminal c⟩ ∉ g.rules) :
    ¬ g.Productive := by
  rw [not_productive_iff, Heights.height?_least_eq_none_iff]
  generalize g.start = x
  intro t valid
  induction valid with
  | leaf rule => exact h _ _ (List.mem_of_getElem? rule)
  | node _ _ _ left _ => exact left

theorem Productive.exists_height? (h : g.Productive) :
    ∃ n, (Heights.least g).height? g.start = some n :=
  Option.ne_none_iff_exists'.1 (mt not_productive_iff.2 (not_not.2 h))

/-- A draw for a productive start symbol gives a word of it. -/
theorem Productive.exists_generate (h : g.Productive) (choose : Chooser σ) (maxDepth : Nat)
    (s : σ) : ∃ w s', generate choose g maxDepth s = (.ok w, s') ∧
      g.Derives [.nonterminal g.start] (Symbol.ofWord w) := by
  obtain ⟨n, hn⟩ := h.exists_height?
  obtain ⟨w, s', drawn⟩ := exists_generate_eq_ok hn choose maxDepth s
  refine ⟨w, s', drawn, ?_⟩
  rw [← yields_iff_derives]
  exact yields_of_generate (by rw [drawn])

/-! ## Empty languages -/

/-- The recogniser answers for the input, and rejects it. -/
def Rejects (g : Grammar) (w : List Char) : Prop :=
  ∃ r, Recognition.ofInput g w = .ok r ∧ r.accepted = false

theorem rejects_iff {w : List Char} (hw : w ≠ []) : g.Rejects w ↔ ¬ g.Accepts w := by
  unfold Rejects Accepts
  rw [Recognition.ofInput_of_ne_nil hw]
  simp

/-- The recogniser rejects whatever is not empty. -/
def RejectsAll (g : Grammar) : Prop := ∀ w, w ≠ [] → g.Rejects w

/-- A symbol with a height has a tree that is no higher than there are left sides. -/
theorem exists_short_yield {n : Nat} (hn : (Heights.least g).height? g.start = some n) :
    ∃ w, g.Accepts w ∧ w.length ≤ 2 ^ (g.leftSides.card - 1) := by
  obtain ⟨t, valid, rfl⟩ := Heights.attained_least g _ _ hn
  refine ⟨t.yield, accepts_iff_yields.2 ⟨t, valid, rfl⟩, ?_⟩
  calc t.yield.length ≤ 2 ^ (t.height - 1) := t.length_yield_le
    _ ≤ 2 ^ (g.leftSides.card - 1) :=
      Nat.pow_le_pow_right Nat.two_pos (Nat.sub_le_sub_right (Heights.height?_least_le hn) 1)

/-- Without a height there is no tree, and so no word. -/
theorem rejectsAll_of_height?_eq_none (hn : (Heights.least g).height? g.start = none) :
    g.RejectsAll := by
  intro w hw
  rw [rejects_iff hw, accepts_iff_yields]
  rintro ⟨t, valid, -⟩
  exact Heights.height?_least_eq_none_iff.1 hn t valid

theorem rejectsAll_of_rules_eq_nil (no_rules : g.rules = []) : g.RejectsAll := by
  apply rejectsAll_of_height?_eq_none
  rw [Heights.height?_least_eq_none_iff]
  intro t valid
  cases valid with
  | leaf rule => simp [no_rules] at rule
  | node rule _ _ => simp [no_rules] at rule

/-- A lowest tree would have a short yield. -/
theorem height?_eq_none_of_rejects_short
    (short : ∀ w, w ≠ [] → w.length ≤ 2 ^ (g.leftSides.card - 1) → g.Rejects w) :
    (Heights.least g).height? g.start = none := by
  rcases hn : (Heights.least g).height? g.start with _ | n
  · rfl
  · obtain ⟨w, accepted, hle⟩ := exists_short_yield hn
    have hw := accepted.ne_nil
    exact absurd accepted ((rejects_iff hw).1 (short w hw hle))

theorem height?_eq_none_of_generate {maxDepth : Nat} {s : σ} {e : SampleFault}
    (failed : (generate choose g maxDepth s).1 = .error e) :
    (Heights.least g).height? g.start = none := by
  rcases hn : (Heights.least g).height? g.start with _ | n
  · rfl
  · obtain ⟨w, s', done⟩ := exists_generate_eq_ok hn choose maxDepth s
    rw [done] at failed
    cases failed

/-- **Failure.** Sampling fails for some depth and source if and only if it fails for all of them,
naming the start symbol and leaving the source as it was, if and only if all non-empty inputs are
rejected, for which the short ones suffice. This is so without any rules. Otherwise it always
returns a word, and all calls on the way have a budget and candidates to pick from. -/
theorem fails_iff_rejectsAll (g : Grammar) :
    List.TFAE [
      ∃ (σ : Type) (choose : Chooser σ) (maxDepth : Nat) (s : σ) (e : SampleFault),
        (generate choose g maxDepth s).1 = .error e,
      ∀ (σ : Type) (choose : Chooser σ) (maxDepth : Nat) (s : σ),
        generate choose g maxDepth s = (.error (.unproductive g.start), s),
      g.RejectsAll,
      ∀ w, w ≠ [] → w.length ≤ 2 ^ (g.leftSides.card - 1) → g.Rejects w] ∧
    (g.rules = [] → g.RejectsAll) ∧
    (¬ g.RejectsAll → ∀ (σ : Type) (choose : Chooser σ) (maxDepth : Nat) (s : σ),
      (∃ w s', generate choose g maxDepth s = (.ok w, s')) ∧
      ∀ c, Reached choose g maxDepth s c → 0 < c.budget ∧
        g.candidates (Heights.least g) c.symbol c.budget ≠ [] ∧
        (pick choose g (Heights.least g) c.symbol c.budget c.state).1 ≠ none) := by
  refine ⟨?_, rejectsAll_of_rules_eq_nil, ?_⟩
  · tfae_have 1 → 3 := by
      rintro ⟨σ, choose, maxDepth, s, e, failed⟩
      exact rejectsAll_of_height?_eq_none (height?_eq_none_of_generate failed)
    tfae_have 3 → 4 := by
      intro all w hw _
      exact all w hw
    tfae_have 4 → 2 := by
      intro short σ choose maxDepth s
      have hn := height?_eq_none_of_rejects_short short
      exact generate_of_height?_eq_none hn choose maxDepth s
    tfae_have 2 → 1 := by
      intro all
      refine ⟨Source, Source.choose, 0, .ofList [], .unproductive g.start, ?_⟩
      rw [all]
    tfae_finish
  · intro productive σ choose maxDepth s
    constructor
    · rcases hn : (Heights.least g).height? g.start with _ | n
      · exact absurd (rejectsAll_of_height?_eq_none hn) productive
      · exact exists_generate_eq_ok hn choose maxDepth s
    · intro c hc
      have candidates := hc.funded.candidates_ne_nil
      exact ⟨hc.funded.budget_pos, candidates, mt pick_eq_none_iff.1 candidates⟩

end NormalGrammar.Grammar

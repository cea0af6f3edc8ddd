import Mathlib.Logic.Equiv.Basic
import NormalGrammar.Proofs.Loading.RoundTrip
import NormalGrammar.Proofs.Sampling.Language

/-!
# Other letters, the same results

A renaming writes other letters for the symbols and keeps them apart.

1. The trees of a renamed grammar are exactly the renamed trees of the grammar
   (`Tree.ValidFor.rename` and `Tree.ValidFor.exists_of_rename`). Their heights are the same and
   their yields are renamed, so that least heights stay and cells hold the new names of what they
   held before.
2. A renamed nonterminal has as many candidates as before, in the same order
   (`candidates_rename`). So one pick takes the candidate at the same place and leaves the source
   in the same state (`pick_rename`), and by induction on the budget a whole run writes the
   renamed word (`expand_rename`, `generate_rename`).
3. Written rules stay valid in new letters, for a renaming keeps the case of each letter and joins
   every nonterminal to its rules (`Grammar.ofRaw_rename`). What is recognised and what is sampled
   by the renamed grammar is then the renamed result (`results_rename`).
-/

namespace NormalGrammar

/-! ## Renamings -/

section Trees

/-- New names for all characters, different ones for different characters, in the old case. -/
structure Renaming where
  toFun : Char → Char
  injective : Function.Injective toFun
  lowercase : ∀ c, Unicode.isLowercase c = true → Unicode.isLowercase (toFun c) = true
  uppercase : ∀ c, Unicode.isUppercase c = true → Unicode.isUppercase (toFun c) = true

instance : CoeFun Renaming fun _ => Char → Char := ⟨Renaming.toFun⟩

/-- Two letters of the same case change places. -/
def Renaming.swap (b c : Char) (lower : Unicode.isLowercase b = Unicode.isLowercase c)
    (upper : Unicode.isUppercase b = Unicode.isUppercase c) : Renaming where
  toFun := Equiv.swap b c
  injective := (Equiv.swap b c).injective
  lowercase d h := by
    rw [Equiv.swap_apply_def]
    split_ifs <;> simp_all
  uppercase d h := by
    rw [Equiv.swap_apply_def]
    split_ifs <;> simp_all

/-- The right side in new letters. -/
def Production.rename (f : Renaming) : Production → Production
  | .terminal c => .terminal (f c)
  | .pair b c => .pair (f b) (f c)

/-- The rule in new letters. -/
def Rule.rename (f : Renaming) (r : Rule) : Rule := ⟨f r.left, r.right.rename f⟩

/-- The grammar in new letters. -/
def Grammar.rename (f : Renaming) (g : Grammar) : Grammar where
  start := f g.start
  rules := g.rules.map (Rule.rename f)

/-- The tree in new letters, by the same rules. -/
def Tree.rename (f : Renaming) : Tree → Tree
  | .leaf k c => .leaf k (f c)
  | .node k l r => .node k (l.rename f) (r.rename f)

variable {f : Renaming} {g : Grammar} {x : Char} {t : Tree} {w : List Char}

theorem Grammar.getElem?_rules_rename (f : Renaming) (g : Grammar) (k : Nat) :
    (g.rename f).rules[k]? = g.rules[k]?.map (Rule.rename f) := List.getElem?_map

/-! ## Trees -/

namespace Tree

theorem yield_rename (f : Renaming) (t : Tree) : (t.rename f).yield = t.yield.map f := by
  induction t with
  | leaf k c => rfl
  | node k l r hl hr => rw [rename, yield_node, yield_node, hl, hr, List.map_append]

theorem height_rename (f : Renaming) (t : Tree) : (t.rename f).height = t.height := by
  induction t with
  | leaf k c => rfl
  | node k l r hl hr => rw [rename, height, height, hl, hr]

theorem ValidFor.rename (f : Renaming) (valid : t.ValidFor g x) :
    (t.rename f).ValidFor (g.rename f) (f x) := by
  induction valid with
  | leaf rule =>
    refine .leaf ?_
    rw [Grammar.getElem?_rules_rename, rule]
    rfl
  | node rule _ _ ihl ihr =>
    refine .node ?_ ihl ihr
    rw [Grammar.getElem?_rules_rename, rule]
    rfl

/-- Nothing but renamed trees is valid for a renamed grammar. -/
theorem ValidFor.exists_of_rename {y : Char} (valid : t.ValidFor (g.rename f) y) :
    ∃ (x : Char) (u : Tree), f x = y ∧ u.rename f = t ∧ u.ValidFor g x := by
  induction valid with
  | @leaf y c k rule =>
    rw [Grammar.getElem?_rules_rename, Option.map_eq_some_iff] at rule
    obtain ⟨⟨x, d | ⟨b, d⟩⟩, rule, he⟩ := rule
    · obtain ⟨rfl, hp⟩ := Rule.mk.inj he
      obtain rfl := Production.terminal.inj hp
      exact ⟨x, .leaf k d, rfl, rfl, .leaf rule⟩
    · cases (Rule.mk.inj he).2
  | @node y b c k l r rule _ _ ihl ihr =>
    obtain ⟨b', l, rfl, rfl, left⟩ := ihl
    obtain ⟨c', r, rfl, rfl, right⟩ := ihr
    rw [Grammar.getElem?_rules_rename, Option.map_eq_some_iff] at rule
    obtain ⟨⟨x, d | ⟨b, c⟩⟩, rule, he⟩ := rule
    · cases (Rule.mk.inj he).2
    · obtain ⟨rfl, hp⟩ := Rule.mk.inj he
      obtain ⟨hb, hc⟩ := Production.pair.inj hp
      -- the parts stand below the symbols that the rule names
      obtain rfl := f.injective hb
      obtain rfl := f.injective hc
      exact ⟨x, .node k l r, rfl, rfl, .node rule left right⟩

end Tree

/-! ## Words and heights -/

theorem Grammar.yields_rename_iff {y : Char} :
    (g.rename f).Yields y (w.map f) ↔ ∃ x, g.Yields x w ∧ f x = y := by
  constructor
  · rintro ⟨t, valid, ht⟩
    obtain ⟨x, u, rfl, rfl, hu⟩ := valid.exists_of_rename
    rw [Tree.yield_rename] at ht
    exact ⟨x, ⟨u, hu, List.map_injective_iff.2 f.injective ht⟩, rfl⟩
  · rintro ⟨x, ⟨t, valid, rfl⟩, rfl⟩
    exact ⟨t.rename f, valid.rename f, t.yield_rename f⟩

theorem Grammar.accepts_rename_iff : (g.rename f).Accepts (w.map f) ↔ g.Accepts w := by
  rw [accepts_iff_yields, accepts_iff_yields, yields_rename_iff]
  constructor
  · rintro ⟨x, h, hx⟩
    rwa [f.injective hx] at h
  · intro h
    exact ⟨g.start, h, rfl⟩

theorem Heights.height?_least_rename (f : Renaming) (g : Grammar) (x : Char) :
    (least (g.rename f)).height? (f x) = (least g).height? x := by
  apply height?_least_congr
  intro m
  constructor
  · rintro ⟨t, valid, rfl⟩
    obtain ⟨y, u, hy, rfl, hu⟩ := valid.exists_of_rename
    obtain rfl := f.injective hy
    exact ⟨u, hu, (u.height_rename f).symm⟩
  · rintro ⟨t, valid, rfl⟩
    exact ⟨t.rename f, valid.rename f, t.height_rename f⟩

/-! ## Cells -/

theorem Span.text_map (f : Char → Char) (s : Span) (w : List Char) :
    s.text (w.map f) = (s.text w).map f := by
  unfold text
  rw [← List.map_drop, ← List.map_take]

/-- A cell holds the new names of the nonterminals that it held before. -/
theorem Recognition.mem_cell_rename_iff {i j : Nat} (hij : i ≤ j) (hj : j < w.length) {y : Char} :
    y ∈ cell (g.rename f) (w.map f) ⟨i, j⟩ ↔ ∃ x, x ∈ cell g w ⟨i, j⟩ ∧ f x = y := by
  rw [mem_cell_iff_yields hij (by rwa [List.length_map]), Span.text_map,
    Grammar.yields_rename_iff]
  simp only [mem_cell_iff_yields hij hj]

end Trees

section Sampling

/-- The fault names the nonterminal by its new name. -/
def SampleFault.rename (f : Renaming) : SampleFault → SampleFault
  | .unproductive x => .unproductive (f x)

variable (f : Renaming) (g : Grammar)

/-! ## Candidates -/

theorem Heights.ofProduction?_rename (p : Production) :
    (least (g.rename f)).ofProduction? (p.rename f) = (least g).ofProduction? p := by
  cases p with
  | terminal c => rfl
  | pair b c =>
    unfold Production.rename ofProduction?
    simp only [height?_least_rename]

namespace Grammar

theorem fits_rename (budget : Nat) (p : Production) :
    fits (Heights.least (g.rename f)) budget (p.rename f) = fits (Heights.least g) budget p := by
  unfold fits
  rw [Heights.ofProduction?_rename]

theorem occurrences_rename (x : Char) :
    (g.rename f).occurrences (f x) = (g.occurrences x).map (Prod.map id (Production.rename f)) := by
  show ((g.rules.map (Rule.rename f)).zipIdx.filterMap _) = _
  unfold occurrences
  rw [List.zipIdx_map, List.filterMap_map, List.map_filterMap]
  congr 1
  funext ⟨⟨l, p⟩, k⟩
  by_cases hl : l = x
  · simp [Rule.rename, hl]
  · simp [Rule.rename, f.injective.eq_iff, hl]

theorem candidates_rename (x : Char) (budget : Nat) :
    (g.rename f).candidates (Heights.least (g.rename f)) (f x) budget =
      (g.candidates (Heights.least g) x budget).map (Prod.map id (Production.rename f)) := by
  unfold candidates
  rw [occurrences_rename, List.filter_map]
  congr 1
  apply List.filter_congr
  intro kp _
  exact fits_rename f g budget kp.2

/-! ## Runs -/

variable {σ : Type} (choose : Chooser σ)

/-- A choice depends on nothing but the number of candidates and the state. -/
theorem choose_congr {m n : Nat} (e : m = n) (hm : 0 < m) (hn : 0 < n) (s : σ) :
    ((choose m hm s).1 : Nat) = (choose n hn s).1 ∧ (choose m hm s).2 = (choose n hn s).2 := by
  subst e
  exact ⟨rfl, rfl⟩

/-- One pick takes the renamed candidate. -/
theorem pick_rename (x : Char) (budget : Nat) (s : σ) :
    pick choose (g.rename f) (Heights.least (g.rename f)) (f x) budget s =
      ((pick choose g (Heights.least g) x budget s).1.map (Prod.map id (Production.rename f)),
        (pick choose g (Heights.least g) x budget s).2) := by
  have len : ((g.rename f).candidates (Heights.least (g.rename f)) (f x) budget).length =
      (g.candidates (Heights.least g) x budget).length := by
    rw [candidates_rename, List.length_map]
  unfold pick
  by_cases hn : 0 < (g.candidates (Heights.least g) x budget).length
  · have hn' := hn
    rw [← len] at hn'
    obtain ⟨index, state⟩ := choose_congr choose len hn' hn s
    rw [dif_pos hn', dif_pos hn]
    simp only [Option.map_some, Fin.getElem_fin, index, state, candidates_rename,
      List.getElem_map]
  · have hn' := hn
    rw [← len] at hn'
    rw [dif_neg hn', dif_neg hn, Option.map_none]

/-- A run writes the renamed word, or fails at the renamed nonterminal, and it ends in the same
state. -/
theorem expand_rename (budget : Nat) (x : Char) (word : Array Char) (s : σ) :
    expand choose (g.rename f) (Heights.least (g.rename f)) budget (f x) (word.map f) s =
      (((expand choose g (Heights.least g) budget x word s).1.map (Array.map f)).mapError
          (SampleFault.rename f),
        (expand choose g (Heights.least g) budget x word s).2) := by
  induction budget generalizing x word s with
  | zero => rfl
  | succ budget ih =>
    rw [expand, expand, pick_rename]
    rcases pick choose g (Heights.least g) x (budget + 1) s with ⟨_ | ⟨k, c | ⟨b, c⟩⟩, s⟩
    · rfl
    · simp [Production.rename, Except.map, Except.mapError]
    · simp only [Option.map_some, Prod.map, Production.rename, ih]
      rcases expand choose g (Heights.least g) budget b word s with ⟨e | word, s⟩
      · rfl
      · exact ih c word s

theorem generate_rename (maxDepth : Nat) (s : σ) :
    generate choose (g.rename f) maxDepth s =
      (((generate choose g maxDepth s).1.map (List.map f)).mapError (SampleFault.rename f),
        (generate choose g maxDepth s).2) := by
  have start : (Heights.least (g.rename f)).height? (g.rename f).start =
      (Heights.least g).height? g.start := Heights.height?_least_rename f g g.start
  unfold generate
  simp only [start]
  rcases (Heights.least g).height? g.start with _ | n
  · rfl
  · have run := expand_rename f g choose (max maxDepth n) g.start #[] s
    rw [Array.map_empty] at run
    simp only [show (g.rename f).start = f g.start from rfl, run]
    rcases expand choose g (Heights.least g) (max maxDepth n) g.start #[] s with ⟨e | word, s⟩
    · rfl
    · simp [Except.map, Except.mapError]

/-- Both runs succeed with the one word in old and in new letters, or both fail and name the start
symbol. The state at the end is the same, too. -/
theorem generate_rename_cases (maxDepth : Nat) (s : σ) :
    (∃ w s', generate choose g maxDepth s = (.ok w, s') ∧
        generate choose (g.rename f) maxDepth s = (.ok (w.map f), s')) ∨
      generate choose g maxDepth s = (.error (.unproductive g.start), s) ∧
        generate choose (g.rename f) maxDepth s = (.error (.unproductive (f g.start)), s) := by
  rw [generate_rename]
  rcases hn : (Heights.least g).height? g.start with _ | n
  · rw [generate_of_height?_eq_none hn]
    exact Or.inr ⟨rfl, rfl⟩
  · obtain ⟨w, s', done⟩ := exists_generate_eq_ok hn choose maxDepth s
    rw [done]
    exact Or.inl ⟨w, s', rfl, rfl⟩

end Grammar

end Sampling

/-! ## Validation -/

/-- The written rule in new letters, in the same place. -/
def RawRule.rename (f : Renaming) (r : RawRule) : RawRule :=
  { r with left := r.left.map f, right := r.right.map f }

variable (f : Renaming) {g : Grammar}

theorem Production.text_rename (p : Production) : (p.rename f).text = p.text.map f := by
  cases p <;> rfl

theorem Production.nonterminals_rename (p : Production) :
    (p.rename f).nonterminals = p.nonterminals.map f := by
  cases p <;> rfl

theorem Production.Cased.rename {p : Production} (h : p.Cased) : (p.rename f).Cased := by
  cases p with
  | terminal c => exact f.lowercase c h
  | pair b c => exact ⟨f.uppercase b h.1, f.uppercase c h.2⟩

theorem Rule.ofRaw_rename {raw : RawRule} {r : Rule} (h : Rule.ofRaw raw = .ok r) :
    Rule.ofRaw (raw.rename f) = .ok (r.rename f) := by
  rw [ofRaw_eq_ok_iff] at h ⊢
  obtain ⟨left, right, cased⟩ := h
  refine ⟨?_, ?_, f.uppercase _ cased.left, cased.right.rename f⟩
  · show raw.left.map f = [f r.left]
    rw [left, List.map_singleton]
  · show raw.right.map f = (r.right.rename f).text
    rw [right, Production.text_rename]

/-- The rule of a nonterminal is renamed along with it. -/
theorem AllDefined.rename {rules : List Rule} (h : AllDefined rules) :
    AllDefined (rules.map (Rule.rename f)) := by
  intro r' hr' y hy
  obtain ⟨r, hr, rfl⟩ := List.mem_map.1 hr'
  rw [show (r.rename f).right = r.right.rename f from rfl, Production.nonterminals_rename] at hy
  obtain ⟨x, hx, rfl⟩ := List.mem_map.1 hy
  obtain ⟨q, hq, rfl⟩ := h r hr x hx
  exact ⟨q.rename f, List.mem_map_of_mem hq, rfl⟩

theorem Grammar.ofRaw_rename {raws : List RawRule} (h : Grammar.ofRaw raws = .ok g) :
    Grammar.ofRaw (raws.map (RawRule.rename f)) = .ok (.ofRules (g.rules.map (Rule.rename f))) := by
  rw [ofRaw_eq_ok_iff] at h ⊢
  obtain ⟨rules, all, -⟩ := h
  refine ⟨?_, all.rename f, rfl⟩
  rw [rules_ofRules, List.forall₂_map_left_iff, List.forall₂_map_right_iff]
  exact rules.imp fun _ _ => Rule.ofRaw_rename f

/-! ## Results -/

theorem Grammar.withStart_rename (g : Grammar) (x : Char) :
    (Grammar.ofRules (g.rules.map (Rule.rename f))).withStart (f x) = (g.withStart x).rename f :=
  Grammar.ext rfl rfl

/-- The chart and the verdict in new letters. -/
theorem Recognition.ofInput_rename (g : Grammar) {w : List Char} (hw : w ≠ []) :
    ∃ r r', ofInput g w = .ok r ∧ ofInput (g.rename f) (w.map f) = .ok r' ∧
      (∀ i j, i ≤ j → j < w.length → ∃ cell cell', r.chart.cell? ⟨i, j⟩ = some cell ∧
        r'.chart.cell? ⟨i, j⟩ = some cell' ∧ ∀ y, y ∈ cell' ↔ ∃ x, x ∈ cell ∧ f x = y) ∧
      r'.accepted = r.accepted := by
  have hw' : w.map f ≠ [] := by rwa [ne_eq, List.map_eq_nil_iff]
  have hr := ofInput_of_ne_nil (g := g) hw
  have hr' := ofInput_of_ne_nil (g := g.rename f) hw'
  refine ⟨_, _, hr, hr', ?_, ?_⟩
  · intro i j hij hj
    have hj' : j < (w.map f).length := by rwa [List.length_map]
    exact ⟨_, _, cell?_chartOf_eq_cell ⟨hij, hj⟩, cell?_chartOf_eq_cell ⟨hij, hj'⟩,
      fun y => mem_cell_rename_iff hij hj⟩
  · rw [Bool.eq_iff_iff, ← Grammar.accepts_iff_of_ofInput hr, ← Grammar.accepts_iff_of_ofInput hr']
    exact Grammar.accepts_rename_iff

namespace Grammar

/-- **Renaming.** Valid rules stay valid in new letters. With the new name of the start symbol, an
input in new letters gets the new names in each cell and the old verdict, and whatever the depth
and the source, a run samples the word in new letters or names the start symbol as the one without
words. It leaves the source in the same state, so it has taken as many random words. -/
theorem results_rename {raws : List RawRule}
    (valid : (Loading.validate raws).result = .ok g) :
    ∃ g', (Loading.validate (raws.map (RawRule.rename f))).result = .ok g' ∧ ∀ x : Char,
      (∀ w, w ≠ [] → ∃ r r', Recognition.ofInput (g.withStart x) w = .ok r ∧
        Recognition.ofInput (g'.withStart (f x)) (w.map f) = .ok r' ∧
        (∀ i j, i ≤ j → j < w.length → ∃ cell cell', r.chart.cell? ⟨i, j⟩ = some cell ∧
          r'.chart.cell? ⟨i, j⟩ = some cell' ∧ ∀ y, y ∈ cell' ↔ ∃ z, z ∈ cell ∧ f z = y) ∧
        r'.accepted = r.accepted) ∧
      ∀ (σ : Type) (choose : Chooser σ) (maxDepth : Nat) (s : σ),
        (∃ w s', generate choose (g.withStart x) maxDepth s = (.ok w, s') ∧
          generate choose (g'.withStart (f x)) maxDepth s = (.ok (w.map f), s')) ∨
        generate choose (g.withStart x) maxDepth s = (.error (.unproductive x), s) ∧
          generate choose (g'.withStart (f x)) maxDepth s = (.error (.unproductive (f x)), s) := by
  rw [Loading.result_validate] at valid
  refine ⟨_, by rw [Loading.result_validate, ofRaw_rename f valid], ?_⟩
  intro x
  rw [withStart_rename]
  exact ⟨fun w hw => Recognition.ofInput_rename f (g.withStart x) hw,
    fun σ choose maxDepth s => generate_rename_cases f (g.withStart x) choose maxDepth s⟩

theorem balanced_swapped_accepts_aabb :
    (Loading.validate (balanced.rules.map Rule.toRaw)).result = .ok balanced ∧
    ∃ g', (Loading.validate ((balanced.rules.map Rule.toRaw).map
        (RawRule.rename (.swap 'S' 'A' (by decide) (by decide))))).result = .ok g' ∧
      ∃ r, Recognition.ofInput (g'.withStart 'A') ['a', 'a', 'b', 'b'] = .ok r ∧
        r.accepted = true := by
  have valid : (Loading.validate (balanced.rules.map Rule.toRaw)).result = .ok balanced := by
    rfl
  obtain ⟨g', valid', same⟩ := results_rename (.swap 'S' 'A' (by decide) (by decide)) valid
  obtain ⟨q, r, hq, hr, -, verdict⟩ := (same 'S').1 ['a', 'a', 'b', 'b'] (by decide)
  have accepted : (Recognition.ofInput (balanced.withStart 'S') ['a', 'a', 'b', 'b']).map
      (·.accepted) = .ok true := by decide +kernel
  rw [hq] at accepted
  exact ⟨valid, g', valid', r, hr, verdict.trans (Except.ok.inj accepted)⟩

end Grammar

end NormalGrammar

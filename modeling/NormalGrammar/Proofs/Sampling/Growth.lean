import Mathlib.Data.List.Nodup
import NormalGrammar.Proofs.Heights.Least
import NormalGrammar.Sampling

/-!
# The trees that words are written from

`grow` makes the same choices as `expand`, but keeps the tree: what `expand` appends to the word
is the yield of that tree (`expand_eq_grow`). The choices that lead to a tree can be read off the
tree, node by node (`Tree.choices`). So `grow` answers with a tree if and only if the tree is
valid, fits into the budget, and its choices are the ones that the chooser makes
(`grow_eq_ok_iff`).
-/

namespace NormalGrammar

namespace Grammar

variable {g : Grammar} {h : Heights} {x : Char} {k budget : Nat} {p : Production}

/-! ## Candidates -/

theorem mem_occurrences : (k, p) ∈ g.occurrences x ↔ g.rules[k]? = some ⟨x, p⟩ := by
  simp only [occurrences, List.mem_filterMap, Option.ite_none_right_eq_some, Option.some.injEq,
    Prod.mk.injEq]
  constructor
  · rintro ⟨⟨r, i⟩, hr, rfl, rfl, rfl⟩
    exact List.mk_mem_zipIdx_iff_getElem?.1 hr
  · intro hk
    exact ⟨(⟨x, p⟩, k), List.mk_mem_zipIdx_iff_getElem?.2 hk, rfl, rfl, rfl⟩

theorem nodup_occurrences (g : Grammar) (x : Char) : (g.occurrences x).Nodup := by
  unfold occurrences
  apply List.Nodup.filterMap
  · rintro ⟨⟨l, q⟩, i⟩ ⟨⟨l', q'⟩, j⟩ ⟨n, s⟩ ha hb
    simp only [Option.mem_def, Option.ite_none_right_eq_some, Option.some.injEq,
      Prod.mk.injEq] at ha hb
    obtain ⟨rfl, rfl, rfl⟩ := ha
    obtain ⟨rfl, rfl, rfl⟩ := hb
    rfl
  · apply List.Nodup.of_map Prod.snd
    rw [List.zipIdx_map_snd]
    exact List.nodup_range'

theorem map_snd_occurrences (g : Grammar) (x : Char) :
    (g.occurrences x).map (·.2) = g.alternatives x := by
  have aux : ∀ (rs : List Rule) (i : Nat),
      ((rs.zipIdx i).filterMap fun a => if a.1.left = x then some (a.2, a.1.right) else none).map
        (·.2) = (rs.filter fun r => r.left == x).map (·.right) := by
    intro rs
    induction rs with
    | nil =>
      intro i
      rfl
    | cons r rs ih =>
      intro i
      by_cases hr : r.left = x
      · simp [List.zipIdx_cons, hr, ← ih (i + 1)]
      · simp [List.zipIdx_cons, hr, ← ih (i + 1)]
  exact aux g.rules 0

theorem fits_iff : fits h budget p = true ↔ ∃ n, h.ofProduction? p = some n ∧ n ≤ budget := by
  unfold fits
  cases h.ofProduction? p <;> simp

theorem fits_eq_any : fits h budget p = (h.ofProduction? p).any (· ≤ budget) := by
  rw [Bool.eq_iff_iff, fits_iff, Option.any_eq_true]
  simp only [decide_eq_true_eq]

theorem mem_candidates : (k, p) ∈ g.candidates h x budget ↔
    g.rules[k]? = some ⟨x, p⟩ ∧ fits h budget p = true := by
  unfold candidates
  rw [List.mem_filter, mem_occurrences]

theorem nodup_candidates (g : Grammar) (h : Heights) (x : Char) (budget : Nat) :
    (g.candidates h x budget).Nodup := (nodup_occurrences g x).filter _

/-- The candidates are the alternatives that fit, in rule order and with repetitions. -/
theorem map_snd_candidates (g : Grammar) (h : Heights) (x : Char) (budget : Nat) :
    (g.candidates h x budget).map (·.2) = (g.alternatives x).filter (fits h budget) := by
  unfold candidates
  rw [← map_snd_occurrences, List.filter_map]
  rfl

theorem length_candidates_le (g : Grammar) (h : Heights) (x : Char) (budget : Nat) :
    (g.candidates h x budget).length ≤ (g.alternatives x).length := by
  rw [← List.length_map (f := (·.2)), map_snd_candidates]
  exact List.length_filter_le _ _

theorem candidates_zero (g : Grammar) (h : Heights) (x : Char) : g.candidates h x 0 = [] := by
  apply List.eq_nil_iff_forall_not_mem.2
  rintro ⟨k, p⟩ hk
  obtain ⟨n, hn, hle⟩ := fits_iff.1 (mem_candidates.1 hk).2
  have := Heights.ofProduction?_pos hn
  omega

end Grammar

/-! ## Choices -/

/-- The chooser, starting in a state, picks the second number among as many candidates as the
first one says, again and again, and ends in a state. -/
def Makes {σ : Type} (choose : Chooser σ) : List (Nat × Nat) → σ → σ → Prop
  | [], s, s' => s = s'
  | (n, i) :: cs, s, s' => ∃ hn : 0 < n, (choose n hn s).1 = i ∧ Makes choose cs (choose n hn s).2 s'

theorem makes_append {σ : Type} {choose : Chooser σ} {as bs : List (Nat × Nat)} {s s' : σ} :
    Makes choose (as ++ bs) s s' ↔ ∃ m, Makes choose as s m ∧ Makes choose bs m s' := by
  induction as generalizing s with
  | nil => simp [Makes]
  | cons c as ih =>
    obtain ⟨n, i⟩ := c
    simp only [List.cons_append, Makes, ih]
    constructor
    · rintro ⟨hn, hi, m, ha, hb⟩
      exact ⟨m, ⟨hn, hi, ha⟩, hb⟩
    · rintro ⟨m, ⟨hn, hi, ha⟩, hb⟩
      exact ⟨hn, hi, m, ha, hb⟩

/-- The choice of one rule among the candidates. -/
def Grammar.choiceOf (g : Grammar) (h : Heights) (x : Char) (budget : Nat)
    (kp : Nat × Production) : Nat × Nat :=
  ((g.candidates h x budget).length, (g.candidates h x budget).idxOf kp)

/-- The choices that lead from a nonterminal and a budget to the tree, root first, left before
right. -/
def Tree.choices (g : Grammar) (h : Heights) : Tree → Nat → Char → List (Nat × Nat)
  | .leaf k c, budget, x => [g.choiceOf h x budget (k, .terminal c)]
  | .node k l r, budget, x =>
    match g.rules[k]? with
    | some ⟨_, .pair b c⟩ =>
      g.choiceOf h x budget (k, .pair b c) ::
        (l.choices g h (budget - 1) b ++ r.choices g h (budget - 1) c)
    | _ => []

theorem Tree.choices_node {g : Grammar} {k : Nat} {x b c : Char}
    (rule : g.rules[k]? = some ⟨x, .pair b c⟩) (h : Heights) (l r : Tree) (budget : Nat) (y : Char) :
    (node k l r).choices g h budget y = [g.choiceOf h y budget (k, .pair b c)] ++
      (l.choices g h (budget - 1) b ++ r.choices g h (budget - 1) c) := by
  rw [choices, rule]
  rfl

namespace Grammar

variable {σ : Type} {choose : Chooser σ} {g : Grammar} {h : Heights} {x : Char} {budget : Nat}
  {s s' : σ}

theorem pick_eq_some_iff {kp : Nat × Production} :
    pick choose g h x budget s = (some kp, s') ↔
      kp ∈ g.candidates h x budget ∧ Makes choose [g.choiceOf h x budget kp] s s' := by
  have nodup := nodup_candidates g h x budget
  unfold pick choiceOf
  by_cases hn : 0 < (g.candidates h x budget).length
  · simp only [dif_pos hn, Makes, Prod.mk.injEq, Option.some.injEq]
    constructor
    · rintro ⟨rfl, rfl⟩
      exact ⟨List.getElem_mem _, hn, (nodup.idxOf_getElem _ _).symm, rfl⟩
    · rintro ⟨hmem, _, hi, rfl⟩
      simp only [Fin.getElem_fin, hi, List.getElem_idxOf, and_self]
  · simp only [dif_neg hn, Prod.mk.injEq, reduceCtorEq, false_and, false_iff, not_and]
    intro hmem
    exact absurd (List.length_pos_of_mem hmem) hn

/-! ## Growing -/

/-- The tree of the word that `expand` appends. -/
def grow {σ : Type} (choose : Chooser σ) (g : Grammar) (h : Heights) :
    Nat → Char → σ → Except SampleFault Tree × σ
  | 0, x, s => (.error (.unproductive x), s)
  | budget + 1, x, s =>
    match pick choose g h x (budget + 1) s with
    | (none, s) => (.error (.unproductive x), s)
    | (some (k, .terminal c), s) => (.ok (.leaf k c), s)
    | (some (k, .pair b c), s) =>
      match grow choose g h budget b s with
      | (.error e, s) => (.error e, s)
      | (.ok l, s) =>
        match grow choose g h budget c s with
        | (.error e, s) => (.error e, s)
        | (.ok r, s) => (.ok (.node k l r), s)

/-- What is appended to the word is the yield of the tree, from left to right. -/
theorem expand_eq_grow (choose : Chooser σ) (g : Grammar) (h : Heights) (budget : Nat) (x : Char)
    (word : Array Char) (s : σ) :
    expand choose g h budget x word s =
      ((grow choose g h budget x s).1.map fun t => word ++ t.yield.toArray,
        (grow choose g h budget x s).2) := by
  induction budget generalizing x word s with
  | zero => rfl
  | succ budget ih =>
    rw [expand, grow]
    rcases pick choose g h x (budget + 1) s with ⟨_ | ⟨k, c | ⟨b, c⟩⟩, s⟩
    · rfl
    · simp [Except.map]
    · simp only [ih]
      rcases grow choose g h budget b s with ⟨e | l, s⟩
      · rfl
      · simp only [Except.map]
        rcases grow choose g h budget c s with ⟨e | r, s⟩
        · rfl
        · simp [Array.append_assoc]

theorem expand_of_grow {t : Tree} (e : grow choose g h budget x s = (.ok t, s')) (word : Array Char) :
    expand choose g h budget x word s = (.ok (word ++ t.yield.toArray), s') := by
  rw [expand_eq_grow, e]
  rfl

theorem exists_grow_of_expand {word word' : Array Char}
    (e : expand choose g h budget x word s = (.ok word', s')) :
    ∃ t : Tree, grow choose g h budget x s = (.ok t, s') ∧ word' = word ++ t.yield.toArray := by
  rw [expand_eq_grow] at e
  rcases hg : grow choose g h budget x s with ⟨_ | t, s₁⟩
  · rw [hg] at e
    cases (Prod.mk.inj e).1
  · rw [hg] at e
    obtain ⟨ew, rfl⟩ := Prod.mk.inj e
    exact ⟨t, rfl, (Except.ok.inj ew).symm⟩

theorem generate_eq_ok_iff {maxDepth n : Nat} {w : List Char}
    (hn : (Heights.least g).height? g.start = some n) :
    generate choose g maxDepth s = (.ok w, s') ↔
      ∃ t : Tree, grow choose g (Heights.least g) (max maxDepth n) g.start s = (.ok t, s') ∧
        t.yield = w := by
  simp only [generate, hn]
  constructor
  · intro e
    rcases he : expand choose g (Heights.least g) (max maxDepth n) g.start #[] s with ⟨_ | word, s₁⟩
    · rw [he] at e
      cases (Prod.mk.inj e).1
    · rw [he] at e
      obtain ⟨ew, rfl⟩ := Prod.mk.inj e
      obtain ⟨t, ht, rfl⟩ := exists_grow_of_expand he
      exact ⟨t, ht, by simpa [Except.map] using ew⟩
  · rintro ⟨t, ht, rfl⟩
    rw [expand_of_grow ht]
    simp [Except.map]

/-- Without a height of the start symbol nothing is expanded. -/
theorem generate_of_height?_eq_none (hn : (Heights.least g).height? g.start = none)
    (choose : Chooser σ) (maxDepth : Nat) (s : σ) :
    generate choose g maxDepth s = (.error (.unproductive g.start), s) := by
  simp only [generate, hn]

theorem grow_succ_eq_ok_iff {t : Tree} :
    grow choose g h (budget + 1) x s = (.ok t, s') ↔
      (∃ k c, t = .leaf k c ∧ pick choose g h x (budget + 1) s = (some (k, .terminal c), s')) ∨
      ∃ k b c l r s₁ s₂, t = .node k l r ∧
        pick choose g h x (budget + 1) s = (some (k, .pair b c), s₁) ∧
        grow choose g h budget b s₁ = (.ok l, s₂) ∧ grow choose g h budget c s₂ = (.ok r, s') := by
  rw [grow]
  constructor
  · rcases pick choose g h x (budget + 1) s with ⟨_ | ⟨k, c | ⟨b, c⟩⟩, s₁⟩
    · simp
    · intro e
      obtain ⟨⟨⟩, rfl⟩ := Prod.mk.inj e
      exact Or.inl ⟨k, c, rfl, rfl⟩
    · intro e
      rcases hl : grow choose g h budget b s₁ with ⟨e' | l, s₂⟩ <;> simp only [hl] at e
      · cases (Prod.mk.inj e).1
      · rcases hr : grow choose g h budget c s₂ with ⟨e' | r, s₃⟩ <;> simp only [hr] at e
        · cases (Prod.mk.inj e).1
        · obtain ⟨⟨⟩, rfl⟩ := Prod.mk.inj e
          exact Or.inr ⟨k, b, c, l, r, s₁, s₂, rfl, rfl, hl, hr⟩
  · rintro (⟨k, c, rfl, hp⟩ | ⟨k, b, c, l, r, s₁, s₂, rfl, hp, hl, hr⟩)
    · rw [hp]
    · simp only [hp, hl, hr]

/-! ## The trees that fit -/

theorem leaf_mem_candidates {k : Nat} {c : Char} (rule : g.rules[k]? = some ⟨x, .terminal c⟩)
    (h : Heights) (hb : 0 < budget) : (k, .terminal c) ∈ g.candidates h x budget :=
  mem_candidates.2 ⟨rule, fits_iff.2 ⟨1, rfl, hb⟩⟩

/-- The least heights are at most those of the tree, so that its root is not filtered out. -/
theorem node_mem_candidates {k : Nat} {b c : Char} {l r : Tree}
    (rule : g.rules[k]? = some ⟨x, .pair b c⟩) (hl : l.ValidFor g b) (hr : r.ValidFor g c)
    (hb : (Tree.node k l r).height ≤ budget) :
    (k, .pair b c) ∈ g.candidates (Heights.least g) x budget := by
  obtain ⟨m, hm, hml⟩ := Heights.exists_height?_le hl
  obtain ⟨n, hn, hnr⟩ := Heights.exists_height?_le hr
  have hp := Heights.ofProduction?_pair_eq_some_iff.2 ⟨m, n, hm, hn, rfl⟩
  rw [Tree.height] at hb
  exact mem_candidates.2 ⟨rule, fits_iff.2 ⟨_, hp, by omega⟩⟩

/-- A tree is grown if and only if it is valid, fits into the budget, and its choices are made. -/
theorem grow_eq_ok_iff {t : Tree} :
    grow choose g (Heights.least g) budget x s = (.ok t, s') ↔
      t.ValidFor g x ∧ t.height ≤ budget ∧
        Makes choose (t.choices g (Heights.least g) budget x) s s' := by
  induction budget generalizing x s t s' with
  | zero =>
    have hpos := t.height_pos
    constructor
    · intro e
      cases (Prod.mk.inj e).1
    · rintro ⟨-, hb, -⟩
      omega
  | succ budget ih =>
    rw [grow_succ_eq_ok_iff]
    constructor
    · rintro (⟨k, c, rfl, hp⟩ | ⟨k, b, c, l, r, s₁, s₂, rfl, hp, hl, hr⟩)
      · obtain ⟨hc, made⟩ := pick_eq_some_iff.1 hp
        exact ⟨.leaf (mem_candidates.1 hc).1, Nat.le_add_left 1 budget, made⟩
      · obtain ⟨hc, made⟩ := pick_eq_some_iff.1 hp
        have rule := (mem_candidates.1 hc).1
        obtain ⟨validl, hbl, madel⟩ := ih.1 hl
        obtain ⟨validr, hbr, mader⟩ := ih.1 hr
        refine ⟨.node rule validl validr, ?_, ?_⟩
        · show 1 + max l.height r.height ≤ budget + 1
          omega
        · rw [Tree.choices_node rule, makes_append]
          exact ⟨s₁, made, makes_append.2 ⟨s₂, madel, mader⟩⟩
    · rintro ⟨valid, hb, made⟩
      cases valid with
      | @leaf _ c k rule =>
        have hc := leaf_mem_candidates rule (Heights.least g) budget.succ_pos
        exact Or.inl ⟨k, c, rfl, pick_eq_some_iff.2 ⟨hc, made⟩⟩
      | @node _ b c k l r rule validl validr =>
        have hc := node_mem_candidates rule validl validr hb
        rw [Tree.height] at hb
        have hbl : l.height ≤ budget := by omega
        have hbr : r.height ≤ budget := by omega
        rw [Tree.choices_node rule, makes_append] at made
        obtain ⟨s₁, made, rest⟩ := made
        obtain ⟨s₂, madel, mader⟩ := makes_append.1 rest
        exact Or.inr ⟨k, b, c, l, r, s₁, s₂, rfl, pick_eq_some_iff.2 ⟨hc, made⟩,
          ih.2 ⟨validl, hbl, madel⟩, ih.2 ⟨validr, hbr, mader⟩⟩

theorem choiceOf_lt {kp : Nat × Production} (hc : kp ∈ g.candidates h x budget) :
    (g.choiceOf h x budget kp).2 < (g.choiceOf h x budget kp).1 ∧
      ∃ y, (g.choiceOf h x budget kp).1 ≤ (g.alternatives y).length := by
  unfold choiceOf
  exact ⟨List.idxOf_lt_length_of_mem hc, x, length_candidates_le g h x budget⟩

/-- The choices of a tree that fits pick among the alternatives of some nonterminal. -/
theorem choices_lt {t : Tree} (valid : t.ValidFor g x) (hb : t.height ≤ budget) :
    ∀ c ∈ t.choices g (Heights.least g) budget x,
      c.2 < c.1 ∧ ∃ y, c.1 ≤ (g.alternatives y).length := by
  induction valid generalizing budget with
  | leaf rule =>
    rw [Tree.choices, List.forall_mem_singleton]
    exact choiceOf_lt (leaf_mem_candidates rule _ hb)
  | @node x b c k l r rule validl validr ihl ihr =>
    have hc := node_mem_candidates rule validl validr hb
    rw [Tree.height] at hb
    rw [Tree.choices_node rule, List.forall_mem_append, List.forall_mem_singleton,
      List.forall_mem_append]
    exact ⟨choiceOf_lt hc, ihl (by omega), ihr (by omega)⟩

end Grammar

end NormalGrammar

import NormalGrammar.Proofs.Sampling.Language

/-!
# What a word costs

A ledger follows a source and notes down each word that is taken from it, together with the
number of candidates it was taken for. Choosing with a ledger is choosing with its source
(`makes_source`). What the notes say of a run of choices: the words that pick something are as
many as the choices (`exists_draws_of_makes`), and the words that are passed over are not more
than there are words before the zeros (`rejected_le`).

A run of `generate` over finitely many random words, with zeros behind them, is followed with a
ledger. The words that pick something are as many as the rules of the tree, one less than twice
its leaves (`length_choices`), and the other ones stand before the zeros. Calls are nested as
deep as the budget at most, for each leaves less of it to the calls it makes
(`length_le_budget`).
-/

namespace NormalGrammar

/-! ## Ledgers -/

/-- A source as it was at first, and the words taken since, in order, each with the number of
candidates it was taken for. -/
structure Ledger where
  start : Source
  draws : List (Nat × UInt32)
  begins : start.Begins (draws.map (·.2))

namespace Ledger

variable {n : Nat} {cs : List (Nat × Nat)} {l l' : Ledger}

/-- Nothing has been taken. -/
def ofSource (s : Source) : Ledger where
  start := s
  draws := []
  begins k v hv := by simp at hv

/-- The source as it is now. -/
def source (l : Ledger) : Source :=
  { l.start with position := l.start.position + l.draws.length }

/-- Takes the current word and notes it down. -/
def note (n : Nat) (l : Ledger) : Ledger where
  start := l.start
  draws := l.draws ++ [(n, l.source.current)]
  begins := by
    rw [List.map_append]
    exact Source.Begins.append_singleton l.begins (by rw [List.length_map]; rfl)

theorem source_note (n : Nat) (l : Ledger) : (l.note n).source = l.source.next := by
  simp only [source, note, Source.next, List.length_append, List.length_singleton, Nat.add_assoc]

theorem map_snd_draws (l : Ledger) : l.draws.map (·.2) =
    (List.range l.draws.length).map fun k => l.start.word (l.start.position + k) := by
  refine List.ext_getElem (by simp) ?_
  intro k hk _
  rw [← l.begins k _ (List.getElem?_eq_getElem hk), List.getElem_map _ (l := List.range _),
    List.getElem_range]

/-- `Source.choose`, noting down every word. -/
def choose (n : Nat) (hn : 0 < n) (l : Ledger) : Fin n × Ledger :=
  match h : Source.index? n l.source.current with
  | some i => (⟨i, Source.index?_lt hn h⟩, l.note n)
  | none => choose n hn (l.note n)
termination_by l.source.limit - l.source.position
decreasing_by
  have := Source.position_lt_limit_of_index?_eq_none h
  simp only [source_note, Source.next]
  omega

/-! ## One choice -/

theorem choose_source (hn : 0 < n) (l : Ledger) :
    Source.choose n hn l.source = ((choose n hn l).1, (choose n hn l).2.source) := by
  fun_induction choose n hn l with
  | case1 l i h => rw [Source.choose_of_index?_eq_some hn h, source_note]
  | case2 l h ih => rw [Source.choose_of_index?_eq_none hn h, ← source_note n l, ih]

/-- A choice takes some words that are passed over, and then the one that picks its index. -/
theorem exists_draws_choose (hn : 0 < n) (l : Ledger) :
    (choose n hn l).2.start = l.start ∧ ∃ (vs : List UInt32) (v : UInt32),
      (∀ u ∈ vs, Source.index? n u = none) ∧ Source.index? n v = some (choose n hn l).1 ∧
      (choose n hn l).2.draws = l.draws ++ (vs.map (n, ·) ++ [(n, v)]) := by
  fun_induction choose n hn l with
  | case1 l i h => exact ⟨rfl, [], l.source.current, by simp, h, rfl⟩
  | case2 l h ih =>
    obtain ⟨start, vs, v, passed, picks, draws⟩ := ih
    refine ⟨start, l.source.current :: vs, v, List.forall_mem_cons.2 ⟨h, passed⟩, picks, ?_⟩
    rw [draws, note, List.append_assoc]
    rfl

/-! ## Runs of choices -/

/-- A run with a ledger makes the choices of a run with its source. -/
theorem makes_source (made : Makes choose cs l l') :
    Makes Source.choose cs l.source l'.source := by
  induction cs generalizing l with
  | nil =>
    obtain rfl : l = l' := made
    rfl
  | cons c cs ih =>
    obtain ⟨hn, hi, rest⟩ := made
    refine ⟨hn, ?_, ?_⟩
    · rw [choose_source]
      exact hi
    · rw [choose_source]
      exact ih rest

/-- What the words that were not passed over have picked, among how many candidates. -/
def picks (draws : List (Nat × UInt32)) : List (Nat × Nat) :=
  draws.filterMap fun d => (Source.index? d.1 d.2).map fun i => (d.1, i)

theorem picks_append (ds es : List (Nat × UInt32)) : picks (ds ++ es) = picks ds ++ picks es :=
  List.filterMap_append

theorem picks_eq_nil {vs : List UInt32} (passed : ∀ u ∈ vs, Source.index? n u = none) :
    picks (vs.map (n, ·)) = [] := by
  rw [picks, List.filterMap_eq_nil_iff, List.forall_mem_map]
  intro u hu
  rw [passed u hu]
  rfl

/-- The notes of a run show its choices, and each word was taken for one of them. -/
theorem exists_draws_of_makes (made : Makes choose cs l l') :
    l'.start = l.start ∧ ∃ es, l'.draws = l.draws ++ es ∧ picks es = cs ∧
      ∀ d ∈ es, ∃ c ∈ cs, d.1 = c.1 := by
  induction cs generalizing l with
  | nil =>
    obtain rfl : l = l' := made
    exact ⟨rfl, [], (List.append_nil _).symm, rfl, by simp⟩
  | cons c cs ih =>
    obtain ⟨n, i⟩ := c
    obtain ⟨hn, rfl, rest⟩ := made
    obtain ⟨start, vs, v, passed, picked, draws⟩ := exists_draws_choose hn l
    obtain ⟨start', es, draws', picks', counts⟩ := ih rest
    -- the words of the first choice, then those of the other ones
    refine ⟨start'.trans start, (vs.map (n, ·) ++ [(n, v)]) ++ es, ?_, ?_, ?_⟩
    · rw [draws', draws, List.append_assoc]
    · have last : picks [(n, v)] = [(n, ((choose n hn l).1 : Nat))] := by simp [picks, picked]
      rw [picks_append, picks_append, picks_eq_nil passed, picks', last]
      rfl
    · intro d hd
      rcases List.mem_append.1 hd with hd | hd
      · refine ⟨_, List.mem_cons_self, ?_⟩
        rcases List.mem_append.1 hd with hd | hd
        · obtain ⟨u, -, rfl⟩ := List.mem_map.1 hd
          rfl
        · rw [List.mem_singleton.1 hd]
      · obtain ⟨c, hc, same⟩ := counts d hd
        exact ⟨c, List.mem_cons_of_mem _ hc, same⟩

/-! ## Counting words -/

/-- The word picks something. -/
def Accepts (d : Nat × UInt32) : Prop := d.2.toNat * d.1 % UInt32.size ≤ Source.zone d.1

instance : DecidablePred Accepts := fun _ => inferInstanceAs (Decidable (_ ≤ _))

theorem accepts_iff {d : Nat × UInt32} : Accepts d ↔ (Source.index? d.1 d.2).isSome := by
  unfold Accepts Source.index?
  split <;> simp_all

/-- The number of words that picked something. -/
def accepted (l : Ledger) : Nat := l.draws.countP (Accepts ·)

/-- The number of words that were passed over. -/
def rejected (l : Ledger) : Nat := l.draws.countP (¬ Accepts ·)

theorem length_draws (l : Ledger) : l.draws.length = l.accepted + l.rejected := by
  rw [List.length_eq_countP_add_countP (Accepts ·), accepted, rejected]
  simp only [decide_not, decide_eq_true_eq]

theorem length_picks (l : Ledger) : (picks l.draws).length = l.accepted := by
  rw [picks, List.length_filterMap_eq_countP, accepted]
  refine List.countP_congr fun d _ => ?_
  rw [Option.isSome_map, decide_eq_true_iff, accepts_iff]

/-- Every word that is passed over is one of those before the zeros. -/
theorem countP_not_accepts_le {s : Source} {draws : List (Nat × UInt32)}
    (begins : s.Begins (draws.map (·.2))) :
    draws.countP (¬ Accepts ·) ≤ s.limit - s.position := by
  induction draws generalizing s with
  | nil => exact Nat.zero_le _
  | cons d draws ih =>
    rw [List.map_cons] at begins
    have rest := ih begins.next
    simp only [Source.next] at rest
    rw [List.countP_cons]
    split
    · rename_i rejected
      -- the first word is not zero, so one word less is left before the zeros
      rw [decide_eq_true_iff, accepts_iff, Option.not_isSome_iff_eq_none, ← begins.current] at rejected
      have := Source.position_lt_limit_of_index?_eq_none rejected
      omega
    · omega

theorem rejected_le (l : Ledger) : l.rejected ≤ l.start.limit - l.start.position :=
  countP_not_accepts_le l.begins

end Ledger

namespace Grammar

/-! ## Runs -/

variable {σ : Type} {choose : Chooser σ} {g : Grammar} {x : Char}

/-- A tree has a leaf more than inner nodes, and a choice for each node. -/
theorem length_choices {t : Tree} (valid : t.ValidFor g x) (h : Heights) (budget : Nat) :
    (t.choices g h budget x).length + 1 = 2 * t.yield.length := by
  induction valid generalizing budget with
  | leaf rule => rfl
  | @node x b c k l r rule validl validr ihl ihr =>
    have left := ihl (budget - 1)
    have right := ihr (budget - 1)
    rw [Tree.choices_node rule, Tree.yield_node, List.length_append, List.length_append,
      List.length_append, List.length_singleton]
    omega

/-! ## Nested calls -/

theorem Calls.budget_eq {h : Heights} {c d : Call σ} (hcd : Calls choose g h c d) :
    c.budget = d.budget + 1 := by
  cases hcd <;> rfl

/-- Calls that have been made one from inside the other are no more than the budget of the first
one. -/
theorem length_le_budget {c : Call σ} {stack : List (Call σ)} (hc : Funded g c)
    (nested : List.IsChain (Calls choose g (Heights.least g)) (c :: stack)) :
    (c :: stack).length ≤ c.budget := by
  induction stack generalizing c with
  | nil => exact hc.budget_pos
  | cons d stack ih =>
    obtain ⟨hcd, nested⟩ := List.isChain_cons_cons.1 nested
    rw [List.length_cons, hcd.budget_eq]
    exact Nat.succ_le_succ (ih hcd.funded nested)

/-! ## Runs with a ledger -/

/-- **Accounting.** Let the start symbol derive some word, with a tree of height `n` at least, and
let the source hold finitely many words before its zeros. Then a word `w` is written from some
tree, and of all words that are taken for it, in order,

1. each was taken for a number of candidates that fits into 32 bits;
2. those that were accepted picked the rules of the tree, one for each of its `2 * |w| - 1` nodes,
   in the order in which they are applied;
3. the other ones are not more than the source had words.

Calls are never nested deeper than the greater one of `maxDepth` and `n`. -/
theorem generate_accounts (productive : g.Productive) (few : g.rules.length < 2 ^ 32)
    (maxDepth : Nat) (ws : List UInt32) :
    ∃ (n : Nat) (w : List Char) (t : Tree) (l : Ledger),
      IsLeast {m | ∃ t : Tree, t.ValidFor g g.start ∧ t.height = m} n ∧
      (g.sample maxDepth (.ofList ws) = (.ok w, l.source) ∧
        generate Ledger.choose g maxDepth (.ofSource (.ofList ws)) = (.ok w, l) ∧
        l.draws.map (·.2) = (List.range l.source.position).map (Source.ofList ws).word) ∧
      (∀ d ∈ l.draws, 0 < d.1 ∧ d.1 < 2 ^ 32) ∧
      (t.ValidFor g g.start ∧ t.yield = w ∧ w ≠ [] ∧
        Ledger.picks l.draws =
          t.choices g (Heights.least g) (max maxDepth n) g.start ∧
        l.accepted = 2 * w.length - 1) ∧
      (l.source.position = (2 * w.length - 1) + l.rejected ∧
        l.source.position ≤ ws.length + (2 * w.length - 1)) ∧
      ∀ stack, List.IsChain (Calls Source.choose g (Heights.least g))
        (⟨max maxDepth n, g.start, #[], .ofList ws⟩ :: stack) →
          stack.length + 1 ≤ max maxDepth n := by
  obtain ⟨n, hn⟩ := productive.exists_height?
  obtain ⟨w, l, run⟩ := exists_generate_eq_ok hn Ledger.choose maxDepth (.ofSource (.ofList ws))
  -- the tree of the run with a ledger makes the same choices without one
  obtain ⟨t, grown, rfl⟩ := (generate_eq_ok_iff hn).1 run
  obtain ⟨valid, hb, made⟩ := grow_eq_ok_iff.1 grown
  obtain ⟨start, es, draws, picks, counts⟩ := Ledger.exists_draws_of_makes made
  obtain rfl : l.draws = es := draws
  have sampled : g.sample maxDepth (.ofList ws) = (.ok t.yield, l.source) :=
    (generate_eq_ok_iff hn).2
      ⟨t, grow_eq_ok_iff.2 ⟨valid, hb, Ledger.makes_source made⟩, rfl⟩
  have position : l.source.position = l.draws.length := by
    rw [Ledger.source, start]
    exact Nat.zero_add _
  have words : l.draws.map (·.2) = (List.range l.source.position).map (Source.ofList ws).word := by
    rw [Ledger.map_snd_draws, position, start]
    refine List.map_congr_left fun k _ => ?_
    exact congrArg _ (Nat.zero_add k)
  have numbers : ∀ d ∈ l.draws, 0 < d.1 ∧ d.1 < 2 ^ 32 := by
    intro d hd
    obtain ⟨c, hc, same⟩ := counts d hd
    obtain ⟨hi, y, hy⟩ := choices_lt valid hb c hc
    rw [same]
    exact ⟨Nat.zero_lt_of_lt hi, (hy.trans (length_alternatives_le g y)).trans_lt few⟩
  have accepted : l.accepted + 1 = 2 * t.yield.length := by
    rw [← Ledger.length_picks, picks]
    exact length_choices valid _ _
  have rejected : l.rejected ≤ ws.length := by
    have := l.rejected_le
    rwa [start] at this
  have total := l.length_draws
  refine ⟨n, t.yield, t, l, Heights.height?_least_eq_some_iff.1 hn, ⟨sampled, run, words⟩,
    numbers, ⟨valid, rfl, t.yield_ne_nil, picks, by omega⟩, ⟨by omega, by omega⟩, ?_⟩
  intro stack nested
  exact length_le_budget ⟨n, hn, Nat.le_max_right _ _⟩ nested

/-- The first two words are passed over for one candidate as well as for two. -/
theorem repeated_s_accounts :
    Productive (.ofRules [⟨'S', .pair 'S' 'S'⟩, ⟨'S', .terminal 's'⟩]) ∧ 2 < 2 ^ 32 ∧
      ∃ w s, (ofRules [⟨'S', .pair 'S' 'S'⟩, ⟨'S', .terminal 's'⟩]).sample 3
          (.ofList [4294967295, 4294967295, 7]) = (.ok w, s) ∧
        w ≠ [] ∧ s.position ≤ 3 + (2 * w.length - 1) := by
  have productive : Productive (.ofRules [⟨'S', .pair 'S' 'S'⟩, ⟨'S', .terminal 's'⟩]) :=
    ⟨['s'], yields_iff_derives.1 (.terminal (by decide))⟩
  refine ⟨productive, by decide, ?_⟩
  obtain ⟨n, w, t, l, -, ⟨sampled, -⟩, -, ⟨-, -, hw, -⟩, ⟨-, total⟩, -⟩ :=
    generate_accounts productive (by decide) 3 [4294967295, 4294967295, 7]
  exact ⟨w, l.source, sampled, hw, total⟩

end Grammar

end NormalGrammar

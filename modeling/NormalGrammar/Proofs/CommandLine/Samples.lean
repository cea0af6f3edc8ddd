import NormalGrammar.CommandLine.Run
import NormalGrammar.Proofs.Sampling.Language

/-!
# Printing words

Words are drawn one after the other from one source, and each is printed before the next is drawn.
Whether a draw fails depends on the start symbol and not on what earlier draws have left of the
source. So either no draw fails (`exists_printed`), or the first one does
(`printWords_of_unproductive`). The source may be anything whose choices end: `σ` stands for its
states, and is closed under choosing.
-/

namespace NormalGrammar

namespace CommandLine

variable {σ : Type} {choose : Chooser σ} {g : Grammar} {maxDepth : Nat} {s s' : σ}

/-- Prints random words, one a line, for any way to choose. -/
def printWords (choose : Chooser σ) (g : Grammar) (maxDepth : Nat) :
    Nat → σ → Report RunFault Unit
  | 0, _ => return ()
  | count + 1, s => do
    let (word, s) := Grammar.generate choose g maxDepth s
    let w ← .ofExcept (word.mapError .sample)
    .printLine (String.ofList w)
    printWords choose g maxDepth count s

/-- The report of a run that printed the words, one a line. -/
def printed (ws : List (List Char)) : Report RunFault Unit :=
  ⟨ws.map fun w => String.ofList w ++ "\n", [], .ok ()⟩

theorem printSamples_eq_printWords (g : Grammar) (maxDepth count : Nat) (s : Source) :
    printSamples g maxDepth count s = printWords Source.choose g maxDepth count s := by
  induction count generalizing s with
  | zero => rfl
  | succ count ih =>
    simp only [printSamples, printWords, Grammar.sample, ih]

/-! ## One word -/

theorem printWords_succ_of_ok {w : List Char} {ws : List (List Char)} {count : Nat}
    (drawn : Grammar.generate choose g maxDepth s = (.ok w, s'))
    (rest : printWords choose g maxDepth count s' = printed ws) :
    printWords choose g maxDepth (count + 1) s = printed (w :: ws) := by
  rw [printWords, drawn]
  dsimp only
  rw [rest]
  rfl

theorem printWords_succ_of_error {e : SampleFault} {count : Nat}
    (failed : Grammar.generate choose g maxDepth s = (.error e, s')) :
    printWords choose g maxDepth (count + 1) s = .fail (.sample e) := by
  rw [printWords, failed]
  rfl

/-! ## All words -/

/-- A run prints all its words, and a shorter one the first of them. -/
theorem exists_printed (h : g.Productive) (choose : Chooser σ) (maxDepth count : Nat) (s : σ) :
    ∃ ws : List (List Char), ws.length = count ∧
      (∀ w ∈ ws, g.Derives [.nonterminal g.start] (Symbol.ofWord w)) ∧
      ∀ m ≤ count, printWords choose g maxDepth m s = printed (ws.take m) := by
  induction count generalizing s with
  | zero =>
    refine ⟨[], rfl, fun w hw => absurd hw List.not_mem_nil, ?_⟩
    intro m hm
    obtain rfl := Nat.le_zero.1 hm
    rfl
  | succ count ih =>
    obtain ⟨w, s', drawn, derives⟩ := h.exists_generate choose maxDepth s
    obtain ⟨ws, length, all, shorter⟩ := ih s'
    refine ⟨w :: ws, congrArg Nat.succ length, List.forall_mem_cons.2 ⟨derives, all⟩, ?_⟩
    intro m hm
    cases m with
    | zero => rfl
    | succ m => exact printWords_succ_of_ok drawn (shorter m (Nat.le_of_succ_le_succ hm))

/-- Nothing can be printed without a word. -/
theorem printWords_of_unproductive (h : ¬ g.Productive) (choose : Chooser σ) (maxDepth : Nat)
    (s : σ) {count : Nat} (hcount : 0 < count) :
    printWords choose g maxDepth count s = .fail (.sample (.unproductive g.start)) := by
  obtain ⟨count, rfl⟩ := Nat.exists_eq_succ_of_ne_zero (Nat.ne_of_gt hcount)
  exact printWords_succ_of_error
    (Grammar.generate_of_height?_eq_none (Grammar.not_productive_iff.1 h) choose maxDepth s)

/-- **All or nothing.** Either the start symbol derives a word. Then a run prints as many words of
the grammar as it is asked for, and the first of them if it is asked for fewer. Or it derives none,
and then any run that is asked for a word reports this and prints nothing. No run fails after
having printed a word. This holds for any way to choose, and so for every source. -/
theorem printSamples_all_or_none (g : Grammar) (maxDepth : Nat) :
    (∀ count s, printSamples g maxDepth count s = printWords Source.choose g maxDepth count s) ∧
    ∀ (σ : Type) (choose : Chooser σ) (s : σ),
      ((g.Productive ∧ ∀ k, ∃ ws : List (List Char), ws.length = k ∧
          (∀ w ∈ ws, g.Derives [.nonterminal g.start] (Symbol.ofWord w)) ∧
          ∀ m ≤ k, printWords choose g maxDepth m s = printed (ws.take m)) ∨
        (¬ g.Productive ∧ printWords choose g maxDepth 0 s = printed [] ∧
          ∀ k, 0 < k → printWords choose g maxDepth k s =
            .fail (.sample (.unproductive g.start)))) ∧
      ∀ k e, (printWords choose g maxDepth k s).result = .error e →
        (printWords choose g maxDepth k s).out = [] := by
  refine ⟨fun count s => printSamples_eq_printWords g maxDepth count s, ?_⟩
  intro σ choose s
  by_cases h : g.Productive
  · refine ⟨Or.inl ⟨h, fun k => exists_printed h choose maxDepth k s⟩, ?_⟩
    intro k e failed
    obtain ⟨ws, -, -, run⟩ := exists_printed h choose maxDepth k s
    rw [run k le_rfl] at failed
    cases failed
  · refine ⟨Or.inr ⟨h, rfl, fun k => printWords_of_unproductive h choose maxDepth s⟩, ?_⟩
    intro k e failed
    rcases Nat.eq_zero_or_pos k with rfl | hk
    · rfl
    · rw [printWords_of_unproductive h choose maxDepth s hk]
      rfl

/-- Runs over one source, the last two for a grammar whose only rule leads back to itself. -/
theorem printSamples_balanced_and_endless :
    (∃ ws : List (List Char), ws.length = 2 ∧ 1 ≤ 2 ∧
      printSamples .balanced 8 1 (.ofList [7]) = printed (ws.take 1) ∧
      printSamples .balanced 8 2 (.ofList [7]) = printed ws) ∧
    0 < 2 ∧
      printSamples (.ofRules [⟨'S', .pair 'S' 'S'⟩]) 8 2 (.ofList [7]) =
        .fail (.sample (.unproductive 'S')) ∧
      (printSamples (.ofRules [⟨'S', .pair 'S' 'S'⟩]) 8 2 (.ofList [7])).out = [] := by
  obtain ⟨same, all⟩ := printSamples_all_or_none .balanced 8
  obtain ⟨same', all'⟩ := printSamples_all_or_none (.ofRules [⟨'S', .pair 'S' 'S'⟩]) 8
  have productive : Grammar.Productive .balanced := by
    refine ⟨['a', 'b'], Grammar.yields_iff_derives.1 ?_⟩
    exact .pair (b := 'A') (c := 'B') (by decide) (.terminal (by decide)) (.terminal (by decide))
  have endless : ¬ Grammar.Productive (.ofRules [⟨'S', .pair 'S' 'S'⟩]) :=
    Grammar.not_productive_of_no_terminal (by simp)
  constructor
  · obtain ⟨-, run⟩ := (all Source Source.choose (.ofList [7])).1.resolve_right
      fun none => none.1 productive
    obtain ⟨ws, length, -, shorter⟩ := run 2
    refine ⟨ws, length, by decide, ?_, ?_⟩
    · rw [same, shorter 1 (by decide)]
    · rw [same, shorter 2 le_rfl, List.take_of_length_le (Nat.le_of_eq length)]
  · obtain ⟨fails, silent⟩ := all' Source Source.choose (.ofList [7])
    obtain ⟨-, -, run⟩ := fails.resolve_left fun some => endless some.1
    have failed := run 2 (by decide)
    refine ⟨by decide, ?_, ?_⟩
    · rw [same', failed]
      rfl
    · rw [same']
      exact silent 2 (.sample (.unproductive 'S')) (by rw [failed]; rfl)

end CommandLine

end NormalGrammar

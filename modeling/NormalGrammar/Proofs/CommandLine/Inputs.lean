import NormalGrammar.CommandLine.Run
import NormalGrammar.Proofs.Loading.Format
import NormalGrammar.Proofs.Sampling.Language

/-!
# Runs over several inputs

The run over two lists of inputs, one after the other, is the run over the first list and then,
unless that has failed, the run over the second (`printRecognitions_append`). So what was printed
stays, and the exit code is the greater of the two: a fault outweighs a rejection, and a rejection
outweighs an acceptance.
-/

namespace NormalGrammar

/-! ## Loading is silent -/

theorem Report.out_bind_eq_nil {ε α β : Type} {r : Report ε α} {f : α → Report ε β}
    (hr : r.out = []) (hf : ∀ a, (f a).out = []) : (r >>= f).out = [] := by
  rcases h : r.result with e | a
  · rw [bind_of_error h, hr]
  · rw [bind_of_ok h, hr, hf a, List.append_nil]

namespace Loading

theorem out_compile (file : String) (t : List Char) : (compile file t).out = [] :=
  Report.out_bind_eq_nil rfl fun _ => rfl

theorem out_validate (raws : List RawRule) : (validate raws).out = [] :=
  Report.out_bind_eq_nil rfl fun _ => rfl

theorem out_compileContents (origin path : String) (contents : Except ReadFault ByteArray) :
    (compileContents origin path contents).out = [] := by
  unfold compileContents
  split
  · exact out_compile origin _
  · rfl

theorem out_loadGrammar (path : String) (contents : Except ReadFault ByteArray) :
    (loadGrammar path contents).out = [] := by
  unfold loadGrammar
  split
  · exact Report.out_bind_eq_nil (out_compileContents ..) out_validate
  · exact Report.out_bind_eq_nil (out_compileContents ..) out_validate

theorem out_chooseStart {ε : Type} (g : Grammar) (x : Char) :
    (chooseStart g x : Report ε Grammar).out = [] := by
  unfold chooseStart
  split <;> rfl

theorem result_chooseStart {ε : Type} (g : Grammar) (x : Char) :
    (chooseStart g x : Report ε Grammar).result = .ok (g.withStart x) := by
  unfold chooseStart
  split <;> rfl

end Loading

namespace CommandLine

variable {g : Grammar} {quiet : Bool} {o : Options} {contents : Except ReadFault ByteArray}

theorem out_load (o : Options) (contents : Except ReadFault ByteArray) :
    (load o contents).out = [] := by
  have silent := Loading.out_loadGrammar (String.ofList o.grammar) contents
  apply Report.out_bind_eq_nil
  · unfold Report.noteFailure Report.mapError
    split <;> exact silent
  · exact fun g => Loading.out_chooseStart g o.start

theorem result_load_eq_ok_iff :
    (load o contents).result = .ok g ↔
      ∃ g₀, (Loading.loadGrammar (String.ofList o.grammar) contents).result = .ok g₀ ∧
        g = g₀.withStart o.start := by
  unfold load
  rw [Report.result_bind_eq_ok_iff]
  simp only [Loading.result_chooseStart, Except.ok.injEq, eq_comm]
  apply exists_congr
  intro g₀
  apply and_congr_left'
  rcases h : (Loading.loadGrammar (String.ofList o.grammar) contents) with ⟨out, log, e | g⟩
  · simp [Report.noteFailure, Report.mapError, Except.mapError]
  · simp [Report.noteFailure, Report.mapError, Except.mapError]

/-! ## One list after the other -/

theorem printRecognitions_append (g : Grammar) (quiet : Bool) (as bs : List (List Char)) :
    printRecognitions g quiet (as ++ bs) = do
      let first ← printRecognitions g quiet as
      let rest ← printRecognitions g quiet bs
      return first && rest := by
  induction as with
  | nil => simp only [List.nil_append, printRecognitions, pure_bind, Bool.true_and, bind_pure]
  | cons a as ih =>
    simp only [List.cons_append, printRecognitions, ih, bind_assoc, pure_bind, Bool.and_assoc]

/-! ## Exit codes -/

/-- The exit code of a result. -/
def exitCode : Except RunFault Bool → Nat
  | .ok true => 0
  | .ok false => 1
  | .error _ => 2

theorem exitCode_le (r : Except RunFault Bool) : exitCode r ≤ 2 := by
  rcases r with e | _ | _ <;> simp [exitCode]

theorem exitCode_ok_ne_two (u : Bool) : exitCode (.ok u) ≠ 2 := by
  cases u <;> decide

theorem exit_ofReport (verbose : Bool) (r : Report RunFault Bool) :
    (Outcome.ofReport verbose r).exit = exitCode r.result := by
  rcases r with ⟨out, log, e | _ | _⟩ <;> rfl

theorem stdout_ofReport (verbose : Bool) (r : Report RunFault Bool) :
    (Outcome.ofReport verbose r).stdout = .join r.out := by
  rcases r with ⟨out, log, e | _⟩ <;> rfl

/-- Of two verdicts the worse one counts, and a fault is the worst. -/
theorem exitCode_printRecognitions_append (g : Grammar) (quiet : Bool) (as bs : List (List Char)) :
    exitCode (printRecognitions g quiet (as ++ bs)).result =
      max (exitCode (printRecognitions g quiet as).result)
        (exitCode (printRecognitions g quiet bs).result) := by
  rw [printRecognitions_append]
  rcases printRecognitions g quiet as with ⟨out, log, e | u⟩
  · exact (Nat.max_eq_left (exitCode_le _)).symm
  · rcases printRecognitions g quiet bs with ⟨out', log', e | v⟩
    · exact (Nat.max_eq_right (exitCode_le _)).symm
    · cases u <;> cases v <;> rfl

/-- What is printed stays, and a fault is the end of it. -/
theorem out_printRecognitions_append (g : Grammar) (quiet : Bool) (as bs : List (List Char)) :
    (printRecognitions g quiet (as ++ bs)).out =
      if exitCode (printRecognitions g quiet as).result = 2 then (printRecognitions g quiet as).out
      else (printRecognitions g quiet as).out ++ (printRecognitions g quiet bs).out := by
  rw [printRecognitions_append]
  rcases printRecognitions g quiet as with ⟨out, log, e | u⟩
  · rfl
  · rw [if_neg (exitCode_ok_ne_two u)]
    rcases printRecognitions g quiet bs with ⟨out', log', e | v⟩
    · rfl
    · show out ++ (out' ++ []) = out ++ out'
      rw [List.append_nil]

/-! ## One input -/

theorem printRecognitions_singleton (g : Grammar) (quiet : Bool) (x : List Char) :
    printRecognitions g quiet [x] = printRecognition g quiet x := by
  simp only [printRecognitions, pure_bind, Bool.and_true, bind_pure]

variable {x : List Char}

theorem printRecognition_of_blank (hx : Text.trim x = []) :
    printRecognition g quiet x = .fail (.input .empty) := by
  have failed : Recognition.report g (Text.trim x) = .fail .empty := by
    rw [hx, Recognition.report, Recognition.ofInput_nil]
  unfold printRecognition
  dsimp only
  rw [failed]
  rfl

theorem result_printRecognition {r : Recognition}
    (hr : Recognition.ofInput g (Text.trim x) = .ok r) :
    (printRecognition g quiet x).result = .ok r.accepted := by
  have done : (Recognition.report g (Text.trim x)).result = .ok r := by
    rw [Recognition.report, hr]
  unfold printRecognition
  dsimp only
  rcases h : Recognition.report g (Text.trim x) with ⟨out, log, result⟩
  rw [h] at done
  obtain rfl : result = .ok r := done
  cases quiet <;> rfl

/-- An input that is not blank is accepted or rejected. -/
theorem exitCode_printRecognition (hx : Text.trim x ≠ []) :
    (exitCode (printRecognition g quiet x).result = 0 ↔ g.Accepts (Text.trim x)) ∧
      (exitCode (printRecognition g quiet x).result = 1 ↔ g.Rejects (Text.trim x)) := by
  have hr := Recognition.ofInput_of_ne_nil (g := g) hx
  rw [Grammar.rejects_iff hx, Grammar.accepts_iff_of_ofInput hr, result_printRecognition hr]
  generalize Recognition.accepted _ = verdict
  cases verdict <;> decide

/-! ## Whole runs -/

/-- The outcome of a run over the given inputs. -/
def outcomeOf (o : Options) (contents : Except ReadFault ByteArray) (otherSeed : UInt64)
    (inputs : List (List Char)) : Outcome :=
  .ofReport o.verbose (run { o with inputs := inputs } contents otherSeed)

section Run

variable (ho : o.generate = none) {inputs : List (List Char)} (hi : inputs ≠ [])

include ho hi

theorem run_eq (otherSeed : UInt64) :
    run { o with inputs := inputs } contents otherSeed =
      load o contents >>= fun g => printRecognitions g o.quiet inputs := by
  have same : load { o with inputs := inputs } contents = load o contents := rfl
  unfold run
  rw [same]
  apply bind_congr
  intro g
  cases inputs with
  | nil => exact absurd rfl hi
  | cons x xs =>
    simp only [ho]
    rfl

theorem outcomeOf_of_loaded (hg : (load o contents).result = .ok g) (otherSeed : UInt64) :
    (outcomeOf o contents otherSeed inputs).exit =
        exitCode (printRecognitions g o.quiet inputs).result ∧
      (outcomeOf o contents otherSeed inputs).stdout =
        .join (printRecognitions g o.quiet inputs).out := by
  unfold outcomeOf
  rw [exit_ofReport, stdout_ofReport, run_eq ho hi, Report.bind_of_ok hg, out_load,
    List.nil_append]
  exact ⟨rfl, rfl⟩

theorem outcomeOf_of_not_loaded (hg : ∀ g, (load o contents).result ≠ .ok g) (otherSeed : UInt64) :
    (outcomeOf o contents otherSeed inputs).exit = 2 ∧
      (outcomeOf o contents otherSeed inputs).stdout = "" := by
  rcases h : (load o contents).result with e | g
  · unfold outcomeOf
    rw [exit_ofReport, stdout_ofReport, run_eq ho hi, Report.bind_of_error h, out_load]
    exact ⟨rfl, rfl⟩
  · exact absurd h (hg g)

end Run

/-- A run goes over two lists of inputs as over one after the other. -/
theorem outcomeOf_append (ho : o.generate = none) (otherSeed : UInt64) {as bs : List (List Char)}
    (ha : as ≠ []) (hb : bs ≠ []) :
    (outcomeOf o contents otherSeed (as ++ bs)).exit =
        max (outcomeOf o contents otherSeed as).exit (outcomeOf o contents otherSeed bs).exit ∧
      (outcomeOf o contents otherSeed (as ++ bs)).stdout =
        if (outcomeOf o contents otherSeed as).exit = 2
        then (outcomeOf o contents otherSeed as).stdout
        else (outcomeOf o contents otherSeed as).stdout ++
          (outcomeOf o contents otherSeed bs).stdout := by
  have hab : as ++ bs ≠ [] := List.append_ne_nil_of_left_ne_nil ha bs
  by_cases hg : ∃ g, (load o contents).result = .ok g
  · obtain ⟨g, hg⟩ := hg
    obtain ⟨exit_as, stdout_as⟩ := outcomeOf_of_loaded ho ha hg otherSeed
    obtain ⟨exit_bs, stdout_bs⟩ := outcomeOf_of_loaded ho hb hg otherSeed
    obtain ⟨exit_both, stdout_both⟩ := outcomeOf_of_loaded ho hab hg otherSeed
    rw [exit_as, exit_bs, exit_both, stdout_as, stdout_bs, stdout_both]
    refine ⟨exitCode_printRecognitions_append .., ?_⟩
    rw [out_printRecognitions_append]
    split
    · rfl
    · exact String.join_append
  · have refused := not_exists.1 hg
    obtain ⟨exit_as, stdout_as⟩ := outcomeOf_of_not_loaded ho ha refused otherSeed
    obtain ⟨exit_bs, -⟩ := outcomeOf_of_not_loaded ho hb refused otherSeed
    obtain ⟨exit_both, stdout_both⟩ := outcomeOf_of_not_loaded ho hab refused otherSeed
    rw [exit_as, exit_bs, exit_both, stdout_as, stdout_both, if_pos rfl]
    exact ⟨rfl, rfl⟩

/-- The grammar's text can be read, and it is a grammar. -/
def Loads (o : Options) (contents : Except ReadFault ByteArray) : Prop :=
  ∃ g, (Loading.loadGrammar (String.ofList o.grammar) contents).result = .ok g

theorem loads_iff : Loads o contents ↔ ∃ g, (load o contents).result = .ok g := by
  simp only [result_load_eq_ok_iff, Loads]
  constructor
  · rintro ⟨g₀, h⟩
    exact ⟨g₀.withStart o.start, g₀, h, rfl⟩
  · rintro ⟨-, g₀, h, -⟩
    exact ⟨g₀, h⟩

theorem outcomeOf_singleton_of_loaded (ho : o.generate = none) (otherSeed : UInt64)
    (hg : (load o contents).result = .ok g) :
    (outcomeOf o contents otherSeed [x]).exit = exitCode (printRecognition g o.quiet x).result ∧
      (outcomeOf o contents otherSeed [x]).stdout = .join (printRecognition g o.quiet x).out := by
  have run := outcomeOf_of_loaded ho (List.cons_ne_nil x []) hg otherSeed
  rwa [printRecognitions_singleton] at run

/-- A run over one input fails, and silently, if there is no grammar or no input. -/
theorem outcomeOf_singleton_fails_iff (ho : o.generate = none) (otherSeed : UInt64) :
    (outcomeOf o contents otherSeed [x]).exit = 2 ∧
        (outcomeOf o contents otherSeed [x]).stdout = "" ↔
      ¬ Loads o contents ∨ Text.trim x = [] := by
  constructor
  · rintro ⟨failed, -⟩
    rw [or_iff_not_imp_left, not_not, loads_iff]
    rintro ⟨g, hg⟩
    by_contra hx
    rw [(outcomeOf_singleton_of_loaded ho otherSeed hg).1,
      result_printRecognition (Recognition.ofInput_of_ne_nil hx)] at failed
    exact exitCode_ok_ne_two _ failed
  · intro h
    by_cases hg : ∃ g, (load o contents).result = .ok g
    · obtain ⟨g, hg⟩ := hg
      have hx : Text.trim x = [] := h.resolve_left (not_not.2 (loads_iff.2 ⟨g, hg⟩))
      rw [(outcomeOf_singleton_of_loaded ho otherSeed hg).1,
        (outcomeOf_singleton_of_loaded ho otherSeed hg).2, printRecognition_of_blank hx]
      exact ⟨rfl, rfl⟩
    · exact outcomeOf_of_not_loaded ho (List.cons_ne_nil x []) (not_exists.1 hg) otherSeed

/-- The exit code and the printed text of a run over two lists of inputs are made from those of
the runs over either list: a later fault outweighs a rejection, a later acceptance does not undo
one, and a fault withdraws nothing that was printed. A run over one input tells whether the input
is accepted or rejected, and fails if there is no grammar or no input. -/
theorem outcome_composes (ho : o.generate = none) (contents : Except ReadFault ByteArray)
    (otherSeed : UInt64) :
    (∀ as bs, as ≠ [] → bs ≠ [] →
      (outcomeOf o contents otherSeed (as ++ bs)).exit =
          max (outcomeOf o contents otherSeed as).exit (outcomeOf o contents otherSeed bs).exit ∧
        (outcomeOf o contents otherSeed (as ++ bs)).stdout =
          if (outcomeOf o contents otherSeed as).exit = 2
          then (outcomeOf o contents otherSeed as).stdout
          else (outcomeOf o contents otherSeed as).stdout ++
            (outcomeOf o contents otherSeed bs).stdout) ∧
    ∀ x,
      ((outcomeOf o contents otherSeed [x]).exit = 2 ∧
          (outcomeOf o contents otherSeed [x]).stdout = "" ↔
        ¬ Loads o contents ∨ Text.trim x = []) ∧
      ∀ g, (Loading.loadGrammar (String.ofList o.grammar) contents).result = .ok g →
        Text.trim x ≠ [] →
          ((outcomeOf o contents otherSeed [x]).exit = 0 ↔
            (g.withStart o.start).Accepts (Text.trim x)) ∧
          ((outcomeOf o contents otherSeed [x]).exit = 1 ↔
            (g.withStart o.start).Rejects (Text.trim x)) := by
  refine ⟨fun as bs => outcomeOf_append ho otherSeed, fun x => ⟨?_, ?_⟩⟩
  · exact outcomeOf_singleton_fails_iff ho otherSeed
  · intro g hg hx
    have loaded : (load o contents).result = .ok (g.withStart o.start) :=
      result_load_eq_ok_iff.2 ⟨g, hg, rfl⟩
    rw [(outcomeOf_singleton_of_loaded ho otherSeed loaded).1]
    exact exitCode_printRecognition hx

/-- A quiet run over a rejected, a blank and an accepted input. -/
theorem rejection_then_blank :
    (outcomeOf { grammar := ['g'], quiet := true } (.ok "S -> AB\nA -> a\nB -> b\n".toUTF8) 0
        ([['b', 'a']] ++ [[' '], ['a', 'b']])).exit = 2 ∧
      (outcomeOf { grammar := ['g'], quiet := true } (.ok "S -> AB\nA -> a\nB -> b\n".toUTF8) 0
        ([['b', 'a']] ++ [[' '], ['a', 'b']])).stdout = "ba: REJECTED\n" := by
  obtain ⟨exit_eq, stdout_eq⟩ := (outcome_composes (o := { grammar := ['g'], quiet := true }) rfl
    (.ok "S -> AB\nA -> a\nB -> b\n".toUTF8) 0).1 [['b', 'a']] [[' '], ['a', 'b']]
    (by decide) (by decide)
  rw [exit_eq, stdout_eq]
  decide +kernel

end CommandLine

end NormalGrammar

import NormalGrammar.Proofs.Loading.Format

/-!
# Malformed lines

A line can be taken apart if exactly one place in it has an arrow (`splitLine_eq`). A text is
compiled if this is so for all its trimmed segments that are not empty, and otherwise each of the
others is reported, by its number and with what is wrong with it.
-/

namespace NormalGrammar

/-! ## Places of arrows -/

namespace Text

/-- The places at which a dash is directly followed by a greater-than sign. -/
def arrowPlaces (t : List Char) : List Nat :=
  (List.range t.length).filter fun i => t[i]? = some '-' ∧ t[i + 1]? = some '>'

variable {c : Char} {i : Nat} {t : List Char}

theorem mem_arrowPlaces : i ∈ arrowPlaces t ↔ t[i]? = some '-' ∧ t[i + 1]? = some '>' := by
  unfold arrowPlaces
  rw [List.mem_filter, List.mem_range, decide_eq_true_eq, and_iff_right_iff_imp]
  rintro ⟨h, -⟩
  exact (List.getElem?_eq_some_iff.1 h).1

theorem arrowPlaces_cons (c : Char) (t : List Char) : arrowPlaces (c :: t) =
    (if c = '-' ∧ t.head? = some '>' then [0] else []) ++ (arrowPlaces t).map (· + 1) := by
  unfold arrowPlaces
  rw [List.length_cons, List.range_succ_eq_map, List.filter_cons, List.filter_map,
    List.head?_eq_getElem?]
  by_cases h : c = '-' ∧ t[0]? = some '>'
  · simp [h, Function.comp_def]
  · simp [h, Function.comp_def]

theorem arrowPlaces_arrow_append (t : List Char) :
    arrowPlaces ('-' :: '>' :: t) = 0 :: (arrowPlaces t).map (· + 2) := by
  simp [arrowPlaces_cons]

theorem length_arrowPlaces (t : List Char) : (arrowPlaces t).length = (cutArrows t).2.length := by
  fun_induction cutArrows t with
  | case1 => rfl
  | case2 t piece pieces h ih =>
    rw [h] at ih
    simp [arrowPlaces_arrow_append, ih]
  | case3 c t alone piece pieces h ih =>
    have no_arrow : ¬ (c = '-' ∧ t.head? = some '>') := by
      rintro ⟨hc, hd⟩
      obtain ⟨s, rfl⟩ := List.head?_eq_some_iff.1 hd
      exact alone s hc rfl
    rw [h] at ih
    simp [arrowPlaces_cons, no_arrow, ih]

/-- The only arrow is the one at which the text is cut. -/
theorem cutArrows_of_arrowPlaces_eq (h : arrowPlaces t = [i]) :
    cutArrows t = (t.take i, [t.drop (i + 2)]) := by
  have one := length_arrowPlaces t
  rw [h] at one
  obtain ⟨b, hb⟩ := List.length_eq_one_iff.1 one.symm
  obtain ⟨a, ha⟩ : ∃ a, cutArrows t = (a, [b]) := ⟨_, Prod.ext rfl hb⟩
  have ht := (cutArrows_eq_iff.1 ha).1
  have place : a.length ∈ arrowPlaces t := by
    rw [mem_arrowPlaces, ht]
    simp [arrow]
  rw [h, List.mem_singleton] at place
  rw [ha, ht, ← place]
  simp [arrow]

end Text

open Text

namespace RawRule

/-- A line falls into two sides if it has an arrow at one place only. -/
theorem splitLine_eq (line : List Char) : splitLine line =
    match arrowPlaces line with
    | [] => .error (.missingArrow line)
    | [i] => .ok (trim (line.take i), trim (line.drop (i + 2)))
    | _ :: _ :: _ => .error (.extraArrow line) := by
  have count := length_arrowPlaces line
  rcases h : arrowPlaces line with _ | ⟨i, _ | ⟨j, rest⟩⟩
  · rw [h] at count
    have none := List.eq_nil_of_length_eq_zero count.symm
    rw [splitLine, show cutArrows line = ((cutArrows line).1, []) from Prod.ext rfl none]
  · rw [splitLine, cutArrows_of_arrowPlaces_eq h]
  · rw [h] at count
    rcases hc : cutArrows line with ⟨a, _ | ⟨b, _ | ⟨b', bs⟩⟩⟩
    · simp [hc] at count
    · simp [hc] at count
    · rw [splitLine, hc]

example : arrowPlaces ['S', '-', '-', '>', '>'] = [2] := by decide

end RawRule

/-! ## Segments with their numbers -/

namespace Text

/-- The trimmed segments that are not empty, each with its number, counted from 1. -/
def segments (t : List Char) : List (List Char × Nat) :=
  (((t.splitOn '\n').map trim).zipIdx 1).filter fun p => p.1 ≠ []

theorem numberedLines_eq_map_segments (t : List Char) :
    numberedLines t = (segments t).map fun p => (p.2, p.1) := by
  rw [numberedLines_eq, segments,
    ← List.filterMap_eq_map (f := fun p : List Char × Nat => (p.2, p.1)), List.filterMap_filter]
  apply List.filterMap_congr
  rintro ⟨l, n⟩ -
  cases l <;> simp

theorem segments_pairwise (t : List Char) : (segments t).Pairwise fun p q => p.2 < q.2 := by
  apply List.Pairwise.filter
  rw [← List.pairwise_map (f := Prod.snd) (R := (· < ·)), List.zipIdx_map_snd]
  exact List.pairwise_lt_range'

end Text

/-! ## Compiling -/

namespace RawRule

/-- The rule is made from a segment that is cut at its only arrow. -/
def ReadFrom (raw : RawRule) (file : String) (p : List Char × Nat) : Prop :=
  ∃ i, arrowPlaces p.1 = [i] ∧
    raw = ⟨trim (p.1.take i), trim (p.1.drop (i + 2)), ⟨file, p.2⟩⟩

theorem ofLine_eq_ok_iff_readFrom {raw : RawRule} {file : String} {p : List Char × Nat} :
    ofLine p.1 ⟨file, p.2⟩ = .ok raw ↔ raw.ReadFrom file p := by
  unfold ReadFrom
  rw [ofLine, splitLine_eq]
  rcases arrowPlaces p.1 with _ | ⟨i, _ | ⟨j, rest⟩⟩
  · simp
  · simp [eq_comm (b := raw)]
  · simp

theorem ofText_eq (file : String) (t : List Char) :
    ofText file t = collect ((segments t).map fun p => ofLine p.1 ⟨file, p.2⟩) := by
  rw [ofText, numberedLines_eq_map_segments, List.map_map]
  rfl

end RawRule

/-- The segment is reported with its number, as one without an arrow or with several of them. -/
structure CompileError.Reports (e : CompileError) (file : String) (p : List Char × Nat) : Prop where
  location : e.location = ⟨file, p.2⟩
  fault : arrowPlaces p.1 = [] ∧ e.fault = .missingArrow p.1 ∨
    2 ≤ (arrowPlaces p.1).length ∧ e.fault = .extraArrow p.1

namespace RawRule

variable {file : String} {p : List Char × Nat}

theorem reports_of_ofLine {e : CompileError} (h : ofLine p.1 ⟨file, p.2⟩ = .error e) :
    e.Reports file p := by
  rw [ofLine, splitLine_eq] at h
  rcases hp : arrowPlaces p.1 with _ | ⟨i, _ | ⟨j, rest⟩⟩
  · simp only [hp] at h
    obtain rfl := Except.error.inj h
    exact ⟨rfl, Or.inl ⟨hp, rfl⟩⟩
  · simp [hp] at h
  · simp only [hp] at h
    obtain rfl := Except.error.inj h
    exact ⟨rfl, Or.inr ⟨by simp [hp], rfl⟩⟩

theorem map_line_of_reports {ps : List (List Char × Nat)} {errors : List CompileError}
    (h : List.Forall₂ (fun p e => CompileError.Reports e file p) ps errors) :
    errors.map (·.location.line) = ps.map (·.2) := by
  rw [← List.forall₂_eq_eq_eq, List.forall₂_map_left_iff, List.forall₂_map_right_iff]
  exact h.flip.imp fun _ _ hr => congrArg Location.line hr.location

theorem length_arrowPlaces_ne_one_iff (file : String) (p : List Char × Nat) :
    (arrowPlaces p.1).length ≠ 1 ↔ ∃ e, ofLine p.1 ⟨file, p.2⟩ = .error e := by
  rw [ofLine, splitLine_eq]
  rcases arrowPlaces p.1 with _ | ⟨i, _ | ⟨j, rest⟩⟩
  · simp
  · simp
  · simp

end RawRule

namespace Loading

theorem compile_crlf (file : String) (t : List Char) : compile file (crlf t) = compile file t := by
  rw [compile, RawRule.ofText, numberedLines_crlf]
  rfl

/-- **Malformed lines.** If all segments have exactly one arrow, compiling gives one rule for each
of them, with the two trimmed sides of the arrow and the number of the segment. Otherwise it gives
no rules but one error for each segment without an arrow or with several ones, in the order of
their numbers. Carriage returns before the newlines make no difference. -/
theorem compile_reports_malformed (file : String) (t : List Char) :
    ((∀ p ∈ segments t, (arrowPlaces p.1).length = 1) →
      ∃ raws, (compile file t).result = .ok raws ∧
        List.Forall₂ (fun p raw => RawRule.ReadFrom raw file p) (segments t) raws) ∧
    ((∃ p ∈ segments t, (arrowPlaces p.1).length ≠ 1) →
      ∃ errors, (compile file t).result = .error errors ∧
        List.Forall₂ (fun p e => CompileError.Reports e file p)
          ((segments t).filter fun p => (arrowPlaces p.1).length ≠ 1) errors ∧
        errors.Pairwise fun e e' => e.location.line < e'.location.line) ∧
    compile file (crlf t) = compile file t := by
  rw [result_compile, RawRule.ofText_eq]
  refine ⟨?_, ?_, compile_crlf file t⟩
  · intro good
    have readable : ∀ p ∈ segments t, ∃ raw, RawRule.ReadFrom raw file p := by
      intro p hp
      obtain ⟨i, hi⟩ := List.length_eq_one_iff.1 (good p hp)
      exact ⟨_, i, hi, rfl⟩
    obtain ⟨raws, hraws⟩ := exists_forall₂_iff.2 readable
    refine ⟨raws, ?_, hraws⟩
    rw [collect_map_eq_ok_iff]
    exact hraws.imp fun _ _ => RawRule.ofLine_eq_ok_iff_readFrom.2
  · intro some_bad
    obtain ⟨errors, failed, hfaults⟩ := collect_map_eq_error
      (fun p _ => RawRule.length_arrowPlaces_ne_one_iff file p) some_bad
    have reports := hfaults.imp fun _ _ => RawRule.reports_of_ofLine
    refine ⟨errors, failed, reports, ?_⟩
    have ordered := (segments_pairwise t).filter fun p => (arrowPlaces p.1).length ≠ 1
    rw [← List.pairwise_map (f := Prod.snd) (R := (· < ·)), ← RawRule.map_line_of_reports reports,
      List.pairwise_map] at ordered
    exact ordered

/-- A rule, a line without an arrow, an empty line, and one with two arrows. -/
theorem compile_reports_second_and_fourth :
    (∃ p ∈ segments "A->a\r\nS AB\n\nS->->".toList, (arrowPlaces p.1).length ≠ 1) ∧
    ∃ errors, (compile "" "A->a\r\nS AB\n\nS->->".toList).result = .error errors ∧
      errors.map (·.location.line) = [2, 4] := by
  have bad : ∃ p ∈ segments "A->a\r\nS AB\n\nS->->".toList, (arrowPlaces p.1).length ≠ 1 := by
    decide +kernel
  obtain ⟨errors, failed, reports, -⟩ :=
    (compile_reports_malformed "" "A->a\r\nS AB\n\nS->->".toList).2.1 bad
  refine ⟨bad, errors, failed, ?_⟩
  rw [RawRule.map_line_of_reports reports]
  decide +kernel

end Loading

end NormalGrammar

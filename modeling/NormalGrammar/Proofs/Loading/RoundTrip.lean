import NormalGrammar.Proofs.Loading.Format

/-!
# Printing rules and reading them again

The two sides of a rule that was read hold no newline and no arrow and are trimmed (`IsSide`),
and all such sides can be printed, one rule in each line, and read again. The blanks around the
printed arrow keep the sides from touching it, and each printed line has an arrow in it, so that
no line is empty, even if both sides are.
-/

namespace NormalGrammar

open Text

/-- The text can be one side of a rule in a line of its own. -/
structure Text.IsSide (t : List Char) : Prop where
  newline : '\n' ∉ t
  arrowFree : ArrowFree t
  trimmed : Trimmed t

theorem Text.isSide_of_isLetter {t : List Char} (h : ∀ c ∈ t, IsLetter c) : IsSide t where
  newline hmem := by
    have := (h '\n' hmem).isBlank
    revert this
    decide
  arrowFree := arrowFree_of_isLetter h
  trimmed := trimmed_of_isLetter h

/-- One character is too short for an arrow. -/
theorem Text.isSide_singleton {c : Char} (h : Unicode.isBlank c = false) : IsSide [c] where
  newline hmem := by
    rw [← List.mem_singleton.1 hmem] at h
    revert h
    decide
  arrowFree := arrowFree_cons_iff.2 ⟨fun _ => by simp, arrowFree_nil⟩
  trimmed := ⟨fun _ hd => Option.some.inj hd ▸ h, fun _ hd => Option.some.inj hd ▸ h⟩

namespace RawRule

/-- The rules one after the other, each in a line of its own. -/
def print (raws : List RawRule) : List Char := ['\n'].intercalate (raws.map text)

/-- The rules with the lines of a file for their places, from the first line on. -/
def located (file : String) (raws : List RawRule) : List RawRule :=
  (raws.zipIdx 1).map fun (raw, n) => { raw with location := ⟨file, n⟩ }

variable {raw : RawRule} {raws : List RawRule} {file : String} {t : List Char}

/-! ## One line -/

theorem isEmpty_trim_text (raw : RawRule) : (trim raw.text).isEmpty = false := by
  rw [isEmpty_trim, ← Bool.not_eq_true, List.all_eq_true]
  intro blank
  have := blank '-' (by simp [text_eq])
  revert this
  decide

theorem newline_not_mem_text (hl : IsSide raw.left) (hr : IsSide raw.right) :
    '\n' ∉ raw.text := by
  rw [text_eq]
  simp [hl.newline, hr.newline]

theorem splitLine_trim_text (hl : IsSide raw.left) (hr : IsSide raw.right) :
    splitLine (trim raw.text) = .ok (raw.left, raw.right) := by
  have blank : Blank [' '] := List.forall_mem_singleton.2 (by decide)
  rw [splitLine_trim_eq_ok_iff]
  refine ⟨raw.left ++ [' '], [' '] ++ raw.right, ?_, ?_, ?_, ?_, ?_⟩
  · simp [text_eq, arrow]
  · exact hl.arrowFree.append_blank blank
  · exact hr.arrowFree.blank_append blank
  · rw [trim_append_blank raw.left blank, trim_eq_self hl.trimmed]
  · rw [trim_blank_append blank raw.right, trim_eq_self hr.trimmed]

/-- What is read has sides that can be printed. -/
theorem isSide_of_splitLine {s l r : List Char} (hs : '\n' ∉ s)
    (h : splitLine (trim s) = .ok (l, r)) : IsSide l ∧ IsSide r := by
  obtain ⟨a, b, rfl, ha, hb, rfl, rfl⟩ := splitLine_trim_eq_ok_iff.1 h
  simp only [List.mem_append, not_or] at hs
  constructor
  · exact ⟨fun hmem => hs.1 ((trim_isInfix a).subset hmem), ha.of_isInfix (trim_isInfix a),
      trimmed_trim a⟩
  · exact ⟨fun hmem => hs.2.2 ((trim_isInfix b).subset hmem), hb.of_isInfix (trim_isInfix b),
      trimmed_trim b⟩

/-! ## All lines -/

theorem splitOn_print (h : ∀ raw ∈ raws, IsSide raw.left ∧ IsSide raw.right) (hne : raws ≠ []) :
    (print raws).splitOn '\n' = raws.map text := by
  apply List.splitOn_intercalate
  · intro line hline
    obtain ⟨raw, hraw, rfl⟩ := List.mem_map.1 hline
    exact newline_not_mem_text (h raw hraw).1 (h raw hraw).2
  · simpa using hne

/-- Every printed line is a line to be read. -/
theorem numberedLines_print (h : ∀ raw ∈ raws, IsSide raw.left ∧ IsSide raw.right) :
    numberedLines (print raws) = (raws.zipIdx 1).map fun (raw, n) => (n, trim raw.text) := by
  rcases raws with _ | ⟨raw, raws⟩
  · rfl
  · rw [numberedLines_eq, splitOn_print h (List.cons_ne_nil raw raws), List.map_map,
      ← List.map_zipIdx, List.filterMap_map, ← List.filterMap_eq_map]
    apply List.filterMap_congr
    intro p _
    show (if (trim p.1.text).isEmpty then none else some (p.2, trim p.1.text)) = _
    rw [isEmpty_trim_text]
    rfl

theorem ofText_print (h : ∀ raw ∈ raws, IsSide raw.left ∧ IsSide raw.right) (file : String) :
    ofText file (print raws) = .ok (located file raws) := by
  rw [ofText_eq_ok_iff, numberedLines_print h, located, List.forall₂_map_left_iff,
    List.forall₂_map_right_iff, List.forall₂_same]
  intro p hp
  obtain ⟨hl, hr⟩ := h p.1 (List.fst_mem_of_mem_zipIdx hp)
  exact ofLine_eq_ok_iff.2 ⟨splitLine_trim_text hl hr, rfl⟩

theorem isSide_of_ofText (h : ofText file t = .ok raws) :
    ∀ raw ∈ raws, IsSide raw.left ∧ IsSide raw.right := by
  intro raw hraw
  obtain ⟨p, hp, hline⟩ := exists_of_mem_right (ofText_eq_ok_iff.1 h) hraw
  have hp₂ : p.2 ∈ (written t).map trim := by
    rw [← map_snd_numberedLines]
    exact List.mem_map_of_mem hp
  obtain ⟨s, hs, e⟩ := List.mem_map.1 hp₂
  rw [← e] at hline
  exact isSide_of_splitLine (newline_not_mem_of_mem_splitOn (mem_written_iff.1 hs).1)
    (ofLine_eq_ok_iff.1 hline).1

end RawRule

/-! ## Grammars -/

/-- The rule as it is written. -/
def Rule.toRaw (r : Rule) : RawRule := ⟨[r.left], r.right.text, .unknown⟩

/-- The rules of the grammar, each in a line of its own. -/
def Grammar.print (g : Grammar) : List Char := RawRule.print (g.rules.map Rule.toRaw)

theorem Rule.isSide_toRaw {r : Rule} (h : r.Cased) :
    IsSide r.toRaw.left ∧ IsSide r.toRaw.right :=
  ⟨isSide_of_isLetter (List.forall_mem_singleton.2 (Or.inl h.left)),
    isSide_of_isLetter h.right.isLetter⟩

/-- Rules that were written have the right shape in whatever lines they stand. -/
theorem Rule.forall₂_located {rules : List Rule} (h : ∀ r ∈ rules, r.Cased) (file : String) :
    List.Forall₂ (fun raw r => Rule.ofRaw raw = .ok r)
      (RawRule.located file (rules.map Rule.toRaw)) rules := by
  have numbered : List.Forall₂ (fun (p q : Rule × Nat) =>
      Rule.ofRaw { p.1.toRaw with location := ⟨file, p.2⟩ } = .ok q.1)
      (rules.zipIdx 1) (rules.zipIdx 1) := by
    rw [List.forall₂_same]
    intro p hp
    exact Rule.ofRaw_eq_ok_iff.2 ⟨rfl, rfl, h p.1 (List.fst_mem_of_mem_zipIdx hp)⟩
  rw [← List.forall₂_map_right_iff (f := Prod.fst) (R := fun (p : Rule × Nat) r =>
    Rule.ofRaw { p.1.toRaw with location := ⟨file, p.2⟩ } = .ok r), List.zipIdx_map_fst] at numbered
  rwa [RawRule.located, ← List.map_zipIdx, List.forall₂_map_left_iff, List.forall₂_map_left_iff]

namespace Loading

theorem loadText_print {file : String} {t : List Char} {g : Grammar}
    (h : (loadText file t).result = .ok g) (file' : String) :
    (loadText file' g.print).result = .ok g := by
  obtain ⟨-, defined, start⟩ := loadText_eq_ok_iff.1 h
  have cased := cased_of_loadText h
  have sides : ∀ raw ∈ g.rules.map Rule.toRaw, IsSide raw.left ∧ IsSide raw.right := by
    intro raw hraw
    obtain ⟨r, hr, rfl⟩ := List.mem_map.1 hraw
    exact Rule.isSide_toRaw (cased r hr)
  refine result_loadText_eq_ok_iff.2 ⟨_, RawRule.ofText_print sides file', ?_⟩
  exact Grammar.ofRaw_eq_ok_iff.2 ⟨Rule.forall₂_located cased file', defined, start⟩

/-- **Round trip.** Rules whose sides can be printed are read as they were printed, in lines that
are counted from 1, and only such rules are ever read. Hence a grammar that was loaded is loaded
again from its printed rules. -/
theorem print_compile_inverse (file : String) :
    (∀ raws : List RawRule, (∀ raw ∈ raws, IsSide raw.left ∧ IsSide raw.right) →
      (compile file (RawRule.print raws)).result = .ok (RawRule.located file raws)) ∧
    (∀ t raws, (compile file t).result = .ok raws →
      ∀ raw ∈ raws, IsSide raw.left ∧ IsSide raw.right) ∧
    ∀ t g, (loadText file t).result = .ok g → (loadText file g.print).result = .ok g := by
  refine ⟨?_, ?_, ?_⟩
  · intro raws sides
    rw [result_compile]
    exact RawRule.ofText_print sides file
  · intro t raws h
    rw [result_compile] at h
    exact RawRule.isSide_of_ofText h
  · intro t g h
    exact loadText_print h file

/-- Sides that end and begin with a part of an arrow, and no sides at all. -/
theorem print_compile_broken_arrows :
    (∀ raw ∈ ([⟨['-'], ['>'], .unknown⟩, ⟨[], [], .unknown⟩] : List RawRule),
      IsSide raw.left ∧ IsSide raw.right) ∧
    (compile "" (RawRule.print [⟨['-'], ['>'], .unknown⟩, ⟨[], [], .unknown⟩])).result =
      .ok [⟨['-'], ['>'], ⟨"", 1⟩⟩, ⟨[], [], ⟨"", 2⟩⟩] := by
  have sides : ∀ raw ∈ ([⟨['-'], ['>'], .unknown⟩, ⟨[], [], .unknown⟩] : List RawRule),
      IsSide raw.left ∧ IsSide raw.right := by
    have dash : IsSide ['-'] := isSide_singleton (by decide)
    have angle : IsSide ['>'] := isSide_singleton (by decide)
    have none : IsSide [] := isSide_of_isLetter (List.forall_mem_nil _)
    simp [dash, angle, none]
  exact ⟨sides, (print_compile_inverse "").1 _ sides⟩

end Loading

end NormalGrammar

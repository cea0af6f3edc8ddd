import Mathlib.Data.List.DropRight
import NormalGrammar.Text.Lines

/-!
# What trimming leaves

A text is its trimmed core between two blank ends, and the core is the only trimmed text of which
this is true (`trim_eq_of_trimmed`). Hence blank ends may be added or removed before trimming. At
the end of a text, trimming is the library's `List.rdropWhile` (`trimEnd_eq_rdropWhile`), and what
it drops is `List.rtakeWhile`.
-/

namespace NormalGrammar.Text

/-- All characters are blank. -/
def Blank (t : List Char) : Prop := ∀ c ∈ t, Unicode.isBlank c = true

/-- The text does not start or end with a blank character. -/
def Trimmed (t : List Char) : Prop :=
  (∀ c ∈ t.head?, Unicode.isBlank c = false) ∧ ∀ c ∈ t.getLast?, Unicode.isBlank c = false

variable {s t u v : List Char}

theorem Blank.append (hu : Blank u) (hv : Blank v) : Blank (u ++ v) :=
  List.forall_mem_append.2 ⟨hu, hv⟩

theorem Blank.reverse (h : Blank t) : Blank t.reverse := by
  intro c hc
  exact h c (List.mem_reverse.1 hc)

/-! ## The start -/

theorem trimStart_eq_self (h : ∀ c ∈ t.head?, Unicode.isBlank c = false) : trimStart t = t := by
  rw [trimStart, List.dropWhile_eq_self_iff]
  intro ht
  have first : t.head? = some t[0] := by rw [List.head?_eq_getElem?, List.getElem?_eq_getElem ht]
  rw [h _ first]
  exact Bool.false_ne_true

theorem trimStart_append (hu : Blank u) (t : List Char) : trimStart (u ++ t) = trimStart t :=
  List.dropWhile_append_of_pos hu

theorem trimStart_eq_nil (hu : Blank u) : trimStart u = [] := List.dropWhile_eq_nil_iff.2 hu

theorem exists_eq_append_trimStart (t : List Char) : ∃ u, Blank u ∧ t = u ++ trimStart t :=
  ⟨t.takeWhile Unicode.isBlank, List.all_eq_true.1 List.all_takeWhile,
    List.takeWhile_append_dropWhile.symm⟩

theorem head?_trimStart (t : List Char) : ∀ c ∈ (trimStart t).head?, Unicode.isBlank c = false := by
  intro c hc
  have := List.head?_dropWhile_not Unicode.isBlank t
  rw [← trimStart, Option.mem_def.1 hc] at this
  exact this

/-! ## The end -/

theorem trimEnd_eq_rdropWhile (t : List Char) : trimEnd t = t.rdropWhile Unicode.isBlank := rfl

theorem trimEnd_eq_self (h : ∀ c ∈ t.getLast?, Unicode.isBlank c = false) : trimEnd t = t := by
  rw [trimEnd_eq_rdropWhile, List.rdropWhile_eq_self_iff]
  intro ht
  rw [h _ (List.getLast?_eq_some_getLast ht)]
  exact Bool.false_ne_true

theorem trimEnd_append (hv : Blank v) (t : List Char) : trimEnd (t ++ v) = trimEnd t := by
  unfold trimEnd
  rw [List.reverse_append, List.dropWhile_append_of_pos hv.reverse]

theorem exists_eq_trimEnd_append (t : List Char) : ∃ v, Blank v ∧ t = trimEnd t ++ v :=
  ⟨t.rtakeWhile Unicode.isBlank, fun _ => List.mem_rtakeWhile_imp,
    List.rdropWhile_append_rtakeWhile.symm⟩

theorem trimEnd_subset (t : List Char) : trimEnd t ⊆ t := (List.rdropWhile_prefix _ t).subset

theorem getLast?_trimEnd (t : List Char) :
    ∀ c ∈ (trimEnd t).getLast?, Unicode.isBlank c = false := by
  rw [trimEnd, List.getLast?_reverse]
  exact head?_trimStart t.reverse

/-! ## Both ends -/

theorem trim_eq_self (h : Trimmed t) : trim t = t := by
  rw [trim, trimStart_eq_self h.1, trimEnd_eq_self h.2]

/-- What is trimmed at its start stays so when its end is trimmed. -/
theorem trimmed_trim (t : List Char) : Trimmed (trim t) := by
  refine ⟨?_, getLast?_trimEnd _⟩
  intro c hc
  obtain ⟨v, -, h⟩ := exists_eq_trimEnd_append (trimStart t)
  apply head?_trimStart t
  rw [h, List.head?_append, ← trim, Option.mem_def.1 hc]
  rfl

theorem exists_eq_append_trim (t : List Char) :
    ∃ u v, Blank u ∧ Blank v ∧ t = u ++ trim t ++ v := by
  obtain ⟨u, hu, ht⟩ := exists_eq_append_trimStart t
  obtain ⟨v, hv, hs⟩ := exists_eq_trimEnd_append (trimStart t)
  refine ⟨u, v, hu, hv, ?_⟩
  rw [List.append_assoc, trim, ← hs]
  exact ht

theorem trim_isInfix (t : List Char) : trim t <:+: t := by
  obtain ⟨u, v, -, -, h⟩ := exists_eq_append_trim t
  exact ⟨u, v, h.symm⟩

/-- A trimmed text is what is left of it between blank ends. -/
theorem trim_eq_of_trimmed (hu : Blank u) (hs : Trimmed s) (hv : Blank v) :
    trim (u ++ s ++ v) = s := by
  rw [trim, List.append_assoc, trimStart_append hu]
  cases s with
  | nil =>
    rw [List.nil_append, trimStart_eq_nil hv]
    rfl
  | cons c s =>
    have hc : ∀ d ∈ (c :: s ++ v).head?, Unicode.isBlank d = false := hs.1
    rw [trimStart_eq_self hc, trimEnd_append hv, trimEnd_eq_self hs.2]

theorem trim_eq_nil_iff : trim t = [] ↔ Blank t := by
  constructor
  · intro h
    obtain ⟨u, v, hu, hv, ht⟩ := exists_eq_append_trim t
    rw [h, List.append_nil] at ht
    rw [ht]
    exact hu.append hv
  · intro h
    rw [trim, trimStart_eq_nil h]
    rfl

/-- Only the end of the text is trimmed, unless the end is blank. -/
theorem trimEnd_append_of_not_blank (h : ¬ Blank t) (s : List Char) :
    trimEnd (s ++ t) = s ++ trimEnd t := by
  obtain ⟨v, hv, ht⟩ := exists_eq_trimEnd_append t
  have rest : trimEnd t ≠ [] := mt List.rdropWhile_eq_nil_iff.1 h
  obtain ⟨d, hd⟩ := Option.ne_none_iff_exists'.1 (mt List.getLast?_eq_none_iff.1 rest)
  have last : ∀ c ∈ (s ++ trimEnd t).getLast?, Unicode.isBlank c = false := by
    rw [List.getLast?_append, hd, Option.some_or, ← hd]
    exact getLast?_trimEnd t
  calc trimEnd (s ++ t) = trimEnd (s ++ trimEnd t ++ v) := by rw [List.append_assoc, ← ht]
    _ = s ++ trimEnd t := by rw [trimEnd_append hv, trimEnd_eq_self last]

/-! ## Blank ends make no difference -/

theorem trim_blank_append (hu : Blank u) (t : List Char) : trim (u ++ t) = trim t := by
  unfold trim
  rw [trimStart_append hu]

theorem trim_append_blank (t : List Char) (hv : Blank v) : trim (t ++ v) = trim t := by
  obtain ⟨u, v', hu, hv', ht⟩ := exists_eq_append_trim t
  calc trim (t ++ v) = trim (u ++ trim t ++ (v' ++ v)) := by rw [← List.append_assoc, ← ht]
    _ = trim t := trim_eq_of_trimmed hu (trimmed_trim t) (hv'.append hv)

theorem trim_trimStart (t : List Char) : trim (trimStart t) = trim t := by
  obtain ⟨u, hu, ht⟩ := exists_eq_append_trimStart t
  calc trim (trimStart t) = trim (u ++ trimStart t) := (trim_blank_append hu _).symm
    _ = trim t := by rw [← ht]

theorem trim_trimEnd (t : List Char) : trim (trimEnd t) = trim t := by
  obtain ⟨v, hv, ht⟩ := exists_eq_trimEnd_append t
  calc trim (trimEnd t) = trim (trimEnd t ++ v) := (trim_append_blank _ hv).symm
    _ = trim t := by rw [← ht]

end NormalGrammar.Text

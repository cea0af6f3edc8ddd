import Mathlib.Data.List.Forall2
import NormalGrammar.Proofs.Text.Trimming
import NormalGrammar.Text.Lines

/-!
# Lines and segments

The segments of a text are what stands between its newlines. A line is a segment without the
carriage return at its end, and the last segment is no line if it is empty. Neither makes a
difference once the lines are trimmed and the empty ones left out (`numberedLines_eq`), and nor do
further carriage returns before the newlines (`numberedLines_crlf`).
-/

namespace NormalGrammar.Text

variable {c : Char} {l s t : List Char} {ls ss : List (List Char)}

/-! ## Segments -/

theorem splitOn_newline_cons (t : List Char) :
    ('\n' :: t).splitOn '\n' = [] :: t.splitOn '\n' := by
  rw [List.splitOn_cons_eq_if_modifyHead, if_pos (beq_self_eq_true _)]

theorem splitOn_cons {d : Char} (hc : c ≠ d) (h : t.splitOn d = s :: ss) :
    (c :: t).splitOn d = (c :: s) :: ss := by
  rw [List.splitOn_cons_eq_if_modifyHead, if_neg (by simpa using hc), h, List.modifyHead_cons]

theorem newline_not_mem_of_mem_splitOn (h : s ∈ t.splitOn '\n') : '\n' ∉ s := by
  induction t generalizing s with
  | nil =>
    rw [List.splitOn_nil, List.mem_singleton] at h
    rw [h]
    exact List.not_mem_nil
  | cons c t ih =>
    by_cases hc : c = '\n'
    · rw [hc, splitOn_newline_cons, List.mem_cons] at h
      rcases h with rfl | h
      · exact List.not_mem_nil
      · exact ih h
    · obtain ⟨s', ss, ht⟩ := List.exists_cons_of_ne_nil (List.splitOn_ne_nil '\n' t)
      rw [splitOn_cons hc ht, List.mem_cons] at h
      rw [ht] at ih
      rcases h with rfl | h
      · rw [List.mem_cons, not_or]
        exact ⟨Ne.symm hc, ih List.mem_cons_self⟩
      · exact ih (List.mem_cons_of_mem _ h)

/-! ## Lines -/

/-- The line is what is left of the segment without some blank characters at its end. -/
def LineOf (l s : List Char) : Prop := ∃ b, Blank b ∧ s = l ++ b

theorem LineOf.refl (s : List Char) : LineOf s s :=
  ⟨[], List.forall_mem_nil _, (List.append_nil s).symm⟩

theorem LineOf.cons (h : LineOf l s) (c : Char) : LineOf (c :: l) (c :: s) := by
  obtain ⟨b, hb, rfl⟩ := h
  exact ⟨b, hb, rfl⟩

theorem LineOf.trim_eq (h : LineOf l s) : trim l = trim s := by
  obtain ⟨b, hb, rfl⟩ := h
  exact (trim_append_blank l hb).symm

theorem map_trim_eq_of_lineOf (h : List.Forall₂ LineOf ls ss) : ls.map trim = ss.map trim := by
  rw [← List.forall₂_eq_eq_eq, List.forall₂_map_left_iff, List.forall₂_map_right_iff]
  exact h.imp fun _ _ hl => hl.trim_eq

/-- Each segment has its line, but for empty ones at the end of the text. -/
theorem exists_forall₂_lineOf (t : List Char) : ∃ extra : List (List Char),
    (∀ l ∈ extra, l = []) ∧ List.Forall₂ LineOf (lines t ++ extra) (t.splitOn '\n') := by
  fun_induction lines t with
  | case1 => exact ⟨[[]], List.forall_mem_singleton.2 rfl, .cons (.refl []) .nil⟩
  | case2 t ih =>
    obtain ⟨extra, empty, ih⟩ := ih
    rw [splitOn_newline_cons]
    exact ⟨extra, empty, .cons (.refl []) ih⟩
  | case3 t ih =>
    obtain ⟨extra, empty, ih⟩ := ih
    rw [splitOn_cons (by decide) (splitOn_newline_cons t)]
    have cr : LineOf [] ['\r'] := ⟨['\r'], List.forall_mem_singleton.2 (by decide), rfl⟩
    exact ⟨extra, empty, .cons cr ih⟩
  | case4 c t hc _ none ih =>
    obtain ⟨extra, empty, ih⟩ := ih
    obtain ⟨s, ss, ht⟩ := List.exists_cons_of_ne_nil (List.splitOn_ne_nil '\n' t)
    rw [none, ht] at ih
    rw [splitOn_cons hc ht]
    cases ih with
    | @cons l _ extra' _ hl hls =>
      obtain ⟨rfl, empty'⟩ := List.forall_mem_cons.1 empty
      exact ⟨extra', empty', .cons (hl.cons c) hls⟩
  | case5 c t hc _ l ls some ih =>
    obtain ⟨extra, empty, ih⟩ := ih
    obtain ⟨s, ss, ht⟩ := List.exists_cons_of_ne_nil (List.splitOn_ne_nil '\n' t)
    rw [some, ht] at ih
    rw [splitOn_cons hc ht]
    cases ih with
    | cons hl hls => exact ⟨extra, empty, .cons (hl.cons c) hls⟩

/-- The trimmed segments that are not empty, with their numbers, are the lines to be read. -/
theorem numberedLines_eq (t : List Char) :
    numberedLines t = (((t.splitOn '\n').map trim).zipIdx 1).filterMap
      fun (l, n) => if l.isEmpty then none else some (n, l) := by
  obtain ⟨extra, empty, h⟩ := exists_forall₂_lineOf t
  have trimmed : (t.splitOn '\n').map trim = (lines t).map trim ++ extra.map trim := by
    rw [← List.map_append, map_trim_eq_of_lineOf h]
  have none : ∀ p ∈ (extra.map trim).zipIdx (1 + ((lines t).map trim).length),
      (if p.1.isEmpty then none else some (p.2, p.1)) = none := by
    intro p hp
    obtain ⟨l, hl, e⟩ := List.mem_map.1 (List.fst_mem_of_mem_zipIdx hp)
    rw [← e, empty l hl]
    rfl
  rw [trimmed, List.zipIdx_append, List.filterMap_append, List.filterMap_eq_nil_iff.2 none,
    List.append_nil, numberedLines]

/-! ## Line endings -/

/-- The text with a carriage return before every newline. -/
def crlf (t : List Char) : List Char := t.flatMap fun c => if c = '\n' then ['\r', '\n'] else [c]

theorem crlf_newline (t : List Char) : crlf ('\n' :: t) = '\r' :: '\n' :: crlf t := rfl

theorem crlf_cons (hc : c ≠ '\n') (t : List Char) : crlf (c :: t) = c :: crlf t := by
  rw [crlf, List.flatMap_cons, if_neg hc]
  rfl

/-- Each segment but the last one gets a carriage return at its end. -/
theorem forall₂_lineOf_crlf (t : List Char) :
    List.Forall₂ LineOf (t.splitOn '\n') ((crlf t).splitOn '\n') := by
  induction t with
  | nil => exact .cons (.refl []) .nil
  | cons c t ih =>
    by_cases hc : c = '\n'
    · have cr : LineOf [] ['\r'] := ⟨['\r'], List.forall_mem_singleton.2 (by decide), rfl⟩
      rw [hc, crlf_newline, splitOn_newline_cons, splitOn_cons (by decide) (splitOn_newline_cons _)]
      exact .cons cr ih
    · obtain ⟨s, ss, ht⟩ := List.exists_cons_of_ne_nil (List.splitOn_ne_nil '\n' t)
      obtain ⟨s', ss', ht'⟩ := List.exists_cons_of_ne_nil (List.splitOn_ne_nil '\n' (crlf t))
      rw [ht, ht', List.forall₂_cons] at ih
      rw [crlf_cons hc, splitOn_cons hc ht, splitOn_cons hc ht']
      exact .cons (ih.1.cons c) ih.2

theorem numberedLines_crlf (t : List Char) : numberedLines (crlf t) = numberedLines t := by
  rw [numberedLines_eq, numberedLines_eq, map_trim_eq_of_lineOf (forall₂_lineOf_crlf t)]

/-! ## Written segments -/

/-- The segments that are not blank. -/
def written (t : List Char) : List (List Char) :=
  (t.splitOn '\n').filter fun s => !s.all Unicode.isBlank

theorem mem_written_iff : s ∈ written t ↔ s ∈ t.splitOn '\n' ∧ ¬ Blank s := by
  unfold written Blank
  simp

theorem isEmpty_trim (s : List Char) : (trim s).isEmpty = s.all Unicode.isBlank := by
  rw [Bool.eq_iff_iff, List.isEmpty_iff, trim_eq_nil_iff, List.all_eq_true]
  rfl

/-- The lines to be read are the trimmed written segments. -/
theorem map_snd_numberedLines (t : List Char) :
    (numberedLines t).map (·.2) = (written t).map trim := by
  have forget : ∀ (ls : List (List Char)) (n : Nat),
      ((ls.zipIdx n).filterMap fun (l, n) => if l.isEmpty then none else some (n, l)).map (·.2) =
        ls.filter fun l => !l.isEmpty := by
    intro ls
    induction ls with
    | nil =>
      intro n
      rfl
    | cons l ls ih =>
      intro n
      rw [List.zipIdx_cons, List.filterMap_cons, List.filter_cons, ← ih (n + 1)]
      cases h : l.isEmpty <;> simp [h]
  rw [numberedLines_eq, forget, written, List.filter_map]
  simp only [Function.comp_def, isEmpty_trim]

end NormalGrammar.Text

import NormalGrammar.Loading
import NormalGrammar.Proofs.Text.Trimming

/-!
# Cutting a line at its arrow

The two characters of an arrow differ, so an arrow that stands between two texts without arrows
is the only one in the line (`cutArrows_append`), whatever characters it touches. Conversely the
pieces of a line have no arrows and make up the line again (`cutArrows_spec`). Blank ends of the
line belong to its sides and are trimmed with them (`splitLine_trim_eq_ok_iff`).
-/

namespace NormalGrammar

namespace Text

/-- No arrow is in the text. -/
def ArrowFree (t : List Char) : Prop := ¬ arrow <:+: t

variable {a b t : List Char} {c : Char}

theorem arrowFree_nil : ArrowFree [] := by
  unfold ArrowFree arrow
  simp

theorem arrow_isPrefix_cons_iff : arrow <+: c :: t ↔ c = '-' ∧ t.head? = some '>' := by
  unfold arrow
  cases t <;> simp [List.cons_prefix_cons, eq_comm]

/-- A dash in front makes an arrow only of what begins with a greater-than sign. -/
theorem arrowFree_cons_iff :
    ArrowFree (c :: t) ↔ (c = '-' → t.head? ≠ some '>') ∧ ArrowFree t := by
  unfold ArrowFree
  rw [List.infix_cons_iff, arrow_isPrefix_cons_iff, not_or, not_and]

theorem arrowFree_of_not_mem (h : '-' ∉ t) : ArrowFree t := by
  rintro ⟨u, v, rfl⟩
  simp [arrow] at h

theorem ArrowFree.of_isInfix (h : ArrowFree t) (ha : a <:+: t) : ArrowFree a :=
  fun harrow => h (harrow.trans ha)

theorem head?_append_ne {d : Char} (ha : a.head? ≠ some d) (hb : b.head? ≠ some d) :
    (a ++ b).head? ≠ some d := by
  cases a with
  | nil => exact hb
  | cons e a => exact ha

theorem ArrowFree.append (ha : ArrowFree a) (hb : ArrowFree b) (h : b.head? ≠ some '>') :
    ArrowFree (a ++ b) := by
  induction a with
  | nil => exact hb
  | cons c a ih =>
    rw [arrowFree_cons_iff] at ha
    rw [List.cons_append, arrowFree_cons_iff]
    exact ⟨fun hc => head?_append_ne (ha.1 hc) h, ih ha.2⟩

theorem Blank.not_mem (h : Blank t) (hc : Unicode.isBlank c = false) : c ∉ t := by
  intro hmem
  rw [h c hmem] at hc
  cases hc

theorem ArrowFree.append_blank (ha : ArrowFree a) (hb : Blank b) : ArrowFree (a ++ b) := by
  apply ha.append (arrowFree_of_not_mem (hb.not_mem (by decide)))
  intro h
  exact hb.not_mem (by decide) (List.mem_of_mem_head? h)

theorem ArrowFree.blank_append (ha : ArrowFree a) (hb : Blank b) : ArrowFree (b ++ a) := by
  induction b with
  | nil => exact ha
  | cons c b ih =>
    obtain ⟨hc, hb⟩ := List.forall_mem_cons.1 hb
    rw [List.cons_append, arrowFree_cons_iff]
    refine ⟨?_, ih hb⟩
    rintro rfl
    exact absurd hc (by decide)

/-! ## Pieces -/

theorem cutArrows_arrow_append (b : List Char) :
    cutArrows (arrow ++ b) = ([], (cutArrows b).1 :: (cutArrows b).2) := rfl

theorem cutArrows_cons (h : c = '-' → t.head? ≠ some '>') :
    cutArrows (c :: t) = (c :: (cutArrows t).1, (cutArrows t).2) := by
  rw [cutArrows]
  rintro s rfl rfl
  exact h rfl rfl

/-- A text without arrows stays whole, unless what follows joins it to an arrow. -/
theorem cutArrows_append (ha : ArrowFree a) (hb : b.head? ≠ some '>') :
    cutArrows (a ++ b) = (a ++ (cutArrows b).1, (cutArrows b).2) := by
  induction a with
  | nil => rfl
  | cons c a ih =>
    rw [arrowFree_cons_iff] at ha
    rw [List.cons_append, cutArrows_cons fun hc => head?_append_ne (ha.1 hc) hb, ih ha.2,
      List.cons_append]

theorem cutArrows_of_arrowFree (ha : ArrowFree a) : cutArrows a = (a, []) := by
  have := cutArrows_append ha (b := []) (by simp)
  rwa [List.append_nil, cutArrows, List.append_nil] at this

/-- The pieces are without arrows, and with the arrows between them they are the text. -/
theorem cutArrows_spec (t : List Char) :
    ArrowFree (cutArrows t).1 ∧ (∀ p ∈ (cutArrows t).2, ArrowFree p) ∧
      t = (cutArrows t).1 ++ ((cutArrows t).2.map (arrow ++ ·)).flatten := by
  fun_induction cutArrows t with
  | case1 => exact ⟨arrowFree_nil, List.forall_mem_nil _, rfl⟩
  | case2 t p ps h ih =>
    rw [h] at ih
    obtain ⟨hp, hps, ht⟩ := ih
    refine ⟨arrowFree_nil, List.forall_mem_cons.2 ⟨hp, hps⟩, ?_⟩
    show '-' :: '>' :: t = '-' :: '>' :: (p ++ (ps.map (arrow ++ ·)).flatten)
    rw [← ht]
  | case3 c t alone p ps h ih =>
    rw [h] at ih
    obtain ⟨hp, hps, ht⟩ := ih
    refine ⟨arrowFree_cons_iff.2 ⟨?_, hp⟩, hps, congrArg (c :: ·) ht⟩
    -- the piece begins as the text does, and there no arrow was found
    rintro hc hd
    obtain ⟨s, rfl⟩ := List.head?_eq_some_iff.1 hd
    exact alone _ hc ht

/-- A line has one arrow if and only if the arrow stands between two texts without arrows. -/
theorem cutArrows_eq_iff : cutArrows t = (a, [b]) ↔
    t = a ++ (arrow ++ b) ∧ ArrowFree a ∧ ArrowFree b := by
  constructor
  · intro h
    obtain ⟨ha, hb, ht⟩ := cutArrows_spec t
    rw [h] at ha hb ht
    exact ⟨by simpa using ht, ha, hb b List.mem_cons_self⟩
  · rintro ⟨rfl, ha, hb⟩
    rw [cutArrows_append ha (by simp [arrow]), cutArrows_arrow_append, cutArrows_of_arrowFree hb,
      List.append_nil]

example : cutArrows ['-', '-', '>', '>'] = (['-'], [['>']]) := by decide

end Text

namespace RawRule

open Text

variable {a b l r s : List Char}

theorem splitLine_eq_ok_iff : splitLine s = .ok (l, r) ↔
    ∃ a b, s = a ++ (arrow ++ b) ∧ ArrowFree a ∧ ArrowFree b ∧ trim a = l ∧ trim b = r := by
  have cut : splitLine s = .ok (l, r) ↔
      ∃ a b, cutArrows s = (a, [b]) ∧ trim a = l ∧ trim b = r := by
    unfold splitLine
    rcases cutArrows s with ⟨a, _ | ⟨b, _ | ⟨b', bs⟩⟩⟩
    · simp
    · simp only [Except.ok.injEq, Prod.mk.injEq, List.cons.injEq, and_true]
      constructor
      · intro h
        exact ⟨a, b, ⟨rfl, rfl⟩, h⟩
      · rintro ⟨_, _, ⟨rfl, rfl⟩, h⟩
        exact h
    · simp
  simp only [cut, cutArrows_eq_iff, and_assoc]

theorem trimmed_append_arrow_append (ha : ∀ c ∈ a.head?, Unicode.isBlank c = false)
    (hb : ∀ c ∈ b.getLast?, Unicode.isBlank c = false) : Trimmed (a ++ (arrow ++ b)) := by
  constructor
  · intro c hc
    cases a with
    | nil =>
      obtain rfl : '-' = c := Option.some.inj hc
      decide
    | cons d a => exact ha c hc
  · intro c hc
    rw [List.getLast?_append, List.getLast?_append] at hc
    rcases h : b.getLast? with _ | d
    · rw [h] at hc
      obtain rfl : '>' = c := Option.some.inj hc
      decide
    · rw [h] at hc
      exact hb c (h.trans hc)

/-- The arrow keeps trimming at one end off the side at the other end. -/
theorem trim_append_arrow_append (a b : List Char) :
    trim (a ++ (arrow ++ b)) = trimStart a ++ (arrow ++ trimEnd b) := by
  obtain ⟨u, hu, ha⟩ := exists_eq_append_trimStart a
  obtain ⟨v, hv, hb⟩ := exists_eq_trimEnd_append b
  have core := trimmed_append_arrow_append (head?_trimStart a) (getLast?_trimEnd b)
  calc trim (a ++ (arrow ++ b))
      = trim ((u ++ trimStart a) ++ (arrow ++ (trimEnd b ++ v))) := by rw [← ha, ← hb]
    _ = trim (u ++ (trimStart a ++ (arrow ++ trimEnd b)) ++ v) := by
      simp only [List.append_assoc]
    _ = _ := trim_eq_of_trimmed hu core hv

/-- Trimming the line first leaves its sides as they are. -/
theorem splitLine_trim_eq_ok_iff : splitLine (trim s) = .ok (l, r) ↔
    ∃ a b, s = a ++ (arrow ++ b) ∧ ArrowFree a ∧ ArrowFree b ∧ trim a = l ∧ trim b = r := by
  rw [splitLine_eq_ok_iff]
  constructor
  · rintro ⟨a, b, hs, ha, hb, hl, hr⟩
    obtain ⟨u, v, hu, hv, h⟩ := exists_eq_append_trim s
    refine ⟨u ++ a, b ++ v, ?_, ha.blank_append hu, hb.append_blank hv, ?_, ?_⟩
    · rw [h, hs]
      simp only [List.append_assoc]
    · rw [trim_blank_append hu, hl]
    · rw [trim_append_blank b hv, hr]
  · rintro ⟨a, b, rfl, ha, hb, hl, hr⟩
    obtain ⟨u, -, hu⟩ := exists_eq_append_trimStart a
    obtain ⟨v, -, hv⟩ := exists_eq_trimEnd_append b
    refine ⟨trimStart a, trimEnd b, trim_append_arrow_append a b, ?_, ?_, ?_, ?_⟩
    · exact ha.of_isInfix ⟨u, [], by rw [List.append_nil, ← hu]⟩
    · exact hb.of_isInfix ⟨[], v, by rw [List.nil_append, ← hv]⟩
    · rw [trim_trimStart, hl]
    · rw [trim_trimEnd, hr]

theorem ofLine_eq_ok_iff {line : List Char} {location : Location} {raw : RawRule} :
    ofLine line location = .ok raw ↔
      splitLine line = .ok (raw.left, raw.right) ∧ raw.location = location := by
  obtain ⟨left, right, place⟩ := raw
  unfold ofLine
  rcases splitLine line with fault | ⟨l, r⟩
  · simp
  · simp [and_assoc, eq_comm (a := location)]

end RawRule

end NormalGrammar

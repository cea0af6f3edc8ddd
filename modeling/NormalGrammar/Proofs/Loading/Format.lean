import NormalGrammar.Loading
import NormalGrammar.Proofs.Text.Cutting
import NormalGrammar.Proofs.Text.Segments
import NormalGrammar.Proofs.Validation

/-!
# The format of a grammar's text

A segment writes a rule if it is the rule's left side, an arrow and the rule's right side, with
blank characters wherever they are wanted around the three (`Rule.WrittenAs`). This is what the
two steps of reading a segment accept (`Rule.writtenAs_iff`), and so a text is loaded if each of
its written segments writes a rule and each nonterminal in use has one. The nonterminals of a
right side are its uppercase characters (`Production.Cased.mem_nonterminals_iff`).
-/

namespace NormalGrammar

open Text

/-! ## Letters in a text -/

namespace Text

variable {t : List Char}

theorem trimmed_of_isLetter (h : ∀ c ∈ t, IsLetter c) : Trimmed t :=
  ⟨fun c hc => (h c (List.mem_of_mem_head? hc)).isBlank,
    fun c hc => (h c (List.mem_of_mem_getLast? hc)).isBlank⟩

theorem arrowFree_of_isLetter (h : ∀ c ∈ t, IsLetter c) : ArrowFree t :=
  arrowFree_of_not_mem fun hmem => (h '-' hmem).ne_dash rfl

end Text

/-! ## Segments that write a rule -/

/-- The segment shows the sides of the rule around an arrow, with blank characters around each of
the three. Its symbols have the case of their kind. -/
structure Rule.WrittenAs (r : Rule) (s : List Char) : Prop where
  cased : r.Cased
  layout : ∃ u v w z, Blank u ∧ Blank v ∧ Blank w ∧ Blank z ∧
    s = (u ++ [r.left] ++ v) ++ (arrow ++ (w ++ r.right.text ++ z))

/-- The line falls into the two sides of the rule. -/
def Rule.ReadFrom (r : Rule) (line : List Char) : Prop :=
  RawRule.splitLine line = .ok ([r.left], r.right.text) ∧ r.Cased

variable {q r : Rule} {s : List Char}

/-- A segment writes the rule that is read from its trimmed line. -/
theorem Rule.writtenAs_iff : r.WrittenAs s ↔ r.ReadFrom (trim s) := by
  unfold ReadFrom
  rw [RawRule.splitLine_trim_eq_ok_iff]
  constructor
  · rintro ⟨cased, u, v, w, z, hu, hv, hw, hz, rfl⟩
    have left : ∀ c ∈ [r.left], IsLetter c := List.forall_mem_singleton.2 (Or.inl cased.left)
    have right := cased.right.isLetter
    refine ⟨⟨_, _, rfl, ?_, ?_, ?_, ?_⟩, cased⟩
    · exact ((arrowFree_of_isLetter left).blank_append hu).append_blank hv
    · exact ((arrowFree_of_isLetter right).blank_append hw).append_blank hz
    · exact trim_eq_of_trimmed hu (trimmed_of_isLetter left) hv
    · exact trim_eq_of_trimmed hw (trimmed_of_isLetter right) hz
  · rintro ⟨⟨a, b, rfl, -, -, ha, hb⟩, cased⟩
    obtain ⟨u, v, hu, hv, ea⟩ := exists_eq_append_trim a
    obtain ⟨w, z, hw, hz, eb⟩ := exists_eq_append_trim b
    rw [ha] at ea
    rw [hb] at eb
    exact ⟨cased, u, v, w, z, hu, hv, hw, hz, by rw [← ea, ← eb]⟩

theorem Production.text_injective {p p' : Production} (h : p.text = p'.text) : p = p' := by
  cases p <;> cases p' <;> simp_all [Production.text]

theorem Rule.WrittenAs.unique (hq : q.WrittenAs s) (hr : r.WrittenAs s) : q = r := by
  obtain ⟨x, p⟩ := q
  obtain ⟨y, p'⟩ := r
  have h := (Rule.writtenAs_iff.1 hq).1
  rw [(Rule.writtenAs_iff.1 hr).1] at h
  obtain ⟨hl, hp⟩ := Prod.mk.inj (Except.ok.inj h)
  rw [Rule.mk.injEq]
  exact ⟨(List.singleton_inj.1 hl).symm, (Production.text_injective hp).symm⟩

/-- Both steps of reading a line succeed if the line falls into the two sides of a rule. -/
theorem Rule.exists_ofLine_iff {line : List Char} {location : Location} :
    (∃ raw, RawRule.ofLine line location = .ok raw ∧ Rule.ofRaw raw = .ok r) ↔
      r.ReadFrom line := by
  unfold ReadFrom
  simp only [RawRule.ofLine_eq_ok_iff, Rule.ofRaw_eq_ok_iff]
  constructor
  · rintro ⟨⟨_, _, _⟩, ⟨h, -⟩, rfl, rfl, cased⟩
    exact ⟨h, cased⟩
  · rintro ⟨h, cased⟩
    exact ⟨⟨[r.left], r.right.text, location⟩, ⟨h, rfl⟩, rfl, rfl, cased⟩

/-! ## Loading -/

theorem Report.result_bind_eq_ok_iff {ε α β : Type} {r : Report ε α} {f : α → Report ε β} {b : β} :
    (r >>= f).result = .ok b ↔ ∃ a, r.result = .ok a ∧ (f a).result = .ok b := by
  rcases h : r.result with e | a
  · simp [Report.bind_of_error h]
  · simp [Report.bind_of_ok h]

namespace Loading

variable {file : String} {t : List Char} {raws : List RawRule} {g : Grammar}

theorem result_compile (file : String) (t : List Char) :
    (compile file t).result = RawRule.ofText file t := by
  unfold compile
  rcases h : RawRule.ofText file t with e | raws
  · rw [Report.bind_of_error (e := e) rfl]
  · rw [Report.bind_of_ok (a := raws) rfl]
    rfl

theorem result_validate (raws : List RawRule) :
    (validate raws).result = Grammar.ofRaw raws := by
  unfold validate
  rcases h : Grammar.ofRaw raws with e | g
  · rw [Report.bind_of_error (e := e) rfl]
  · rw [Report.bind_of_ok (a := g) rfl]
    rfl

theorem result_loadText_eq_ok_iff : (loadText file t).result = .ok g ↔
    ∃ raws, RawRule.ofText file t = .ok raws ∧ Grammar.ofRaw raws = .ok g := by
  unfold loadText
  simp only [Report.result_bind_eq_ok_iff, result_compile, result_validate]

end Loading

theorem RawRule.ofText_eq_ok_iff {file : String} {t : List Char} {raws : List RawRule} :
    ofText file t = .ok raws ↔ List.Forall₂
      (fun (p : Nat × List Char) raw => ofLine p.2 ⟨file, p.1⟩ = .ok raw) (numberedLines t) raws := by
  unfold ofText
  exact collect_map_eq_ok_iff

namespace Loading

/-- The rules of the grammar are those that the written segments write, in the same order. -/
theorem loadText_eq_ok_iff {file : String} {t : List Char} {g : Grammar} :
    (loadText file t).result = .ok g ↔
      List.Forall₂ (fun s r => Rule.WrittenAs r s) (written t) g.rules ∧ AllDefined g.rules ∧
        g.start = Grammar.defaultStart := by
  have lines : (∃ raws, RawRule.ofText file t = .ok raws ∧
        List.Forall₂ (fun raw r => Rule.ofRaw raw = .ok r) raws g.rules) ↔
      List.Forall₂ (fun s r => Rule.WrittenAs r s) (written t) g.rules := by
    simp only [RawRule.ofText_eq_ok_iff, exists_forall₂_and_iff, Rule.exists_ofLine_iff,
      Rule.writtenAs_iff]
    rw [← List.forall₂_map_left_iff (R := fun l (r : Rule) => r.ReadFrom l) (f := Prod.snd),
      map_snd_numberedLines, List.forall₂_map_left_iff]
  rw [result_loadText_eq_ok_iff, ← lines]
  simp only [Grammar.ofRaw_eq_ok_iff]
  constructor
  · rintro ⟨raws, ht, hraws, rest⟩
    exact ⟨⟨raws, ht, hraws⟩, rest⟩
  · rintro ⟨⟨raws, ht, hraws⟩, rest⟩
    exact ⟨raws, ht, hraws, rest⟩

/-- The symbols of a loaded grammar have the case of their kind. -/
theorem cased_of_loadText {file : String} {t : List Char} {g : Grammar}
    (h : (loadText file t).result = .ok g) : ∀ r ∈ g.rules, r.Cased := by
  intro r hr
  obtain ⟨s, -, hw⟩ := exists_of_mem_right (loadText_eq_ok_iff.1 h).1 hr
  exact hw.cased

/-- **The format.** A text is loaded if and only if each segment that is not blank writes a rule
and each uppercase character on the right side of one of these rules is the left side of one of
them. The grammar then has the rules that the segments write, in order and with repetitions, and
starts with `S`. -/
theorem loads_iff_written (file : String) (t : List Char) :
    ((∃ g, (loadText file t).result = .ok g) ↔
      (∀ s ∈ written t, ∃ r : Rule, r.WrittenAs s) ∧
      ∀ s ∈ written t, ∀ r : Rule, r.WrittenAs s →
        ∀ x ∈ r.right.text, Unicode.isUppercase x = true →
          ∃ s' ∈ written t, ∃ r' : Rule, r'.WrittenAs s' ∧ r'.left = x) ∧
    ∀ g, (loadText file t).result = .ok g →
      List.Forall₂ (fun s r => Rule.WrittenAs r s) (written t) g.rules ∧ g.start = 'S' := by
  constructor
  · constructor
    · rintro ⟨g, hg⟩
      obtain ⟨hrules, defined, -⟩ := loadText_eq_ok_iff.1 hg
      refine ⟨exists_forall₂_iff.1 ⟨_, hrules⟩, ?_⟩
      intro s hs r hr x hx upper
      obtain ⟨r₁, hr₁, hs₁⟩ := exists_of_mem_left hrules hs
      obtain rfl := hr.unique hs₁
      obtain ⟨q, hq, rfl⟩ := defined r hr₁ x (hr.cased.right.mem_nonterminals_iff.2 ⟨hx, upper⟩)
      obtain ⟨s', hs', hw⟩ := exists_of_mem_right hrules hq
      exact ⟨s', hs', q, hw, rfl⟩
    · rintro ⟨all, defined⟩
      obtain ⟨rules, hrules⟩ := exists_forall₂_iff.2 all
      refine ⟨Grammar.ofRules rules, loadText_eq_ok_iff.2 ⟨hrules, ?_, rfl⟩⟩
      intro r hr x hx
      obtain ⟨s, hs, hw⟩ := exists_of_mem_right hrules hr
      obtain ⟨shown, upper⟩ := hw.cased.right.mem_nonterminals_iff.1 hx
      obtain ⟨s', hs', q, hq, rfl⟩ := defined s hs r hw x shown upper
      obtain ⟨q', hq', hw'⟩ := exists_of_mem_left hrules hs'
      obtain rfl := hq.unique hw'
      exact ⟨q, hq', rfl⟩
  · intro g hg
    obtain ⟨hrules, -, start⟩ := loadText_eq_ok_iff.1 hg
    exact ⟨hrules, start⟩

end Loading

end NormalGrammar

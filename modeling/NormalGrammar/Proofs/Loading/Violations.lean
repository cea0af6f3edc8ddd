import NormalGrammar.Proofs.Loading.Format

/-!
# Violations of the normal form

The shapes of all rules are checked first, and one fault is reported for each rule whose shape is
wrong. Only if there is none, the nonterminals without rules are reported, rule by rule. The two
phases look at the same rules side by side, for the first one has dropped none
(`undefinedSymbols_eq`).
-/

namespace NormalGrammar

/-! ## Shapes -/

namespace RawRule

/-- The left side is one uppercase character. -/
def LeftShaped (raw : RawRule) : Prop := ∃ x, raw.left = [x] ∧ Unicode.isUppercase x = true

/-- The right side is one lowercase character or two uppercase ones. -/
def RightShaped (raw : RawRule) : Prop :=
  (∃ c, raw.right = [c] ∧ Unicode.isLowercase c = true) ∨
    ∃ b c, raw.right = [b, c] ∧ Unicode.isUppercase b = true ∧ Unicode.isUppercase c = true

theorem leftShaped_iff (raw : RawRule) :
    raw.LeftShaped ↔ (Rule.leftSide? raw.left).isSome = true := by
  simp only [LeftShaped, Option.isSome_iff_exists, Rule.leftSide?_eq_some_iff]

theorem rightShaped_iff (raw : RawRule) :
    raw.RightShaped ↔ (Production.ofText? raw.right).isSome = true := by
  simp only [RightShaped, Option.isSome_iff_exists, Production.ofText?_eq_some_iff]
  constructor
  · rintro (⟨c, hc, cased⟩ | ⟨b, c, hbc, cased⟩)
    · exact ⟨.terminal c, hc, cased⟩
    · exact ⟨.pair b c, hbc, cased⟩
  · rintro ⟨c | ⟨b, c⟩, text, cased⟩
    · exact Or.inl ⟨c, text, cased⟩
    · exact Or.inr ⟨b, c, text, cased⟩

/-- Both sides have the right shape. -/
def Shaped (raw : RawRule) : Prop := raw.LeftShaped ∧ raw.RightShaped

instance (raw : RawRule) : Decidable raw.LeftShaped := decidable_of_iff _ raw.leftShaped_iff.symm

instance (raw : RawRule) : Decidable raw.RightShaped := decidable_of_iff _ raw.rightShaped_iff.symm

instance (raw : RawRule) : Decidable raw.Shaped := inferInstanceAs (Decidable (_ ∧ _))

end RawRule

/-- The report on the shape of a rule, which looks at the left side first. It shows both sides of
the rule around an arrow. -/
structure CompileError.ReportsShape (e : CompileError) (raw : RawRule) : Prop where
  location : e.location = raw.location
  fault : ¬ raw.LeftShaped ∧ e.fault = .badLeft (raw.left ++ [' ', '-', '>', ' '] ++ raw.right) ∨
    raw.LeftShaped ∧ ¬ raw.RightShaped ∧
      e.fault = .badRight (raw.left ++ [' ', '-', '>', ' '] ++ raw.right)

/-- The rule determines the report on its shape. -/
theorem CompileError.ReportsShape.unique {e e' : CompileError} {raw : RawRule}
    (h : e.ReportsShape raw) (h' : e'.ReportsShape raw) : e = e' := by
  have location : e.location = e'.location := h.location.trans h'.location.symm
  have fault : e.fault = e'.fault := by
    rcases h.fault with ⟨left, hf⟩ | ⟨left, -, hf⟩ <;>
      rcases h'.fault with ⟨left', hf'⟩ | ⟨left', -, hf'⟩
    · rw [hf, hf']
    · exact absurd left' left
    · exact absurd left left'
    · rw [hf, hf']
  cases e
  cases e'
  rw [CompileError.mk.injEq]
  exact ⟨location, fault⟩

namespace RawRule

theorem reportsShape_of_ofRaw {raw : RawRule} {e : CompileError}
    (h : Rule.ofRaw raw = .error e) : e.ReportsShape raw := by
  have left := leftShaped_iff raw
  have right := rightShaped_iff raw
  unfold Rule.ofRaw at h
  rw [text_eq] at h
  rcases hl : Rule.leftSide? raw.left with _ | x
  · simp only [hl] at h left
    obtain rfl := Except.error.inj h
    exact ⟨rfl, Or.inl ⟨by simp [left], rfl⟩⟩
  · rcases hr : Production.ofText? raw.right with _ | p
    · simp only [hl, hr] at h left right
      obtain rfl := Except.error.inj h
      exact ⟨rfl, Or.inr ⟨by simp [left], by simp [right], rfl⟩⟩
    · simp only [hl, hr] at h
      cases h

theorem not_shaped_iff (raw : RawRule) : ¬ raw.Shaped ↔ ∃ e, Rule.ofRaw raw = .error e := by
  rw [Shaped, leftShaped_iff, rightShaped_iff]
  unfold Rule.ofRaw
  cases Rule.leftSide? raw.left <;> cases Production.ofText? raw.right <;> simp

theorem shaped_iff_ofRaw (raw : RawRule) : raw.Shaped ↔ ∃ r, Rule.ofRaw raw = .ok r := by
  rw [← not_iff_not, not_shaped_iff]
  rcases Rule.ofRaw raw with e | r <;> simp

end RawRule

/-! ## Closure -/

namespace RawRule

/-- No rule has the symbol as its left side. -/
def Undefined (raws : List RawRule) (x : Char) : Prop := ∀ raw ∈ raws, raw.left ≠ [x]

instance (raws : List RawRule) (x : Char) : Decidable (Undefined raws x) :=
  inferInstanceAs (Decidable (∀ _ ∈ raws, _))

/-- The nonterminals on the right side of a rule that are undefined, each of them once. -/
def undefinedIn (raws : List RawRule) (raw : RawRule) : List Char :=
  match raw.right with
  | [b, c] =>
    (if Undefined raws b then [b] else []) ++ if Undefined raws c ∧ c ≠ b then [c] else []
  | _ => []

/-- The reports on the undefined nonterminals of all rules, in rule order. -/
def closureErrors (raws : List RawRule) : List CompileError :=
  raws.flatMap fun raw => (undefinedIn raws raw).map fun x => ⟨raw.location, .undefinedSymbol x⟩

end RawRule

section SideBySide

variable {raws : List RawRule} {rules : List Rule} {raw : RawRule} {r : Rule}

theorem undefined_iff (h : List.Forall₂ (fun raw r => Rule.ofRaw raw = .ok r) raws rules)
    (x : Char) : RawRule.Undefined raws x ↔ (!rules.any fun r => r.left == x) = true := by
  rw [Bool.not_eq_true', List.any_eq_false]
  constructor
  · intro undefined r hr hx
    obtain ⟨raw, hraw, shaped⟩ := exists_of_mem_right h hr
    apply undefined raw hraw
    rw [(Rule.ofRaw_eq_ok_iff.1 shaped).1, beq_iff_eq.1 hx]
  · intro undefined raw hraw hx
    obtain ⟨r, hr, shaped⟩ := exists_of_mem_left h hraw
    apply undefined r hr
    rw [(Rule.ofRaw_eq_ok_iff.1 shaped).1] at hx
    exact beq_iff_eq.2 (List.singleton_inj.1 hx)

theorem filter_nonterminals_eq
    (h : List.Forall₂ (fun raw r => Rule.ofRaw raw = .ok r) raws rules)
    (shaped : Rule.ofRaw raw = .ok r) :
    (r.right.nonterminals.eraseDups.filter fun x => !rules.any fun q => q.left == x) =
      RawRule.undefinedIn raws raw := by
  have keep : (fun x => !rules.any fun q => q.left == x) =
      fun x => decide (RawRule.Undefined raws x) := by
    funext x
    rw [Bool.eq_iff_iff, decide_eq_true_eq, undefined_iff h]
  rw [keep, RawRule.undefinedIn, (Rule.ofRaw_eq_ok_iff.1 shaped).2.1]
  rcases r.right with c | ⟨b, c⟩
  · rfl
  · simp only [Production.nonterminals, Production.text]
    by_cases hbc : c = b
    · subst hbc
      by_cases hc : RawRule.Undefined raws c <;> simp [List.eraseDups_cons, hc]
    · by_cases hb : RawRule.Undefined raws b <;> by_cases hc : RawRule.Undefined raws c <;>
        simp [List.eraseDups_cons, hbc, hb, hc]

/-- The checked rules stand beside the written ones. -/
theorem undefinedSymbols_eq (h : List.Forall₂ (fun raw r => Rule.ofRaw raw = .ok r) raws rules) :
    undefinedSymbols rules raws = RawRule.closureErrors raws := by
  unfold undefinedSymbols RawRule.closureErrors
  apply flatMap_zip_eq h
  intro raw r shaped
  show List.map _ _ = _
  rw [filter_nonterminals_eq h shaped]

end SideBySide

namespace Loading

variable {raws : List RawRule}

theorem validate_of_unshaped (h : ∃ raw ∈ raws, ¬ raw.Shaped) :
    ∃ errors, (validate raws).result = .error errors ∧
      List.Forall₂ (fun raw e => CompileError.ReportsShape e raw)
        (raws.filter fun raw => ¬ raw.Shaped) errors := by
  obtain ⟨errors, failed, hfaults⟩ :=
    collect_map_eq_error (fun raw _ => raw.not_shaped_iff) h
  refine ⟨errors, ?_, hfaults.imp fun _ _ => RawRule.reportsShape_of_ofRaw⟩
  rw [result_validate, Grammar.ofRaw, failed]

theorem validate_of_shaped (h : ∀ raw ∈ raws, raw.Shaped) :
    ∃ rules, List.Forall₂ (fun raw r => Rule.ofRaw raw = .ok r) raws rules ∧
      (validate raws).result = if RawRule.closureErrors raws = [] then .ok (Grammar.ofRules rules)
        else .error (RawRule.closureErrors raws) := by
  obtain ⟨rules, hrules⟩ := exists_forall₂_iff.2 fun raw hraw =>
    (RawRule.shaped_iff_ofRaw raw).1 (h raw hraw)
  refine ⟨rules, hrules, ?_⟩
  rw [result_validate, Grammar.ofRaw, collect_map_eq_ok_iff.2 hrules]
  simp only [undefinedSymbols_eq hrules]
  rcases RawRule.closureErrors raws with _ | ⟨e, es⟩
  · rfl
  · rfl

/-- **Violations.** If some rules have a wrong shape, there is one error for each of these rules, in
rule order, and no other. If all shapes are right, the errors are those on the undefined
nonterminals, in rule order. If there are no violations of either kind, and only then, there is a
grammar, and each of its rules has the sides of the written one at the same place. -/
theorem validate_reports_violations (raws : List RawRule) :
    ((∃ raw ∈ raws, ¬ raw.Shaped) →
      ∃ errors, (validate raws).result = .error errors ∧
        List.Forall₂ (fun raw e => CompileError.ReportsShape e raw)
          (raws.filter fun raw => ¬ raw.Shaped) errors) ∧
    ((∀ raw ∈ raws, raw.Shaped) → RawRule.closureErrors raws ≠ [] →
      (validate raws).result = .error (RawRule.closureErrors raws)) ∧
    ((∃ g, (validate raws).result = .ok g) ↔
      (∀ raw ∈ raws, raw.Shaped) ∧ RawRule.closureErrors raws = []) ∧
    ∀ g, (validate raws).result = .ok g →
      List.Forall₂ (fun raw r => raw.left = [r.left] ∧ raw.right = r.right.text ∧ r.Cased)
        raws g.rules := by
  refine ⟨validate_of_unshaped, ?_, ?_, ?_⟩
  · intro shaped violated
    obtain ⟨rules, -, result⟩ := validate_of_shaped shaped
    rw [result, if_neg violated]
  · constructor
    · rintro ⟨g, hg⟩
      have shaped : ∀ raw ∈ raws, raw.Shaped := by
        intro raw hraw
        by_contra unshaped
        obtain ⟨errors, failed, -⟩ := validate_of_unshaped ⟨raw, hraw, unshaped⟩
        rw [failed] at hg
        cases hg
      obtain ⟨rules, -, result⟩ := validate_of_shaped shaped
      refine ⟨shaped, ?_⟩
      by_contra violated
      rw [result, if_neg violated] at hg
      cases hg
    · rintro ⟨shaped, closed⟩
      obtain ⟨rules, -, result⟩ := validate_of_shaped shaped
      exact ⟨_, by rw [result, if_pos closed]⟩
  · intro g hg
    rw [result_validate, Grammar.ofRaw_eq_ok_iff] at hg
    exact hg.1.imp fun _ _ => Rule.ofRaw_eq_ok_iff.1

/-- The first rule has a wrong right side, and the second one a wrong left side. -/
def misshaped : List RawRule := [⟨['A'], ['A', 'b'], ⟨"", 1⟩⟩, ⟨['b'], ['X', 'Y'], ⟨"", 2⟩⟩]

/-- Two nonterminals have no rules, and the second rule uses one of them twice. -/
def unclosed : List RawRule := [⟨['S'], ['X', 'Y'], ⟨"", 1⟩⟩, ⟨['S'], ['Y', 'Y'], ⟨"", 2⟩⟩]

theorem validate_reports_misshaped_unclosed :
    ((∃ raw ∈ misshaped, ¬ raw.Shaped) ∧
      (validate misshaped).result =
        .error [⟨⟨"", 1⟩, .badRight ['A', ' ', '-', '>', ' ', 'A', 'b']⟩,
          ⟨⟨"", 2⟩, .badLeft ['b', ' ', '-', '>', ' ', 'X', 'Y']⟩]) ∧
    (∀ raw ∈ unclosed, raw.Shaped) ∧
      (validate unclosed).result =
        .error [⟨⟨"", 1⟩, .undefinedSymbol 'X'⟩, ⟨⟨"", 1⟩, .undefinedSymbol 'Y'⟩,
          ⟨⟨"", 2⟩, .undefinedSymbol 'Y'⟩] := by
  have unshaped : ∃ raw ∈ misshaped, ¬ raw.Shaped := by decide
  have shaped : ∀ raw ∈ unclosed, raw.Shaped := by decide
  refine ⟨⟨unshaped, ?_⟩, shaped, ?_⟩
  · have right : CompileError.ReportsShape
        ⟨⟨"", 1⟩, .badRight ['A', ' ', '-', '>', ' ', 'A', 'b']⟩ ⟨['A'], ['A', 'b'], ⟨"", 1⟩⟩ :=
      ⟨rfl, Or.inr ⟨by decide, by decide, rfl⟩⟩
    have left : CompileError.ReportsShape
        ⟨⟨"", 2⟩, .badLeft ['b', ' ', '-', '>', ' ', 'X', 'Y']⟩ ⟨['b'], ['X', 'Y'], ⟨"", 2⟩⟩ :=
      ⟨rfl, Or.inl ⟨by decide, rfl⟩⟩
    obtain ⟨errors, failed, reports⟩ := (validate_reports_violations misshaped).1 unshaped
    rw [List.filter_eq_self.2 (by decide), misshaped] at reports
    cases reports with
    | cons first rest =>
      cases rest with
      | cons second none =>
        cases none
        rw [failed, first.unique right, second.unique left]
  · rw [(validate_reports_violations unclosed).2.1 shaped (by decide)]
    decide

end Loading

end NormalGrammar

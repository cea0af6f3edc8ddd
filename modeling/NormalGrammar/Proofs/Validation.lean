import Mathlib.Data.List.Forall2
import NormalGrammar.Loading

/-!
# Which written rules make a grammar

All attempts of a list succeed if each of them gives the value that stands at its place in the
list of values (`collect_map_eq_ok_iff`). If some fail, the faults stand beside the members whose
attempts failed (`collect_map_eq_error`).

A written rule has the right shape if its sides are the left and the right side of a rule whose
characters have the case of their kind (`Rule.ofRaw_eq_ok_iff`). A list of written rules makes a
grammar if each of them has the right shape and no nonterminal is left without a rule
(`Grammar.ofRaw_eq_ok_iff`).
-/

namespace NormalGrammar

/-! ## Attempts and their values side by side -/

section SideBySide

variable {ε α β γ : Type} {R : α → β → Prop} {S : β → γ → Prop} {as : List α} {bs : List β}
  {cs : List γ}

theorem exists_forall₂_iff : (∃ bs, List.Forall₂ R as bs) ↔ ∀ a ∈ as, ∃ b, R a b := by
  induction as with
  | nil => exact ⟨fun _ => List.forall_mem_nil _, fun _ => ⟨[], .nil⟩⟩
  | cons a as ih =>
    rw [List.forall_mem_cons, ← ih]
    constructor
    · rintro ⟨_, h⟩
      cases h with
      | cons hb hbs => exact ⟨⟨_, hb⟩, _, hbs⟩
    · rintro ⟨⟨b, hb⟩, bs, hbs⟩
      exact ⟨b :: bs, .cons hb hbs⟩

theorem exists_forall₂_and_iff : (∃ bs, List.Forall₂ R as bs ∧ List.Forall₂ S bs cs) ↔
    List.Forall₂ (fun a c => ∃ b, R a b ∧ S b c) as cs := by
  constructor
  · rintro ⟨bs, hr, hs⟩
    induction hr generalizing cs with
    | nil =>
      cases hs
      exact .nil
    | cons hab _ ih =>
      cases hs with
      | cons hbc hs => exact .cons ⟨_, hab, hbc⟩ (ih hs)
  · intro h
    induction h with
    | nil => exact ⟨[], .nil, .nil⟩
    | cons hac _ ih =>
      obtain ⟨b, hab, hbc⟩ := hac
      obtain ⟨bs, hr, hs⟩ := ih
      exact ⟨b :: bs, .cons hab hr, .cons hbc hs⟩

theorem exists_of_mem_left (h : List.Forall₂ R as bs) {a : α} (ha : a ∈ as) :
    ∃ b ∈ bs, R a b := by
  induction h with
  | nil => exact absurd ha List.not_mem_nil
  | cons hab _ ih =>
    rcases List.mem_cons.1 ha with rfl | ha
    · exact ⟨_, List.mem_cons_self, hab⟩
    · obtain ⟨b, hb, hab⟩ := ih ha
      exact ⟨b, List.mem_cons_of_mem _ hb, hab⟩

theorem exists_of_mem_right (h : List.Forall₂ R as bs) {b : β} (hb : b ∈ bs) :
    ∃ a ∈ as, R a b :=
  exists_of_mem_left (R := fun b a => R a b) h.flip hb

theorem flatMap_zip_eq {f : β × α → List γ} {g : α → List γ} (h : List.Forall₂ R as bs)
    (hfg : ∀ a b, R a b → f (b, a) = g a) : (bs.zip as).flatMap f = as.flatMap g := by
  induction h with
  | nil => rfl
  | cons hab _ ih => rw [List.zip_cons_cons, List.flatMap_cons, List.flatMap_cons, hfg _ _ hab, ih]

/-- All attempts on a list succeed if each of them gives its value. -/
theorem collect_map_eq_ok_iff {f : α → Except ε β} :
    collect (as.map f) = .ok bs ↔ List.Forall₂ (fun a b => f a = .ok b) as bs := by
  rw [collect_eq_ok_iff, ← List.forall₂_eq_eq_eq, List.forall₂_map_left_iff,
    List.forall₂_map_right_iff]

/-- The faults are those of the bad members, in the same order. -/
theorem forall₂_failures_map {f : α → Except ε β} {bad : α → Prop} [DecidablePred bad]
    (h : ∀ a ∈ as, bad a ↔ ∃ e, f a = .error e) :
    List.Forall₂ (fun a e => f a = .error e) (as.filter bad) (failures (as.map f)) := by
  induction as with
  | nil => exact .nil
  | cons a as ih =>
    obtain ⟨ha, has⟩ := List.forall_mem_cons.1 h
    rcases hf : f a with e | b
    · have faulty : failures ((a :: as).map f) = e :: failures (as.map f) := by
        simp [failures, hf]
      rw [List.filter_cons_of_pos (by simpa using ha.2 ⟨e, hf⟩), faulty]
      exact .cons hf (ih has)
    · have fine : failures ((a :: as).map f) = failures (as.map f) := by
        simp [failures, hf]
      rw [List.filter_cons_of_neg (by simpa [hf] using ha), fine]
      exact ih has

/-- If a list has a bad member, there is one fault for each bad member and nothing else. -/
theorem collect_map_eq_error {f : α → Except ε β} {bad : α → Prop} [DecidablePred bad]
    (h : ∀ a ∈ as, bad a ↔ ∃ e, f a = .error e) (some_bad : ∃ a ∈ as, bad a) :
    ∃ es, collect (as.map f) = .error es ∧
      List.Forall₂ (fun a e => f a = .error e) (as.filter bad) es := by
  have faults := forall₂_failures_map h
  refine ⟨_, collect_eq_error_iff.2 ⟨rfl, ?_⟩, faults⟩
  intro none
  rw [none, List.forall₂_nil_right_iff, List.filter_eq_nil_iff] at faults
  obtain ⟨a, ha, bad_a⟩ := some_bad
  exact faults a ha (by simpa using bad_a)

end SideBySide

/-! ## Shapes -/

theorem RawRule.text_eq (raw : RawRule) :
    raw.text = raw.left ++ [' ', '-', '>', ' '] ++ raw.right := by
  simp [text, Text.arrow]

namespace Symbol

theorem isTerminal_iff {c : Char} : isTerminal c = true ↔ Unicode.isLowercase c = true := by
  rw [isTerminal_eq]

theorem isNonterminal_iff {c : Char} : isNonterminal c = true ↔ Unicode.isUppercase c = true := by
  rw [isNonterminal_eq, Bool.and_eq_true, Bool.not_eq_true']
  exact ⟨And.right, fun h => ⟨Unicode.isLowercase_of_isUppercase h, h⟩⟩

end Symbol

/-- The terminal is lowercase, or both nonterminals are uppercase. -/
def Production.Cased : Production → Prop
  | .terminal c => Unicode.isLowercase c = true
  | .pair b c => Unicode.isUppercase b = true ∧ Unicode.isUppercase c = true

/-- All symbols have the case of their kind. -/
structure Rule.Cased (r : Rule) : Prop where
  left : Unicode.isUppercase r.left = true
  right : r.right.Cased

theorem Rule.leftSide?_eq_some_iff {t : List Char} {x : Char} :
    Rule.leftSide? t = some x ↔ t = [x] ∧ Unicode.isUppercase x = true := by
  rw [← Symbol.isNonterminal_iff]
  unfold leftSide?
  split
  · rename_i y
    simp only [Option.ite_none_right_eq_some, Option.some.injEq, List.cons.injEq, and_true]
    constructor
    · rintro ⟨h, rfl⟩
      exact ⟨rfl, h⟩
    · rintro ⟨rfl, h⟩
      exact ⟨h, rfl⟩
  · rename_i hne
    simp only [reduceCtorEq, false_iff, not_and]
    rintro rfl
    exact absurd rfl (hne x)

theorem Production.ofText?_eq_some_iff {t : List Char} {p : Production} :
    Production.ofText? t = some p ↔ t = p.text ∧ p.Cased := by
  unfold ofText?
  split
  · rename_i c
    rw [Option.ite_none_right_eq_some, Symbol.isTerminal_iff]
    cases p with
    | terminal d =>
      simp only [Option.some.injEq, terminal.injEq, text, Cased, List.cons.injEq, and_true]
      constructor
      · rintro ⟨h, rfl⟩
        exact ⟨rfl, h⟩
      · rintro ⟨rfl, h⟩
        exact ⟨h, rfl⟩
    | pair b d => simp [text]
  · rename_i b c
    rw [Option.ite_none_right_eq_some, Bool.and_eq_true, Symbol.isNonterminal_iff,
      Symbol.isNonterminal_iff]
    cases p with
    | terminal d => simp [text]
    | pair b' c' =>
      simp only [Option.some.injEq, pair.injEq, text, Cased, List.cons.injEq, and_true]
      constructor
      · rintro ⟨h, rfl, rfl⟩
        exact ⟨⟨rfl, rfl⟩, h⟩
      · rintro ⟨⟨rfl, rfl⟩, h⟩
        exact ⟨h, rfl, rfl⟩
  · rename_i no_terminal no_pair
    simp only [reduceCtorEq, false_iff, not_and]
    rintro rfl
    cases p with
    | terminal c => exact absurd rfl (no_terminal c)
    | pair b c => exact absurd rfl (no_pair b c)

/-- A written rule has the right shape if it shows a rule with its characters in the right case. -/
theorem Rule.ofRaw_eq_ok_iff {raw : RawRule} {r : Rule} :
    Rule.ofRaw raw = .ok r ↔ raw.left = [r.left] ∧ raw.right = r.right.text ∧ r.Cased := by
  have sides : Rule.ofRaw raw = .ok r ↔
      Rule.leftSide? raw.left = some r.left ∧ Production.ofText? raw.right = some r.right := by
    obtain ⟨x, p⟩ := r
    unfold ofRaw
    cases Rule.leftSide? raw.left <;> cases Production.ofText? raw.right <;> simp
  rw [sides, leftSide?_eq_some_iff, Production.ofText?_eq_some_iff]
  constructor
  · rintro ⟨⟨hl, left⟩, hr, right⟩
    exact ⟨hl, hr, left, right⟩
  · rintro ⟨hl, hr, left, right⟩
    exact ⟨⟨hl, left⟩, hr, right⟩

/-! ## Letters -/

/-- The character stands for a symbol. -/
def IsLetter (c : Char) : Prop := Unicode.isUppercase c = true ∨ Unicode.isLowercase c = true

theorem IsLetter.isBlank {c : Char} (h : IsLetter c) : Unicode.isBlank c = false := by
  rw [← Bool.not_eq_true]
  intro hb
  rcases h with h | h
  · rw [Unicode.isUppercase_of_isBlank hb] at h
    cases h
  · rw [Unicode.isLowercase_of_isBlank hb] at h
    cases h

theorem IsLetter.ne_dash {c : Char} (h : IsLetter c) : c ≠ '-' := by
  rintro rfl
  revert h
  unfold IsLetter
  decide

theorem Production.Cased.isLetter {p : Production} (h : p.Cased) : ∀ c ∈ p.text, IsLetter c := by
  cases p with
  | terminal c => exact List.forall_mem_singleton.2 (Or.inr h)
  | pair b c =>
    exact List.forall_mem_cons.2 ⟨Or.inl h.1, List.forall_mem_singleton.2 (Or.inl h.2)⟩

/-- The nonterminals of a right side are its uppercase characters. -/
theorem Production.Cased.mem_nonterminals_iff {p : Production} (h : p.Cased) {x : Char} :
    x ∈ p.nonterminals ↔ x ∈ p.text ∧ Unicode.isUppercase x = true := by
  cases p with
  | terminal c =>
    constructor
    · intro hx
      exact absurd hx List.not_mem_nil
    · rintro ⟨hx, upper⟩
      obtain rfl := List.mem_singleton.1 hx
      have lower : Unicode.isLowercase x = true := h
      rw [Unicode.isLowercase_of_isUppercase upper] at lower
      cases lower
  | pair b c =>
    constructor
    · intro hx
      refine ⟨hx, ?_⟩
      rcases List.mem_pair.1 hx with rfl | rfl
      · exact h.1
      · exact h.2
    · exact And.left

/-! ## Lists of rules -/

/-- Every nonterminal on a right side is the left side of a rule. -/
def AllDefined (rules : List Rule) : Prop :=
  ∀ r ∈ rules, ∀ x ∈ r.right.nonterminals, ∃ q ∈ rules, q.left = x

theorem undefinedSymbols_eq_nil_iff {rules : List Rule} {raws : List RawRule}
    (h : rules.length = raws.length) : undefinedSymbols rules raws = [] ↔ AllDefined rules := by
  have complete : ∀ r : Rule,
      (r.right.nonterminals.eraseDups.filter fun x => !rules.any fun q => q.left == x) = [] ↔
        ∀ x ∈ r.right.nonterminals, ∃ q ∈ rules, q.left = x := by
    intro r
    simp
  unfold undefinedSymbols AllDefined
  simp only [List.flatMap_eq_nil_iff, List.map_eq_nil_iff, complete]
  constructor
  · intro all r hr
    rw [← List.map_fst_zip (Nat.le_of_eq h)] at hr
    obtain ⟨p, hp, rfl⟩ := List.mem_map.1 hr
    exact all p hp
  · intro all p hp
    exact all p.1 (List.of_mem_zip hp).1

/-- Written rules make a grammar if each has the right shape and no nonterminal in use is
without a rule. The grammar has their rules in order and starts with the default symbol. -/
theorem Grammar.ofRaw_eq_ok_iff {raws : List RawRule} {g : Grammar} :
    Grammar.ofRaw raws = .ok g ↔
      List.Forall₂ (fun raw r => Rule.ofRaw raw = .ok r) raws g.rules ∧ AllDefined g.rules ∧
        g.start = defaultStart := by
  rw [← collect_map_eq_ok_iff]
  unfold ofRaw
  constructor
  · intro h
    rcases hc : collect (raws.map Rule.ofRaw) with faults | rules
    · rw [hc] at h
      cases h
    · rw [hc] at h
      have hlen := (collect_map_eq_ok_iff.1 hc).length_eq
      rcases hu : undefinedSymbols rules raws with _ | ⟨fault, faults⟩
      · simp only [hu] at h
        obtain rfl := Except.ok.inj h
        exact ⟨rfl, (undefinedSymbols_eq_nil_iff hlen.symm).1 hu, rfl⟩
      · simp only [hu] at h
        cases h
  · rintro ⟨hc, all, start⟩
    have hlen := (collect_map_eq_ok_iff.1 hc).length_eq
    simp only [hc, (undefinedSymbols_eq_nil_iff hlen.symm).2 all]
    exact congrArg Except.ok (Grammar.ext start.symm rfl)

end NormalGrammar

import NormalGrammar.Proofs.Loading.Format
import NormalGrammar.Proofs.Recognition.Recording
import NormalGrammar.Proofs.Sampling.Language

/-!
# Characters that no rule produces

Each leaf of a derivation tree is the right side of a rule (`Yields.exists_rule_of_mem`). So a
character that is no right side empties the cell of every span around it, and the warnings, one for
each such character, announce that the input is rejected. What is accepted or sampled is spelt in
right sides, which are lowercase in a grammar that was loaded.
-/

namespace NormalGrammar

/-! ## Words in right sides -/

namespace Grammar

variable {g : Grammar} {w : List Char} {x c : Char} {p : Nat}

/-- No rule has the character at the position for its right side. -/
def Unproduced (g : Grammar) (w : List Char) (p : Nat) : Prop :=
  ∃ c, w[p]? = some c ∧ ∀ r ∈ g.rules, r.right ≠ .terminal c

/-- All characters are lowercase and right sides of rules. -/
def Spells (g : Grammar) (w : List Char) : Prop :=
  ∀ c ∈ w, Unicode.isLowercase c = true ∧ ∃ r ∈ g.rules, r.right = .terminal c

/-- The leaves of a tree are right sides of rules. -/
theorem Yields.exists_rule_of_mem (h : g.Yields x w) (hc : c ∈ w) :
    ∃ r ∈ g.rules, r.right = .terminal c := by
  obtain ⟨t, valid, rfl⟩ := h
  induction valid with
  | leaf rule =>
    rw [List.mem_singleton.1 hc]
    exact ⟨_, List.mem_of_getElem? rule, rfl⟩
  | node _ _ _ left right =>
    rcases List.mem_append.1 hc with hc | hc
    · exact left hc
    · exact right hc

theorem Yields.spells (cased : ∀ r ∈ g.rules, r.Cased) (h : g.Yields x w) : g.Spells w := by
  intro c hc
  obtain ⟨r, hr, e⟩ := h.exists_rule_of_mem hc
  have right := (cased r hr).right
  rw [e] at right
  exact ⟨right, r, hr, e⟩

theorem Spells.trim_eq_self (h : g.Spells w) : Text.trim w = w :=
  Text.trim_eq_self (Text.trimmed_of_isLetter fun c hc => Or.inr (h c hc).1)

end Grammar

theorem Span.mem_text {w : List Char} {i j p : Nat} {c : Char} (hi : i ≤ p) (hj : p ≤ j)
    (hc : w[p]? = some c) : c ∈ text ⟨i, j⟩ w := by
  have place : (text ⟨i, j⟩ w)[p - i]? = some c := by
    unfold text
    rw [List.getElem?_take_of_lt (by show p - i < j + 1 - i; omega), List.getElem?_drop]
    rwa [Nat.add_sub_cancel' hi]
  exact List.mem_of_getElem? place

namespace Recognition

open Grammar

variable {g : Grammar} {w : List Char}

/-! ## Blank cells -/

theorem cell_eq_empty {i j p : Nat} (hp : g.Unproduced w p) (hi : i ≤ p) (hj : p ≤ j)
    (hw : j < w.length) : cell g w ⟨i, j⟩ = ∅ := by
  obtain ⟨c, hc, no_rule⟩ := hp
  ext x
  rw [mem_cell_iff_yields (hi.trans hj) hw]
  constructor
  · intro h
    obtain ⟨r, hr, e⟩ := h.exists_rule_of_mem (Span.mem_text hi hj hc)
    exact absurd e (no_rule r hr)
  · intro h
    exact absurd h (SymbolSet.not_mem_empty x)

theorem not_accepts_of_unproduced {p : Nat} (hp : g.Unproduced w p) : ¬ g.Accepts w := by
  intro accepted
  obtain ⟨c, hc, no_rule⟩ := hp
  obtain ⟨r, hr, e⟩ := (accepts_iff_yields.1 accepted).exists_rule_of_mem (List.mem_of_getElem? hc)
  exact no_rule r hr e

/-! ## The log -/

/-- What is logged in the turn of a span: only a single position has something to warn about. -/
def turnLog (g : Grammar) (w : List Char) (s : Span) : List Event :=
  if s.first = s.last then warnings g w[s.first]?.toList else []

/-- The turn of a span, with its log. -/
def loggedStep (g : Grammar) (w : List Char) (c : Chart) (s : Span) : Report InputFault Chart :=
  ⟨[], turnLog g w s, .ok (step g w c s)⟩

/-- Recognition that warns about a position when its turn comes. -/
def logged (g : Grammar) (w : List Char) : Report InputFault Recognition := do
  if w.isEmpty then .fail .empty
  else
    .note (.buildingTable w)
    let chart ← (Span.schedule w.length).foldlM (loggedStep g w) (.blank w.length)
    return ⟨chart, g.start ∈ (chart.cell? ⟨0, w.length - 1⟩).getD ∅⟩

theorem foldlM_loggedStep (ss : List Span) (c : Chart) :
    ss.foldlM (loggedStep g w) c = ⟨[], ss.flatMap (turnLog g w), .ok (ss.foldl (step g w) c)⟩ := by
  induction ss generalizing c with
  | nil => rfl
  | cons s ss ih =>
    rw [List.foldlM_cons, Report.bind_of_ok (a := step g w c s) rfl, ih]
    rfl

theorem flatMap_getElem? (w : List Char) :
    ((List.range w.length).flatMap fun i => w[i]?.toList) = w := by
  induction w with
  | nil => rfl
  | cons c w ih =>
    rw [List.length_cons, List.range_succ_eq_map, List.flatMap_cons, List.flatMap_map]
    exact congrArg (c :: ·) ih

/-- The single positions have their turns first, from left to right. -/
theorem flatMap_turnLog (g : Grammar) (w : List Char) :
    (Span.schedule w.length).flatMap (turnLog g w) = warnings g w := by
  have single : ∀ i, turnLog g w ⟨i, i⟩ = warnings g w[i]?.toList := fun i => if_pos rfl
  have longer : ∀ len ∈ List.range' 2 (w.length - 1), ((List.range (w.length - len + 1)).map
      fun start => (⟨start, start + len - 1⟩ : Span)).flatMap (turnLog g w) = [] := by
    intro len hlen
    have := (List.mem_range'_1.1 hlen).1
    rw [List.flatMap_eq_nil_iff]
    intro s hs
    obtain ⟨start, -, rfl⟩ := List.mem_map.1 hs
    exact if_neg (by show start ≠ start + len - 1; omega)
  calc (Span.schedule w.length).flatMap (turnLog g w)
      = (List.range w.length).flatMap fun i => warnings g w[i]?.toList := by
        rw [Span.schedule_eq, List.flatMap_append, List.flatMap_map, List.flatMap_assoc,
          List.flatMap_eq_nil_iff.2 longer, List.append_nil]
        simp only [single]
    _ = warnings g ((List.range w.length).flatMap fun i => w[i]?.toList) :=
        List.filterMap_flatMap.symm
    _ = warnings g w := by rw [flatMap_getElem?]

theorem logged_eq_report (g : Grammar) (w : List Char) : logged g w = report g w := by
  unfold logged report ofInput
  by_cases hw : w.isEmpty = true
  · rw [if_pos hw, if_pos hw]
  · rw [if_neg hw, if_neg hw, foldlM_loggedStep, flatMap_turnLog]
    rw [Report.bind_of_ok (a := ()) rfl, Report.bind_of_ok (a := chartOf g w) rfl]
    simp [Report.note]

/-- The characters that no rule produces, with their positions. -/
def unproduced (g : Grammar) (w : List Char) : List (Char × Nat) :=
  w.zipIdx.filter fun q => (g.producers? (.terminal q.1)).isNone

theorem mem_unproduced {c : Char} {p : Nat} : (c, p) ∈ unproduced g w ↔
    w[p]? = some c ∧ ∀ r ∈ g.rules, r.right ≠ .terminal c := by
  unfold unproduced
  rw [List.mem_filter, List.mk_mem_zipIdx_iff_getElem?, Option.isNone_iff_eq_none,
    ← Option.not_isSome_iff_eq_none, isSome_producers?]
  simp

theorem unproduced_pairwise (g : Grammar) (w : List Char) :
    (unproduced g w).Pairwise fun p q => p.2 < q.2 := by
  apply List.Pairwise.filter
  rw [← List.pairwise_map (f := Prod.snd) (R := (· < ·)), List.zipIdx_map_snd]
  exact List.pairwise_lt_range'

theorem warnings_eq (g : Grammar) (w : List Char) :
    warnings g w = (unproduced g w).map fun q => .unproduced q.1 := by
  unfold unproduced warnings
  rw [← List.filterMap_eq_map, List.filterMap_filter]
  conv_lhs => rw [← List.zipIdx_map_fst 0 w, List.filterMap_map]
  rfl

/-- There is one warning for each position whose character no rule produces, in order. -/
theorem exists_positions (g : Grammar) (w : List Char) :
    ∃ ps : List Nat, ps.Pairwise (· < ·) ∧ (∀ p, p ∈ ps ↔ g.Unproduced w p) ∧
      List.Forall₂ (fun p e => ∃ c, w[p]? = some c ∧ e = .unproduced c) ps (warnings g w) := by
  refine ⟨(unproduced g w).map Prod.snd, List.pairwise_map.2 (unproduced_pairwise g w), ?_, ?_⟩
  · intro p
    simp only [List.mem_map, Prod.exists, exists_eq_right, mem_unproduced]
    exact Iff.rfl
  · rw [warnings_eq, List.forall₂_map_left_iff, List.forall₂_map_right_iff, List.forall₂_same]
    rintro ⟨c, p⟩ hq
    exact ⟨c, (mem_unproduced.1 hq).1, rfl⟩

/-- The warnings are all that is logged above the level of debugging. -/
theorem filter_log_report (hw : w ≠ []) :
    (report g w).log.filter (fun e => e.level = .warn) = warnings g w := by
  have all : ∀ e ∈ warnings g w, e.level = .warn := by
    intro e he
    rw [warnings_eq] at he
    obtain ⟨q, -, rfl⟩ := List.mem_map.1 he
    rfl
  unfold report
  rw [ofInput_of_ne_nil hw]
  show (Event.buildingTable w :: warnings g w).filter _ = _
  rw [List.filter_cons_of_neg (by simp [Event.level]), List.filter_eq_self.2 (by simpa using all)]

theorem exists_unproduced_of_warn (hw : w ≠ []) {e : Event} (he : e ∈ (report g w).log)
    (warn : e.level = .warn) : ∃ p, g.Unproduced w p := by
  have mem : e ∈ (report g w).log.filter fun e => e.level = .warn :=
    List.mem_filter.2 ⟨he, by simpa using warn⟩
  rw [filter_log_report hw, warnings_eq] at mem
  obtain ⟨⟨c, p⟩, hq, -⟩ := List.mem_map.1 mem
  exact ⟨p, c, mem_unproduced.1 hq⟩

theorem result_report_of_ofInput {r : Recognition} (hr : ofInput g w = .ok r) :
    (report g w).result = .ok r := by
  unfold report
  rw [hr]

/-- **Blank spans.** For a loaded grammar with any start symbol, recognition warns about the
positions whose characters no rule produces, once about each, from left to right, and about nothing
else. The cells of all spans around such a position are empty, and the input is rejected. Words
that are accepted or sampled are spelt in lowercase right sides of rules, so that trimming leaves
them as they are. -/
theorem warnings_blank_spans {file : String} {t : List Char} {g₀ : Grammar}
    (loaded : (Loading.loadText file t).result = .ok g₀) (x : Char) {g : Grammar}
    (hg : g = g₀.withStart x) :
    (∀ w, w ≠ [] → logged g w = report g w ∧
      ∃ r, (report g w).result = .ok r ∧ ofInput g w = .ok r ∧
        (∃ ps : List Nat, ps.Pairwise (· < ·) ∧ (∀ p, p ∈ ps ↔ g.Unproduced w p) ∧
          List.Forall₂ (fun p e => ∃ c, w[p]? = some c ∧ e = .unproduced c) ps
            ((report g w).log.filter fun e => e.level = .warn)) ∧
        (∀ p, g.Unproduced w p → ∀ i j, i ≤ p → p ≤ j → j < w.length →
          r.chart.cell? ⟨i, j⟩ = some ∅) ∧
        ((∃ e ∈ (report g w).log, e.level = .warn) → r.accepted = false)) ∧
    (∀ w, g.Accepts w → g.Spells w ∧ Text.trim w = w) ∧
    ∀ (σ : Type) (choose : Chooser σ) (maxDepth : Nat) (s : σ) w,
      (generate choose g maxDepth s).1 = .ok w → g.Spells w ∧ Text.trim w = w := by
  subst hg
  have cased : ∀ r ∈ (g₀.withStart x).rules, r.Cased :=
    fun r hr => Loading.cased_of_loadText loaded r hr
  have spelt : ∀ y w, (g₀.withStart x).Yields y w →
      (g₀.withStart x).Spells w ∧ Text.trim w = w := by
    intro y w h
    exact ⟨h.spells cased, (h.spells cased).trim_eq_self⟩
  refine ⟨?_, fun w h => spelt _ w (accepts_iff_yields.1 h),
    fun σ choose maxDepth s w h => spelt _ w (yields_of_generate h)⟩
  intro w hw
  have hr := ofInput_of_ne_nil (g := g₀.withStart x) hw
  refine ⟨logged_eq_report _ w, _, result_report_of_ofInput hr, hr, ?_, ?_, ?_⟩
  · rw [filter_log_report hw]
    exact exists_positions _ w
  · intro p hp i j hi hj hjw
    show (chartOf _ w).cell? ⟨i, j⟩ = some ∅
    rw [cell?_chartOf_eq_cell ⟨hi.trans hj, hjw⟩, cell_eq_empty hp hi hj hjw]
  · rintro ⟨e, he, warn⟩
    obtain ⟨p, hp⟩ := exists_unproduced_of_warn hw he warn
    rw [Bool.eq_false_iff, ne_eq, ← accepts_iff_of_ofInput hr]
    exact not_accepts_of_unproduced hp

/-- No rule has the second character for its right side, nor could it. -/
theorem warns_about_aXb :
    (Loading.loadText "" "S -> AB\nS -> AC\nC -> SB\nA -> a\nB -> b".toList).result =
        .ok balanced ∧ balanced = balanced.withStart 'S' ∧ ['a', 'X', 'b'] ≠ [] ∧
      balanced.Unproduced ['a', 'X', 'b'] 1 ∧
      ∃ r, (report balanced ['a', 'X', 'b']).result = .ok r ∧
        r.chart.cell? ⟨0, 2⟩ = some ∅ ∧ r.accepted = false := by
  have loaded : (Loading.loadText "" "S -> AB\nS -> AC\nC -> SB\nA -> a\nB -> b".toList).result =
      .ok balanced := by decide +kernel
  have start : balanced = balanced.withStart 'S' := rfl
  have nonempty : ['a', 'X', 'b'] ≠ [] := by decide
  have hX : balanced.Unproduced ['a', 'X', 'b'] 1 := ⟨'X', rfl, by decide⟩
  have warned : ∃ e ∈ (report balanced ['a', 'X', 'b']).log, e.level = .warn :=
    ⟨.unproduced 'X', by decide +kernel, rfl⟩
  obtain ⟨-, r, hr, -, -, blank, rejected⟩ :=
    (warnings_blank_spans loaded 'S' start).1 ['a', 'X', 'b'] nonempty
  exact ⟨loaded, start, nonempty, hX, r, hr, blank 1 hX 0 2 (by decide) (by decide) (by decide),
    rejected warned⟩

end Recognition

end NormalGrammar

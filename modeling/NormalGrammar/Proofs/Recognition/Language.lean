import NormalGrammar.Proofs.Derivation
import NormalGrammar.Proofs.Recognition.Filling

/-!
# The recognised language

The cell of a span holds the nonterminals that have a tree for the characters of the span. Both
directions are one induction on the span's distance: a cut of the span is a node of the tree.
The start symbol in the last cell therefore decides membership.
-/

namespace NormalGrammar

/-! ## The characters of a span -/

namespace Span

/-- The characters of a span of the input. -/
def text (s : Span) (w : List Char) : List Char := (w.drop s.first).take (s.last + 1 - s.first)

theorem text_self {w : List Char} {i : Nat} {c : Char} (hc : w[i]? = some c) :
    text ⟨i, i⟩ w = [c] := by
  obtain ⟨hi, rfl⟩ := List.getElem?_eq_some_iff.1 hc
  unfold text
  rw [List.drop_eq_getElem_cons hi, Nat.add_sub_cancel_left, List.take_succ_cons, List.take_zero]

theorem length_text {s : Span} {w : List Char} (hs : s.Within w.length) :
    (s.text w).length = s.distance + 1 := by
  obtain ⟨h₁, h₂⟩ := hs
  unfold text distance
  rw [List.length_take, List.length_drop]
  omega

theorem text_whole (w : List Char) : text ⟨0, w.length - 1⟩ w = w := by
  unfold text
  rw [List.drop_zero]
  apply List.take_of_length_le
  show w.length ≤ w.length - 1 + 1 - 0
  omega

theorem text_append (w : List Char) {i k j : Nat} (hik : i ≤ k) (hkj : k < j) :
    text ⟨i, k⟩ w ++ text ⟨k + 1, j⟩ w = text ⟨i, j⟩ w := by
  show (w.drop i).take (k + 1 - i) ++ (w.drop (k + 1)).take (j + 1 - (k + 1)) =
    (w.drop i).take (j + 1 - i)
  rw [show j + 1 - i = (k + 1 - i) + (j + 1 - (k + 1)) by omega, List.take_add, List.drop_drop,
    show i + (k + 1 - i) = k + 1 by omega]

/-- A text of two parts belongs to a span that is cut between them. -/
theorem exists_cut {w u v : List Char} {i j : Nat} (hs : Within ⟨i, j⟩ w.length) (hu : u ≠ [])
    (hv : v ≠ []) (h : u ++ v = text ⟨i, j⟩ w) :
    ∃ k, i ≤ k ∧ k < j ∧ u = text ⟨i, k⟩ w ∧ v = text ⟨k + 1, j⟩ w := by
  have hpos := List.length_pos_iff.2 hu
  have hpos' := List.length_pos_iff.2 hv
  have hlen : u.length + v.length = j - i + 1 := by
    rw [← List.length_append, h]
    exact length_text hs
  have hik : i ≤ i + u.length - 1 := by omega
  have hkj : i + u.length - 1 < j := by omega
  have hleft : u.length = (text ⟨i, i + u.length - 1⟩ w).length := by
    rw [length_text ⟨hik, Nat.lt_trans hkj hs.2⟩]
    show u.length = i + u.length - 1 - i + 1
    omega
  rw [← text_append w hik hkj] at h
  obtain ⟨e₁, e₂⟩ := List.append_inj h hleft
  exact ⟨_, hik, hkj, e₁, e₂⟩

end Span

namespace Recognition

variable {g : Grammar} {w : List Char}

/-- A cell holds the nonterminals with a tree for the characters of its span. -/
theorem mem_cell_iff_yields {i j : Nat} (hij : i ≤ j) (hj : j < w.length) {x : Char} :
    x ∈ cell g w ⟨i, j⟩ ↔ g.Yields x (Span.text ⟨i, j⟩ w) := by
  induction hd : j - i using Nat.strongRecOn generalizing i j x with
  | ind d ih =>
    subst hd
    rcases Nat.eq_or_lt_of_le hij with rfl | hlt
    · have hc : w[i]? = some w[i] := List.getElem?_eq_getElem hj
      rw [mem_cell_self hc, Span.text_self hc, Grammar.yields_singleton_iff]
    · rw [mem_cell_of_lt hlt hj]
      constructor
      · rintro ⟨k, b, c, hik, hkj, hb, hc, rule⟩
        rw [← Span.text_append w hik hkj]
        exact .pair rule ((ih _ (by omega) hik (by omega) rfl).1 hb)
          ((ih _ (by omega) hkj hj rfl).1 hc)
      · intro h
        rcases h.cases with ⟨c, hc, -⟩ | ⟨b, c, u, v, huv, rule, hu, hv⟩
        · have hlen : (Span.text ⟨i, j⟩ w).length = j - i + 1 := Span.length_text ⟨hij, hj⟩
          rw [hc, List.length_singleton] at hlen
          omega
        · obtain ⟨k, hik, hkj, rfl, rfl⟩ :=
            Span.exists_cut ⟨hij, hj⟩ hu.ne_nil hv.ne_nil huv.symm
          exact ⟨k, b, c, hik, hkj, (ih _ (by omega) hik (by omega) rfl).2 hu,
            (ih _ (by omega) hkj hj rfl).2 hv, rule⟩

/-! ## The verdict -/

theorem ofInput_nil : ofInput g [] = .error .empty := rfl

theorem ofInput_of_ne_nil (hw : w ≠ []) :
    ofInput g w = .ok ⟨chartOf g w, g.start ∈ cell g w ⟨0, w.length - 1⟩⟩ := by
  rw [ofInput, if_neg (by simpa using hw)]
  rfl

end Recognition

/-- The recogniser answers for the input, and accepts it. -/
def Grammar.Accepts (g : Grammar) (w : List Char) : Prop :=
  ∃ r, Recognition.ofInput g w = .ok r ∧ r.accepted = true

namespace Grammar

variable {g : Grammar} {w : List Char}

theorem Accepts.ne_nil (h : g.Accepts w) : w ≠ [] := by
  rintro rfl
  obtain ⟨r, hr, -⟩ := h
  rw [Recognition.ofInput_nil] at hr
  cases hr

theorem accepts_iff_of_ofInput {r : Recognition} (hr : Recognition.ofInput g w = .ok r) :
    g.Accepts w ↔ r.accepted = true := by
  unfold Accepts
  rw [hr]
  simp

/-- The recogniser accepts the words of the start symbol. -/
theorem accepts_iff_yields : g.Accepts w ↔ g.Yields g.start w := by
  by_cases hw : w = []
  · subst hw
    exact ⟨fun h => absurd rfl h.ne_nil, fun h => absurd rfl h.ne_nil⟩
  · have hcell := Recognition.mem_cell_iff_yields (g := g) (Nat.zero_le _)
      (Nat.sub_one_lt (List.length_eq_zero_iff.not.2 hw)) (x := g.start)
    rw [Span.text_whole] at hcell
    unfold Accepts
    rw [← hcell, Recognition.ofInput_of_ne_nil hw]
    simp

/-- **Soundness and completeness.** A non-empty input gets a chart in which the cell of each span
holds the nonterminals that derive the characters of the span, and the input is accepted if and
only if the start symbol derives it. -/
theorem ofInput_iff_derives (g : Grammar) {w : List Char} (hw : w ≠ []) :
    ∃ r, Recognition.ofInput g w = .ok r ∧
      (∀ i j, i ≤ j → j < w.length → ∃ cell, r.chart.cell? ⟨i, j⟩ = some cell ∧
        ∀ x, x ∈ cell ↔ g.Derives [.nonterminal x] (Symbol.ofWord (Span.text ⟨i, j⟩ w))) ∧
      (r.accepted = true ↔ g.Derives [.nonterminal g.start] (Symbol.ofWord w)) := by
  have hr := Recognition.ofInput_of_ne_nil (g := g) hw
  refine ⟨_, hr, ?_, ?_⟩
  · intro i j hij hj
    refine ⟨Recognition.cell g w ⟨i, j⟩, Recognition.cell?_chartOf_eq_cell ⟨hij, hj⟩, ?_⟩
    intro x
    rw [Recognition.mem_cell_iff_yields hij hj, yields_iff_derives]
  · rw [← yields_iff_derives, ← accepts_iff_yields]
    unfold Accepts
    rw [hr]
    simp

/-- The words of some `a` and then as many `b`. -/
def balanced : Grammar :=
  .ofRules [⟨'S', .pair 'A' 'B'⟩, ⟨'S', .pair 'A' 'C'⟩, ⟨'C', .pair 'S' 'B'⟩,
    ⟨'A', .terminal 'a'⟩, ⟨'B', .terminal 'b'⟩]

theorem balanced_derives_aabb_not_abb :
    (['a', 'a', 'b', 'b'] ≠ [] ∧
      balanced.Derives [.nonterminal 'S'] (Symbol.ofWord ['a', 'a', 'b', 'b'])) ∧
    (['a', 'b', 'b'] ≠ [] ∧
      ¬ balanced.Derives [.nonterminal 'S'] (Symbol.ofWord ['a', 'b', 'b'])) := by
  have hw : ['a', 'a', 'b', 'b'] ≠ [] := by decide
  have hv : ['a', 'b', 'b'] ≠ [] := by decide
  obtain ⟨r, hr, -, hw'⟩ := ofInput_iff_derives balanced hw
  obtain ⟨q, hq, -, hv'⟩ := ofInput_iff_derives balanced hv
  have accepted : (Recognition.ofInput balanced ['a', 'a', 'b', 'b']).map (·.accepted) =
      .ok true := by decide +kernel
  have rejected : (Recognition.ofInput balanced ['a', 'b', 'b']).map (·.accepted) =
      .ok false := by decide +kernel
  rw [hr] at accepted
  rw [hq] at rejected
  have hq : q.accepted = false := Except.ok.inj rejected
  refine ⟨⟨hw, hw'.1 (Except.ok.inj accepted)⟩, hv, ?_⟩
  intro h
  rw [hv'.2 h] at hq
  cases hq

end Grammar

end NormalGrammar

import Mathlib.Logic.Equiv.Basic
import NormalGrammar.Proofs.Derivation
import NormalGrammar.Proofs.Sampling.Growth

/-!
# Index sequences enumerate trees

A source that hands out indices turns `expand` into a decoder: a sequence that is used up exactly
stands for one tree, and every tree that fits into the budget has one sequence
(`expand_enumerates_trees`).
-/

namespace NormalGrammar

/-- Hands out the given indices one after the other. The sequence is lost as soon as an index is
missing or is not below the number of candidates. -/
def indices : Chooser (Option (List Nat)) := fun n hn s =>
  match s with
  | some (i :: is) => if hi : i < n then (⟨i, hi⟩, some is) else (⟨0, hn⟩, none)
  | _ => (⟨0, hn⟩, none)

/-- A lost sequence stays lost. -/
theorem makes_indices_none {cs : List (Nat × Nat)} {s : Option (List Nat)}
    (h : Makes indices cs none s) : s = none := by
  induction cs with
  | nil => exact h.symm
  | cons c cs ih =>
    obtain ⟨hn, -, rest⟩ := h
    exact ih rest

theorem makes_indices_iff {cs : List (Nat × Nat)} {is rest : List Nat} :
    Makes indices cs (some is) (some rest) ↔
      is = cs.map (·.2) ++ rest ∧ ∀ c ∈ cs, c.2 < c.1 := by
  induction cs generalizing is with
  | nil => simp [Makes]
  | cons c cs ih =>
    obtain ⟨n, i⟩ := c
    rw [Makes, List.map_cons, List.cons_append, List.forall_mem_cons]
    constructor
    · rintro ⟨hn, hi, made⟩
      rcases is with _ | ⟨j, is⟩
      · exact absurd (makes_indices_none made) (by simp)
      · by_cases hj : j < n
        · simp only [indices, dif_pos hj] at hi made
          obtain ⟨rfl, hlt⟩ := ih.1 made
          exact ⟨by rw [hi], by omega, hlt⟩
        · simp only [indices, dif_neg hj] at made
          exact absurd (makes_indices_none made) (by simp)
    · rintro ⟨rfl, hi, hlt⟩
      have hi : i < n := hi
      have hn : 0 < n := Nat.zero_lt_of_lt hi
      refine ⟨hn, ?_, ?_⟩
      · simp only [indices, dif_pos hi]
      · simp only [indices, dif_pos hi]
        exact ih.2 ⟨rfl, hlt⟩

namespace Grammar

variable {g : Grammar} {x : Char} {budget : Nat} {is : List Nat} {t : Tree}

theorem grow_indices_iff :
    grow indices g (Heights.least g) budget x (some is) = (.ok t, some []) ↔
      (t.ValidFor g x ∧ t.height ≤ budget) ∧
        is = (t.choices g (Heights.least g) budget x).map (·.2) := by
  rw [grow_eq_ok_iff, makes_indices_iff, List.append_nil, and_assoc]
  constructor
  · rintro ⟨valid, hb, rfl, -⟩
    exact ⟨valid, hb, rfl⟩
  · rintro ⟨valid, hb, rfl⟩
    exact ⟨valid, hb, rfl, fun c hc => (choices_lt valid hb c hc).1⟩

/-- The indices are used up exactly when a word is written from the nonterminal. -/
def Consumes (g : Grammar) (x : Char) (budget : Nat) (is : List Nat) : Prop :=
  ∃ word, expand indices g (Heights.least g) budget x #[] (some is) = (.ok word, some [])

theorem consumes_iff : g.Consumes x budget is ↔
    ∃ t, grow indices g (Heights.least g) budget x (some is) = (.ok t, some []) := by
  constructor
  · rintro ⟨word, e⟩
    obtain ⟨t, ht, -⟩ := exists_grow_of_expand e
    exact ⟨t, ht⟩
  · rintro ⟨t, ht⟩
    exact ⟨_, expand_of_grow ht #[]⟩

/-- The sequence of a tree. -/
def sequenceOf (g : Grammar) (x : Char) (budget : Nat)
    (t : {t : Tree // t.ValidFor g x ∧ t.height ≤ budget}) : {is // g.Consumes x budget is} :=
  ⟨_, consumes_iff.2 ⟨t.1, grow_indices_iff.2 ⟨t.2, rfl⟩⟩⟩

theorem grow_sequenceOf (t : {t : Tree // t.ValidFor g x ∧ t.height ≤ budget}) :
    grow indices g (Heights.least g) budget x (some (g.sequenceOf x budget t).1) =
      (.ok t.1, some []) := grow_indices_iff.2 ⟨t.2, rfl⟩

theorem bijective_sequenceOf (g : Grammar) (x : Char) (budget : Nat) :
    Function.Bijective (g.sequenceOf x budget) := by
  constructor
  · intro t t' he
    have ht := grow_sequenceOf t
    rw [he, grow_sequenceOf t'] at ht
    exact Subtype.ext (Except.ok.inj (Prod.mk.inj ht).1).symm
  · rintro ⟨is, consumed⟩
    obtain ⟨t, ht⟩ := consumes_iff.1 consumed
    obtain ⟨valid, rfl⟩ := grow_indices_iff.1 ht
    exact ⟨⟨t, valid⟩, rfl⟩

/-- A tree within the budget has at least one leaf and at most two to the power of the levels
below its root. -/
theorem length_of_generate {σ : Type} {choose : Chooser σ} {s : σ} {maxDepth n : Nat}
    {w : List Char} (hn : (Heights.least g).height? g.start = some n)
    (hw : (generate choose g maxDepth s).1 = .ok w) :
    1 ≤ w.length ∧ w.length ≤ 2 ^ (max maxDepth n - 1) := by
  obtain ⟨t, ht, rfl⟩ := (generate_eq_ok_iff hn).1 (Prod.ext hw rfl)
  obtain ⟨-, hb, -⟩ := grow_eq_ok_iff.1 ht
  refine ⟨List.length_pos_iff.2 t.yield_ne_nil, ?_⟩
  calc t.yield.length ≤ 2 ^ (t.height - 1) := t.length_yield_le
    _ ≤ 2 ^ (max maxDepth n - 1) :=
      Nat.pow_le_pow_right Nat.two_pos (Nat.sub_le_sub_right hb 1)

/-- **Enumeration.** The index sequences that are used up exactly stand one to one for the trees
that fit into the budget, and what is appended to the word is the yield of the tree. In particular
the words of the start symbol are the yields of its trees up to the raised height. -/
theorem expand_enumerates_trees (g : Grammar) :
    (∀ x budget, ∃ e : {is // g.Consumes x budget is} ≃
        {t : Tree // t.ValidFor g x ∧ t.height ≤ budget},
      ∀ is, grow indices g (Heights.least g) budget x (some is.1) = (.ok (e is).1, some []) ∧
        ∀ word, expand indices g (Heights.least g) budget x word (some is.1) =
          (.ok (word ++ (e is).1.yield.toArray), some [])) ∧
    ∀ maxDepth n, (Heights.least g).height? g.start = some n →
      (∀ t : Tree, (∃ is, generate indices g maxDepth (some is) = (.ok t.yield, some []) ∧
          grow indices g (Heights.least g) (max maxDepth n) g.start (some is) =
            (.ok t, some [])) ↔ t.ValidFor g g.start ∧ t.height ≤ max maxDepth n) ∧
      ∀ (σ : Type) (choose : Chooser σ) (s : σ) w, (generate choose g maxDepth s).1 = .ok w →
        1 ≤ w.length ∧ w.length ≤ 2 ^ (max maxDepth n - 1) := by
  constructor
  · intro x budget
    refine ⟨(Equiv.ofBijective _ (bijective_sequenceOf g x budget)).symm, ?_⟩
    intro is
    generalize ht : (Equiv.ofBijective _ (bijective_sequenceOf g x budget)).symm is = t
    rw [Equiv.symm_apply_eq, Equiv.ofBijective_apply] at ht
    subst ht
    exact ⟨grow_sequenceOf t, expand_of_grow (grow_sequenceOf t)⟩
  · intro maxDepth n hn
    refine ⟨?_, fun σ choose s w hw => length_of_generate hn hw⟩
    intro t
    constructor
    · rintro ⟨is, -, ht⟩
      exact (grow_indices_iff.1 ht).1
    · intro valid
      have ht := grow_sequenceOf (g := g) ⟨t, valid⟩
      exact ⟨_, (generate_eq_ok_iff hn).2 ⟨t, ht, rfl⟩, ht⟩

end Grammar

end NormalGrammar

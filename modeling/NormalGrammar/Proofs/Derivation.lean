import Mathlib.Algebra.Group.Nat.Defs
import NormalGrammar.Derivation

/-!
# Derivations and derivation trees

A sentential form covers a word if the word falls into pieces, one for each symbol, and each
nonterminal has a tree for its piece. Covering is carried back along every step, so that a
derivation of a word, in whatever order its steps come, leaves a tree behind
(`yields_iff_derives`).
-/

namespace NormalGrammar

/-! ## Heights and yields -/

namespace Tree

theorem height_le_length_yield (t : Tree) : t.height ≤ t.yield.length := by
  induction t with
  | leaf k c => exact Nat.le_refl 1
  | node k l r hl hr =>
    have := List.length_pos_iff.2 l.yield_ne_nil
    have := List.length_pos_iff.2 r.yield_ne_nil
    show 1 + max l.height r.height ≤ (l.yield ++ r.yield).length
    rw [List.length_append]
    omega

theorem length_yield_le (t : Tree) : t.yield.length ≤ 2 ^ (t.height - 1) := by
  induction t with
  | leaf k c => exact Nat.le_refl 1
  | node k l r hl hr =>
    have hpos := l.height_pos
    have left : 2 ^ (l.height - 1) ≤ 2 ^ (max l.height r.height - 1) :=
      Nat.pow_le_pow_right Nat.two_pos (by omega)
    have right : 2 ^ (r.height - 1) ≤ 2 ^ (max l.height r.height - 1) :=
      Nat.pow_le_pow_right Nat.two_pos (by omega)
    calc (l.yield ++ r.yield).length = l.yield.length + r.yield.length := List.length_append
      _ ≤ 2 ^ (max l.height r.height - 1) + 2 ^ (max l.height r.height - 1) :=
        Nat.add_le_add (Nat.le_trans hl left) (Nat.le_trans hr right)
      _ = 2 ^ (max l.height r.height - 1 + 1) := by rw [Nat.pow_succ, Nat.mul_two]
      _ = 2 ^ ((node k l r).height - 1) := by
        congr 1
        show max l.height r.height - 1 + 1 = 1 + max l.height r.height - 1
        omega

end Tree

/-! ## Covering -/

namespace Grammar

/-- The word is the trees of the form's nonterminals and its terminals, side by side. -/
inductive Covers (g : Grammar) : List Symbol → List Char → Prop where
  | nil : Covers g [] []
  | terminal {c : Char} {s : List Symbol} {w : List Char} (rest : Covers g s w) :
    Covers g (.terminal c :: s) (c :: w)
  | nonterminal {x : Char} {t : Tree} {s : List Symbol} {w : List Char} (tree : t.ValidFor g x)
    (rest : Covers g s w) : Covers g (.nonterminal x :: s) (t.yield ++ w)

variable {g : Grammar} {s t : List Symbol} {v w : List Char}

theorem covers_ofWord (g : Grammar) (w : List Char) : g.Covers (Symbol.ofWord w) w := by
  induction w with
  | nil => exact .nil
  | cons c w ih => exact .terminal ih

theorem Covers.append (h : g.Covers s v) (k : g.Covers t w) : g.Covers (s ++ t) (v ++ w) := by
  induction h with
  | nil => exact k
  | terminal _ ih => exact .terminal ih
  | nonterminal tree _ ih =>
    rw [List.append_assoc]
    exact .nonterminal tree ih

theorem Covers.exists_of_append (h : g.Covers (s ++ t) w) :
    ∃ u v, w = u ++ v ∧ g.Covers s u ∧ g.Covers t v := by
  induction s generalizing w with
  | nil => exact ⟨[], w, rfl, .nil, h⟩
  | cons a s ih =>
    cases h with
    | terminal rest =>
      obtain ⟨u, v, rfl, hu, hv⟩ := ih rest
      exact ⟨_ :: u, v, rfl, .terminal hu, hv⟩
    | @nonterminal _ r _ _ tree rest =>
      obtain ⟨u, v, rfl, hu, hv⟩ := ih rest
      exact ⟨r.yield ++ u, v, (List.append_assoc ..).symm, .nonterminal tree hu, hv⟩

/-- The trees below the right side of a rule grow together to one for its left side. -/
theorem Covers.exists_tree {x : Char} {p : Production} (rule : ⟨x, p⟩ ∈ g.rules)
    (h : g.Covers p.symbols w) : ∃ r : Tree, r.ValidFor g x ∧ r.yield = w := by
  obtain ⟨k, hk⟩ := List.getElem?_of_mem rule
  cases p with
  | terminal c =>
    cases h with
    | terminal rest =>
      cases rest
      exact ⟨.leaf k c, .leaf hk, rfl⟩
  | pair b c =>
    cases h with
    | nonterminal left rest =>
      cases rest with
      | nonterminal right rest =>
        cases rest
        exact ⟨.node k _ _, .node hk left right, by simp⟩

theorem Covers.of_step (step : g.Step s t) (h : g.Covers t w) : g.Covers s w := by
  obtain ⟨a, b, rule⟩ := step
  obtain ⟨u, mv, rfl, hu, hmv⟩ := h.exists_of_append
  obtain ⟨m, v, rfl, hm, hv⟩ := hmv.exists_of_append
  obtain ⟨r, tree, rfl⟩ := hm.exists_tree rule
  exact hu.append (.nonterminal tree hv)

theorem Derives.covers (h : g.Derives s (Symbol.ofWord w)) : g.Covers s w := by
  generalize ht : Symbol.ofWord w = t at h
  induction h with
  | refl =>
    subst ht
    exact covers_ofWord g w
  | head step _ ih => exact (ih ht).of_step step

end Grammar

/-! ## Words of a nonterminal -/

/-- The word is the yield of a tree of the nonterminal. -/
def Grammar.Yields (g : Grammar) (x : Char) (w : List Char) : Prop :=
  ∃ t : Tree, t.ValidFor g x ∧ t.yield = w

/-- The steps of a tree may be taken from its root downwards, left parts first. -/
theorem Tree.ValidFor.derives {g : Grammar} {x : Char} {t : Tree} (h : t.ValidFor g x) :
    g.Derives [.nonterminal x] (Symbol.ofWord t.yield) := by
  induction h with
  | leaf rule => exact .head (.mk [] [] (List.mem_of_getElem? rule)) (.refl _)
  | @node x b c k l r rule _ _ ihl ihr =>
    have left : g.Derives [.nonterminal b, .nonterminal c]
        (Symbol.ofWord l.yield ++ [.nonterminal c]) := ihl.append_right [.nonterminal c]
    have right : g.Derives (Symbol.ofWord l.yield ++ [.nonterminal c])
        (Symbol.ofWord l.yield ++ Symbol.ofWord r.yield) := ihr.append_left _
    rw [Tree.yield_node, Symbol.ofWord, List.map_append]
    exact .head (.mk [] [] (List.mem_of_getElem? rule)) (left.trans right)

namespace Grammar

variable {g : Grammar} {x : Char} {w : List Char}

/-- A nonterminal derives a word if and only if it has a tree for it. -/
theorem yields_iff_derives : g.Yields x w ↔ g.Derives [.nonterminal x] (Symbol.ofWord w) := by
  constructor
  · rintro ⟨t, h, rfl⟩
    exact h.derives
  · intro h
    cases h.covers with
    | @nonterminal _ t _ _ tree rest =>
      cases rest
      exact ⟨t, tree, (List.append_nil _).symm⟩

theorem Yields.ne_nil (h : g.Yields x w) : w ≠ [] := by
  obtain ⟨t, -, rfl⟩ := h
  exact t.yield_ne_nil

theorem Yields.pair {b c : Char} {u v : List Char} (rule : ⟨x, .pair b c⟩ ∈ g.rules)
    (hu : g.Yields b u) (hv : g.Yields c v) : g.Yields x (u ++ v) := by
  obtain ⟨l, hl, rfl⟩ := hu
  obtain ⟨r, hr, rfl⟩ := hv
  obtain ⟨k, hk⟩ := List.getElem?_of_mem rule
  exact ⟨.node k l r, .node hk hl hr, rfl⟩

theorem Yields.terminal {c : Char} (rule : ⟨x, .terminal c⟩ ∈ g.rules) : g.Yields x [c] := by
  obtain ⟨k, hk⟩ := List.getElem?_of_mem rule
  exact ⟨.leaf k c, .leaf hk, rfl⟩

/-- The rule at the root, and what the parts below it yield. -/
theorem Yields.cases (h : g.Yields x w) :
    (∃ c, w = [c] ∧ ⟨x, .terminal c⟩ ∈ g.rules) ∨
      ∃ b c u v, w = u ++ v ∧ ⟨x, .pair b c⟩ ∈ g.rules ∧ g.Yields b u ∧ g.Yields c v := by
  obtain ⟨t, ht, rfl⟩ := h
  cases ht with
  | leaf rule => exact Or.inl ⟨_, rfl, List.mem_of_getElem? rule⟩
  | @node _ b c k l r rule hl hr =>
    exact Or.inr ⟨b, c, l.yield, r.yield, rfl, List.mem_of_getElem? rule, ⟨l, hl, rfl⟩,
      ⟨r, hr, rfl⟩⟩

theorem yields_singleton_iff {c : Char} : g.Yields x [c] ↔ ⟨x, .terminal c⟩ ∈ g.rules := by
  refine ⟨?_, .terminal⟩
  intro h
  rcases h.cases with ⟨d, hd, rule⟩ | ⟨b, d, u, v, huv, -, hu, hv⟩
  · obtain rfl := List.singleton_inj.1 hd
    exact rule
  · have h₁ := List.length_pos_iff.2 hu.ne_nil
    have h₂ := List.length_pos_iff.2 hv.ne_nil
    have := congrArg List.length huv
    simp only [List.length_append, List.length_singleton] at this
    omega

end Grammar

end NormalGrammar

import NormalGrammar.Grammar

/-!
# Derivations

A sentential form is a list of symbols. `Grammar.Step` replaces one nonterminal by the right side
of one of its rules, and `Grammar.Derives` takes any number of steps.

In a derivation tree every node is labelled with the position of its rule in the grammar, so that
trees which use two copies of one rule differ. `Tree.ValidFor` says when a tree belongs to a
grammar and a nonterminal.
-/

namespace NormalGrammar

/-! ## Sentential forms -/

/-- The sentential form of a word. -/
def Symbol.ofWord (w : List Char) : List Symbol := w.map .terminal

namespace Grammar

/-- One occurrence of a nonterminal gives way to the right side of a rule. -/
inductive Step (g : Grammar) : List Symbol → List Symbol → Prop where
  | mk (u v : List Symbol) {x : Char} {p : Production} (rule : ⟨x, p⟩ ∈ g.rules) :
    Step g (u ++ .nonterminal x :: v) (u ++ (p.symbols ++ v))

/-- Finitely many steps. -/
inductive Derives (g : Grammar) : List Symbol → List Symbol → Prop where
  | refl (s : List Symbol) : Derives g s s
  | head {s t u : List Symbol} (step : Step g s t) (rest : Derives g t u) : Derives g s u

variable {g : Grammar} {s t u : List Symbol}

theorem Step.append_left (h : g.Step s t) (u : List Symbol) : g.Step (u ++ s) (u ++ t) := by
  obtain ⟨a, b, rule⟩ := h
  simpa only [List.append_assoc] using Step.mk (u ++ a) b rule

theorem Step.append_right (h : g.Step s t) (u : List Symbol) : g.Step (s ++ u) (t ++ u) := by
  obtain ⟨a, b, rule⟩ := h
  simpa only [List.append_assoc, List.cons_append] using Step.mk a (b ++ u) rule

theorem Derives.trans (h : g.Derives s t) (k : g.Derives t u) : g.Derives s u := by
  induction h with
  | refl => exact k
  | head step _ ih => exact .head step (ih k)

theorem Derives.append_left (h : g.Derives s t) (u : List Symbol) :
    g.Derives (u ++ s) (u ++ t) := by
  induction h with
  | refl => exact .refl _
  | head step _ ih => exact .head (step.append_left u) ih

theorem Derives.append_right (h : g.Derives s t) (u : List Symbol) :
    g.Derives (s ++ u) (t ++ u) := by
  induction h with
  | refl => exact .refl _
  | head step _ ih => exact .head (step.append_right u) ih

end Grammar

/-! ## Derivation trees -/

/-- A derivation tree. A leaf is a terminal rule, a node a rule for a pair. -/
inductive Tree where
  | leaf (rule : Nat) (c : Char)
  | node (rule : Nat) (left right : Tree)
deriving DecidableEq

namespace Tree

/-- The derived word. -/
def yield : Tree → List Char
  | .leaf _ c => [c]
  | .node _ l r => l.yield ++ r.yield

/-- The number of rules on a longest path. -/
def height : Tree → Nat
  | .leaf _ _ => 1
  | .node _ l r => 1 + max l.height r.height

/-- The tree derives its yield from the nonterminal by the rules of the grammar. -/
inductive ValidFor (g : Grammar) : Char → Tree → Prop where
  | leaf {x c : Char} {k : Nat} (rule : g.rules[k]? = some ⟨x, .terminal c⟩) :
    ValidFor g x (.leaf k c)
  | node {x b c : Char} {k : Nat} {l r : Tree} (rule : g.rules[k]? = some ⟨x, .pair b c⟩)
    (left : ValidFor g b l) (right : ValidFor g c r) : ValidFor g x (.node k l r)

@[simp] theorem yield_leaf (k : Nat) (c : Char) : (leaf k c).yield = [c] := rfl

@[simp] theorem yield_node (k : Nat) (l r : Tree) :
    (node k l r).yield = l.yield ++ r.yield := rfl

theorem height_pos (t : Tree) : 0 < t.height := by
  cases t <;> simp only [height] <;> omega

theorem yield_ne_nil (t : Tree) : t.yield ≠ [] := by
  induction t with
  | leaf k c => exact List.cons_ne_nil c []
  | node k l r hl _ => simp [hl]

end Tree

end NormalGrammar

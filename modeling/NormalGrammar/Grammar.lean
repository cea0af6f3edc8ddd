import NormalGrammar.Assoc
import NormalGrammar.SymbolSet
import NormalGrammar.Unicode.Classes

/-!
# Grammars in normal form

A grammar's symbols are single characters, and their case alone tells the two kinds apart. A rule
turns a nonterminal into one terminal or into two nonterminals.

A grammar is a list of rules with a start symbol. Its rules answer three questions: what a
nonterminal may become (`alternatives`), whether it has rules at all (`defines`), and which
nonterminals a right side comes from (`producers?`). The last answer is read from an index that
maps each right side to the set of its left sides; `mem_find?_ofRules` says what a look-up
answers, in terms of the rules alone.
-/

namespace NormalGrammar

/-! ## Symbols -/

/-- A symbol of a sentential form. -/
inductive Symbol where
  | terminal (c : Char)
  | nonterminal (c : Char)
deriving DecidableEq

namespace Symbol

/-- Lowercase characters are terminals, uppercase ones nonterminals, all others no symbols. -/
def classify (c : Char) : Option Symbol :=
  if Unicode.isLowercase c then some (.terminal c)
  else if Unicode.isUppercase c then some (.nonterminal c)
  else none

/-- The character stands for a terminal. -/
def isTerminal (c : Char) : Bool := classify c = some (.terminal c)

/-- The character stands for a nonterminal. -/
def isNonterminal (c : Char) : Bool := classify c = some (.nonterminal c)

theorem isTerminal_eq (c : Char) : isTerminal c = Unicode.isLowercase c := by
  unfold isTerminal classify
  cases Unicode.isLowercase c <;> cases Unicode.isUppercase c <;> simp

theorem isNonterminal_eq (c : Char) :
    isNonterminal c = (!Unicode.isLowercase c && Unicode.isUppercase c) := by
  unfold isNonterminal classify
  cases Unicode.isLowercase c <;> cases Unicode.isUppercase c <;> simp

end Symbol

/-! ## Rules -/

/-- The right side of a rule. -/
inductive Production where
  | terminal (c : Char)
  | pair (b c : Char)
deriving DecidableEq

namespace Production

/-- The nonterminals of a right side, left to right. -/
def nonterminals : Production → List Char
  | .terminal _ => []
  | .pair b c => [b, c]

/-- The characters of a right side. -/
def text : Production → List Char
  | .terminal c => [c]
  | .pair b c => [b, c]

/-- The sentential form that a right side stands for. -/
def symbols : Production → List Symbol
  | .terminal c => [.terminal c]
  | .pair b c => [.nonterminal b, .nonterminal c]

end Production

/-- One rule of a grammar. -/
structure Rule where
  left : Char
  right : Production
deriving DecidableEq

/-! ## Looking up rules by their right sides -/

/-- A map from right sides to the left sides that produce them. -/
structure ProducerIndex where
  entries : List (Production × SymbolSet)
deriving DecidableEq

namespace ProducerIndex

/-- The left sides recorded for a right side, none if it has no entry. -/
def find? (ix : ProducerIndex) (p : Production) : Option SymbolSet := ix.entries.lookup p

/-- Records the left side of one more rule. -/
def add (ix : ProducerIndex) (r : Rule) : ProducerIndex :=
  ⟨Assoc.put r.right (((ix.find? r.right).getD ∅).insert r.left) ix.entries⟩

/-- The index of a rule list. -/
def ofRules (rules : List Rule) : ProducerIndex := rules.foldl add ⟨[]⟩

/-- The indexes have the same entries. -/
def agrees (ix jx : ProducerIndex) : Bool := Assoc.agrees ix.entries jx.entries

theorem find?_add (ix : ProducerIndex) (r : Rule) (p : Production) :
    (ix.add r).find? p =
      if p = r.right then some (((ix.find? p).getD ∅).insert r.left) else ix.find? p := by
  unfold add find?
  rw [Assoc.lookup_put]
  by_cases h : p = r.right <;> simp [h]

theorem isSome_find?_foldl_add (rules : List Rule) (ix : ProducerIndex) (p : Production) :
    ((rules.foldl add ix).find? p).isSome ↔ (ix.find? p).isSome ∨ ∃ r ∈ rules, r.right = p := by
  induction rules generalizing ix with
  | nil => simp
  | cons r rules ih =>
    rw [List.foldl_cons, ih, find?_add]
    by_cases h : p = r.right
    · simp [h]
    · have h' : ¬ r.right = p := fun e => h e.symm
      simp [h, h']

theorem mem_find?_foldl_add (rules : List Rule) (ix : ProducerIndex) (p : Production) (x : Char) :
    x ∈ ((rules.foldl add ix).find? p).getD ∅ ↔
      x ∈ (ix.find? p).getD ∅ ∨ ⟨x, p⟩ ∈ rules := by
  induction rules generalizing ix with
  | nil => simp
  | cons r rules ih =>
    obtain ⟨l, q⟩ := r
    rw [List.foldl_cons, ih, find?_add]
    by_cases h : p = q
    · subst h
      simp [or_assoc, or_left_comm]
    · simp [h]

/-- A right side has an entry if and only if some rule has it. -/
theorem isSome_find?_ofRules (rules : List Rule) (p : Production) :
    ((ofRules rules).find? p).isSome ↔ ∃ r ∈ rules, r.right = p := by
  rw [ofRules, isSome_find?_foldl_add]
  simp [find?]

/-- The recorded left sides are those of the rules with that right side. -/
theorem mem_find?_ofRules (rules : List Rule) (p : Production) (x : Char) :
    x ∈ ((ofRules rules).find? p).getD ∅ ↔ ⟨x, p⟩ ∈ rules := by
  rw [ofRules, mem_find?_foldl_add]
  simp [find?]

end ProducerIndex

/-! ## Rules with a start symbol -/

/-- Rules in the order they were given, a start symbol, and the index of the rules. -/
structure Grammar where
  start : Char
  rules : List Rule
  index : ProducerIndex := ProducerIndex.ofRules rules
  index_eq : index = ProducerIndex.ofRules rules := by rfl
deriving DecidableEq

namespace Grammar

/-- The start symbol of a grammar for which none was chosen. -/
def defaultStart : Char := 'S'

/-- The grammar of a rule list. -/
def ofRules (rules : List Rule) : Grammar where
  start := defaultStart
  rules := rules

/-- The same rules with another start symbol, which need not have rules. -/
def withStart (g : Grammar) (x : Char) : Grammar := { g with start := x }

/-- The grammars have the same start symbol, the same rules in the same order, and indexes with
the same entries. -/
def agrees (g h : Grammar) : Bool :=
  g.start = h.start && g.rules = h.rules && g.index.agrees h.index

@[simp] theorem start_ofRules (rules : List Rule) : (ofRules rules).start = defaultStart := rfl

@[simp] theorem rules_ofRules (rules : List Rule) : (ofRules rules).rules = rules := rfl

@[simp] theorem start_withStart (g : Grammar) (x : Char) : (g.withStart x).start = x := rfl

@[simp] theorem rules_withStart (g : Grammar) (x : Char) : (g.withStart x).rules = g.rules := rfl

@[ext] theorem ext {g h : Grammar} (hs : g.start = h.start) (hr : g.rules = h.rules) : g = h := by
  obtain ⟨s, r, i, hi⟩ := g
  obtain ⟨s', r', i', hi'⟩ := h
  simp only at hs hr
  subst hs hr hi hi'
  rfl

/-! ### Queries -/

/-- The left sides of the rules with this right side, none if no rule has it. -/
def producers? (g : Grammar) (p : Production) : Option SymbolSet := g.index.find? p

/-- The left sides of the rules with this right side, possibly no one. -/
def producers (g : Grammar) (p : Production) : SymbolSet := (g.producers? p).getD ∅

/-- The right sides of a nonterminal, in rule order and with repetitions. -/
def alternatives (g : Grammar) (x : Char) : List Production :=
  (g.rules.filter fun r => r.left == x).map (·.right)

/-- The nonterminal has a rule. -/
def defines (g : Grammar) (x : Char) : Bool := g.rules.any fun r => r.left == x

theorem isSome_producers? {g : Grammar} {p : Production} :
    (g.producers? p).isSome ↔ ∃ r ∈ g.rules, r.right = p := by
  rw [producers?, g.index_eq, ProducerIndex.isSome_find?_ofRules]

@[simp] theorem mem_producers {g : Grammar} {p : Production} {x : Char} :
    x ∈ g.producers p ↔ ⟨x, p⟩ ∈ g.rules := by
  rw [producers, producers?, g.index_eq, ProducerIndex.mem_find?_ofRules]

@[simp] theorem mem_alternatives {g : Grammar} {x : Char} {p : Production} :
    p ∈ g.alternatives x ↔ ⟨x, p⟩ ∈ g.rules := by
  simp only [alternatives, List.mem_map, List.mem_filter, beq_iff_eq]
  constructor
  · rintro ⟨⟨l, q⟩, ⟨hr, rfl⟩, rfl⟩
    exact hr
  · exact fun h => ⟨⟨x, p⟩, ⟨h, rfl⟩, rfl⟩

theorem defines_iff {g : Grammar} {x : Char} : g.defines x = true ↔ ∃ p, ⟨x, p⟩ ∈ g.rules := by
  simp only [defines, List.any_eq_true, beq_iff_eq]
  constructor
  · rintro ⟨⟨l, q⟩, hr, rfl⟩
    exact ⟨q, hr⟩
  · rintro ⟨p, h⟩
    exact ⟨⟨x, p⟩, h, rfl⟩

end Grammar

end NormalGrammar

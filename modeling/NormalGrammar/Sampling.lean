import NormalGrammar.CompileFault
import NormalGrammar.Heights
import NormalGrammar.Random

/-!
# Sampling

A random word is written from left to right while its derivation tree grows from the start
symbol within a budget for its height: only rules whose least height fits into what is left of
the budget are candidates, and each occurrence of a rule is one candidate.
-/

namespace NormalGrammar

/-- Why there is no word to pick. -/
inductive SampleFault where
  | unproductive (x : Char)
deriving DecidableEq

namespace SampleFault

/-- The fault in words. -/
def message : SampleFault → String
  | .unproductive x => "Generate error: nonterminal `" ++ x.toString ++ "` derives no finite word"

/-- The line that reports the fault. -/
def display (f : SampleFault) : String := Location.unknown.report f.message

end SampleFault

namespace Grammar

/-- The positions and right sides of a nonterminal's rules, in rule order. -/
def occurrences (g : Grammar) (x : Char) : List (Nat × Production) :=
  g.rules.zipIdx.filterMap fun (r, k) => if r.left = x then some (k, r.right) else none

/-- The right side can be finished with trees of the given least heights within the budget. -/
def fits (h : Heights) (budget : Nat) (p : Production) : Bool :=
  match h.ofProduction? p with
  | some n => n ≤ budget
  | none => false

/-- The rules of a nonterminal that can be finished within the budget. -/
def candidates (g : Grammar) (h : Heights) (x : Char) (budget : Nat) : List (Nat × Production) :=
  (g.occurrences x).filter fun (_, p) => fits h budget p

/-- One of the candidates, none if there are none. -/
def pick {σ : Type} (choose : Chooser σ) (g : Grammar) (h : Heights) (x : Char) (budget : Nat)
    (s : σ) : Option (Nat × Production) × σ :=
  let cs := g.candidates h x budget
  if hn : 0 < cs.length then
    match choose cs.length hn s with
    | (i, s) => (some cs[i], s)
  else (none, s)

/-- The word, followed by what the choices make of a nonterminal within a budget. Nothing fits
into an empty budget, for no tree has height 0. -/
def expand {σ : Type} (choose : Chooser σ) (g : Grammar) (h : Heights) :
    Nat → Char → Array Char → σ → Except SampleFault (Array Char) × σ
  | 0, x, _, s => (.error (.unproductive x), s)
  | budget + 1, x, word, s =>
    match pick choose g h x (budget + 1) s with
    | (none, s) => (.error (.unproductive x), s)
    | (some (_, .terminal c), s) => (.ok (word.push c), s)
    | (some (_, .pair b c), s) =>
      match expand choose g h budget b word s with
      | (.error e, s) => (.error e, s)
      | (.ok word, s) => expand choose g h budget c word s

/-- A random word of the start symbol. Its tree is at most `maxDepth` high, or as low as possible
if all trees are higher than that. -/
def generate {σ : Type} (choose : Chooser σ) (g : Grammar) (maxDepth : Nat) (s : σ) :
    Except SampleFault (List Char) × σ :=
  let h := Heights.least g
  match h.height? g.start with
  | some n =>
    match expand choose g h (max maxDepth n) g.start #[] s with
    | (word, s) => (word.map Array.toList, s)
  | none => (.error (.unproductive g.start), s)

/-- The greatest height of a tree for which no other is given. -/
def defaultMaxDepth : Nat := 8

/-- A random word, and the source after the words that were drawn for it. -/
def sample (g : Grammar) (maxDepth : Nat) (s : Source) : Except SampleFault (List Char) × Source :=
  generate Source.choose g maxDepth s

/-- As many words as asked for from one source, unless one of them fails. -/
def samples (g : Grammar) (maxDepth : Nat) :
    Nat → Source → Except SampleFault (List (List Char)) × Source
  | 0, s => (.ok [], s)
  | count + 1, s =>
    match g.sample maxDepth s with
    | (.error e, s) => (.error e, s)
    | (.ok w, s) =>
      match samples g maxDepth count s with
      | (ws, s) => (ws.map (w :: ·), s)

end Grammar

end NormalGrammar

import NormalGrammar.Chart
import NormalGrammar.CompileFault
import NormalGrammar.Grammar
import NormalGrammar.Report

/-!
# Recognition

The cell of a span collects the nonterminals that derive it. One position takes them from the
rules for its character, a longer span from the pairs over all of its cuts, which the schedule
has filled before.
-/

namespace NormalGrammar

/-- Why an input cannot be looked at. -/
inductive InputFault where
  | empty
deriving DecidableEq

namespace InputFault

/-- The fault in words. -/
def message : InputFault → String
  | .empty => "Input error: input string cannot be empty"

/-- The line that reports the fault. -/
def display (f : InputFault) : String := Location.unknown.report f.message

end InputFault

/-- A filled chart, and whether the start symbol is in the cell of the whole input. -/
structure Recognition where
  chart : Chart
  accepted : Bool
deriving DecidableEq

namespace Recognition

variable (g : Grammar)

/-- The nonterminals with a rule for a pair from the two cells of some cut. -/
def pairCell (chart : Chart) (s : Span) : SymbolSet :=
  .unions <| s.splits.flatMap fun (l, r) =>
    match chart.cell? l, chart.cell? r with
    | some left, some right =>
      left.toList.flatMap fun b => right.toList.map fun c => g.producers (.pair b c)
    | _, _ => []

/-- What belongs into the cell of a span, read off the input or off shorter spans. -/
def cellOf (w : List Char) (chart : Chart) (s : Span) : SymbolSet :=
  if s.first = s.last then
    match w[s.first]? with
    | some c => g.producers (.terminal c)
    | none => ∅
  else pairCell g chart s

/-- Fills the cell of one more span. -/
def step (w : List Char) (chart : Chart) (s : Span) : Chart := chart.fill s (cellOf g w chart s)

/-- The chart of an input. -/
def chartOf (w : List Char) : Chart := (Span.schedule w.length).foldl (step g w) (.blank w.length)

/-- Decides whether the grammar derives the input. The empty input is not looked at, for no rule
has an empty right side. -/
def ofInput (w : List Char) : Except InputFault Recognition :=
  if w.isEmpty then .error .empty
  else
    let chart := chartOf g w
    .ok ⟨chart, g.start ∈ (chart.cell? ⟨0, w.length - 1⟩).getD ∅⟩

/-! ## The log -/

/-- A warning for each position whose character no rule produces. -/
def warnings (w : List Char) : List Event :=
  w.filterMap fun c => if (g.producers? (.terminal c)).isNone then some (.unproduced c) else none

/-- Recognition with its log. -/
def report (w : List Char) : Report InputFault Recognition :=
  match ofInput g w with
  | .error e => .fail e
  | .ok r => ⟨[], .buildingTable w :: warnings g w, .ok r⟩

end Recognition

end NormalGrammar

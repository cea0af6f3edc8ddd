import NormalGrammar.Chart
import NormalGrammar.CommandLine.Arguments
import NormalGrammar.Loading
import NormalGrammar.Random
import NormalGrammar.Recognition

/-!
# Running a command line

A run loads the grammar, prints words if it is asked to, and then decides about each input. The
first fault ends it; what was printed before stays.
-/

namespace NormalGrammar.CommandLine

/-- What can end a run. -/
inductive RunFault where
  | grammar (errors : List CompileError)
  | input (fault : InputFault)
  | sample (fault : SampleFault)
deriving DecidableEq

/-- The lines that report the fault. -/
def RunFault.displays : RunFault → List String
  | .grammar es => es.map CompileError.display
  | .input f => [f.display]
  | .sample f => [f.display]

/-- Prints random words, one a line, from one source. -/
def printSamples (g : Grammar) (maxDepth : Nat) : Nat → Source → Report RunFault Unit
  | 0, _ => return ()
  | count + 1, s => do
    let (word, s) := g.sample maxDepth s
    let w ← .ofExcept (word.mapError .sample)
    .printLine (String.ofList w)
    printSamples g maxDepth count s

/-- Prints the verdict on one input, and its chart unless the run is quiet. -/
def printRecognition (g : Grammar) (quiet : Bool) (input : List Char) : Report RunFault Bool := do
  let w := Text.trim input
  let r ← (Recognition.report g w).mapError .input
  .printLine (String.ofList w ++ ": " ++ if r.accepted then "ACCEPTED" else "REJECTED")
  unless quiet do
    .printLine (String.ofList r.chart.render)
  return r.accepted

/-- Prints the verdicts on all inputs and tells whether all were accepted. -/
def printRecognitions (g : Grammar) (quiet : Bool) : List (List Char) → Report RunFault Bool
  | [] => return true
  | input :: inputs => do
    let first ← printRecognition g quiet input
    let rest ← printRecognitions g quiet inputs
    return first && rest

/-- The event of a refused grammar, named after its first error. -/
def rejection : List CompileError → List Event
  | [] => []
  | e :: _ => [.rejected e.fault.stage]

/-- Loads the grammar from its contents and sets the start symbol. -/
def load (o : Options) (contents : Except ReadFault ByteArray) : Report RunFault Grammar := do
  let loaded := Loading.loadGrammar (String.ofList o.grammar) contents
  let g ← (loaded.noteFailure rejection).mapError .grammar
  Loading.chooseStart g o.start

/-- Does all that is asked for, and tells whether all inputs were accepted. The other seed serves
when none is given. -/
def run (o : Options) (contents : Except ReadFault ByteArray) (otherSeed : UInt64) :
    Report RunFault Bool := do
  let g ← load o contents
  match o.generate with
  | some count => printSamples g o.maxDepth count (.ofSeed (o.seed.getD otherSeed))
  | none =>
    if o.inputs.isEmpty then
      .printLine (String.ofList o.grammar ++ ": valid CNF grammar with " ++
        toString g.rules.length ++ " rule(s)")
  printRecognitions g o.quiet o.inputs

/-! ## What the caller sees -/

/-- The exit code and all output, and whether the command line was refused. -/
structure Outcome where
  exit : Nat
  stdout : String
  stderr : String
  refused : Bool := false
deriving DecidableEq

/-- An event as a line on the standard error. Further lines of a message are indented. -/
def eventLine (e : Event) : String :=
  let level := String.ofList (e.level.name.toList.rightpad 5 ' ')
  let message := e.message.toList.flatMap fun c =>
    if c = '\n' then ['\n', ' ', ' ', ' ', ' '] else [c]
  "[" ++ level ++ " " ++ e.target ++ "] " ++ String.ofList message

/-- The events that are shown. -/
def shown (verbose : Bool) (log : List Event) : List Event :=
  log.filter fun e => verbose || e.level = .warn

/-- Ends each line. -/
def joinLines (ls : List String) : String := String.join (ls.map (· ++ "\n"))

/-- The outcome of a run: 0 if all inputs were accepted, 1 if not, 2 after a fault. -/
def Outcome.ofReport (verbose : Bool) (r : Report RunFault Bool) : Outcome :=
  let log := (shown verbose r.log).map eventLine
  match r.result with
  | .ok accepted =>
    { exit := if accepted then 0 else 1, stdout := .join r.out, stderr := joinLines log }
  | .error f => { exit := 2, stdout := .join r.out, stderr := joinLines (log ++ f.displays) }

/-- The text that describes the command line. -/
def helpText : String := joinLines [
  "Decides membership in a CNF grammar's language with the CYK algorithm",
  "",
  "Usage: cyk [OPTIONS] <GRAMMAR> [INPUTS]...",
  "",
  "Arguments:",
  "  <GRAMMAR>    File containing the grammar, one `LHS -> RHS` rule per line " ++
    "(`-` reads standard input)",
  "  [INPUTS]...  Strings to recognize, each checked against the whole grammar",
  "",
  "Options:",
  "  -s, --start <SYMBOL>     Start symbol [default: S]",
  "  -g, --generate <AMOUNT>  Amount of random words of the language to print",
  "      --max-depth <DEPTH>  Deepest derivation tree used when generating [default: 8]",
  "      --seed <SEED>        Seed for generating, random when absent",
  "  -q, --quiet              Only print whether each input is accepted",
  "  -v, --verbose            Log debug output",
  "  -h, --help               Print help",
  "  -V, --version            Print version"]

/-- The name and version of the program. -/
def versionText : String := "cyk 0.1.0\n"

/-- The outcome of a command line that leads to no run. -/
def Outcome.ofStop : Stop → Outcome
  | .usage f => { exit := 2, stdout := "", stderr := f.display, refused := true }
  | .version => { exit := 0, stdout := versionText, stderr := "" }
  | .help => { exit := 0, stdout := helpText, stderr := "" }

/-- The outcome of a command line, given a way to read a file and the standard input. -/
def outcome (args : List (List Char)) (readFile : List Char → Except ReadFault ByteArray)
    (stdin : ByteArray) (otherSeed : UInt64) : Outcome :=
  match Options.ofArgs args with
  | .error stop => .ofStop stop
  | .ok o =>
    let contents := if Path.isDash o.grammar then .ok stdin else readFile o.grammar
    .ofReport o.verbose (run o contents otherSeed)

end NormalGrammar.CommandLine

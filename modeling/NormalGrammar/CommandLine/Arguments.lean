import NormalGrammar.CommandLine.Options
import NormalGrammar.Text.ControlSequence
import NormalGrammar.Text.Lines

/-!
# Reading a command line

Arguments are read one after the other. The value of an option and the values of a positional
argument stay pending until the next argument is understood, so that an unknown argument is
reported before a faulty value right in front of it.
-/

namespace NormalGrammar.CommandLine

/-- Why a command line is refused. -/
inductive UsageFault where
  | invalidValue (arg : Arg) (value : List Char) (fault : ValueFault)
  | repeated (arg : Arg)
  | unexpected (name : List Char)
  | unexpectedValue (arg : Arg) (value : List Char)
  | missingValue (arg : Arg)
  | missingGrammar
deriving DecidableEq

namespace UsageFault

/-- Text that stands out, with the control sequences that start and end its style. -/
def strong (t : String) : String := "\x1b[1m" ++ t ++ "\x1b[0m"

/-- Text that is at fault. -/
def faulty (t : String) : String := "\x1b[33m" ++ t ++ "\x1b[0m"

/-- The fault in words, styled for a terminal. -/
def message : UsageFault → String
  | .invalidValue a v f =>
    "invalid value '" ++ faulty (String.ofList v) ++ "' for '" ++ strong a.label ++ "': " ++ f.message
  | .repeated a => "the argument '" ++ faulty a.label ++ "' cannot be used multiple times"
  | .unexpected t => "unexpected argument '" ++ faulty (String.ofList t) ++ "' found"
  | .unexpectedValue a v =>
    "unexpected value '" ++ faulty (String.ofList v) ++ "' for '" ++ strong a.label ++
      "' found; no more were expected"
  | .missingValue a =>
    "a value is required for '" ++ faulty a.label ++ "' but none was supplied"
  | .missingGrammar => "the following required arguments were not provided:"

/-- All that is said about the fault, styled for a terminal. -/
def styled (f : UsageFault) : String :=
  "\x1b[1m\x1b[31merror:\x1b[0m " ++ f.message ++ "\n\nFor more information, try '" ++
    strong "--help" ++ "'.\n"

/-- The line that reports the fault: the first line of what is left without styles. Control
characters and sequences in the arguments are lost with the styles. -/
def display (f : UsageFault) : String :=
  String.ofList ((Text.lines (Text.stripControls f.styled.toList)).headD [])

end UsageFault

/-- Why the reading of a command line ends before a run. -/
inductive Stop where
  | usage (fault : UsageFault)
  | version
  | help
deriving DecidableEq

/-- What has been read so far. -/
structure Progress where
  options : Options := {}
  seen : List Arg := []
  grammarGiven : Bool := false
  pending : Option (Arg × List (List Char)) := none
  positionalsOnly : Bool := false
deriving DecidableEq

namespace Progress

/-- Sets one option, unless its value is refused. -/
def set (p : Progress) (a : Arg) (value : List Char) : Except Stop Progress :=
  match p.options.set a value with
  | .ok o => .ok { p with options := o }
  | .error f => .error (.usage (.invalidValue a value f))

/-- Takes an argument with the values that were given for it. -/
def take (p : Progress) (a : Arg) (values : List (List Char)) : Except Stop Progress :=
  match a with
  | .version => .error .version
  | .help => .error .help
  | .inputs => values.foldlM (fun p v => p.set .inputs v) p
  | .grammar =>
    match values with
    | (c :: cs) :: _ => p.set .grammar (c :: cs)
    | _ => .error (.usage (.missingValue .grammar))
  | a =>
    if a.takesValue && values.isEmpty then .error (.usage (.missingValue a))
    else if p.seen.contains a then .error (.usage (.repeated a))
    else { p with seen := a :: p.seen }.set a (values.headD [])

/-- Takes the argument that is pending. -/
def resolve (p : Progress) : Except Stop Progress :=
  match p.pending with
  | none => .ok p
  | some (a, values) => { p with pending := none }.take a values

/-- Takes an argument right away, after the one that is pending. -/
def takeNow (p : Progress) (a : Arg) (values : List (List Char)) : Except Stop Progress := do
  (← p.resolve).take a values

/-- Waits for the value of an option. -/
def await (p : Progress) (a : Arg) : Except Stop Progress := do
  return { ← p.resolve with pending := some (a, []) }

/-- Reads what follows two dashes: a name, perhaps with a value behind an equals sign. -/
def readLong (p : Progress) (body : List Char) : Except Stop Progress :=
  let name := body.takeWhile (· != '=')
  match Arg.ofLong? name, body.dropWhile (· != '=') with
  | none, _ => .error (.usage (.unexpected ('-' :: '-' :: name)))
  | some a, [] => if a.takesValue then p.await a else p.takeNow a []
  | some a, _ :: value =>
    if a.takesValue then p.takeNow a [value] else .error (.usage (.unexpectedValue a value))

/-- Reads what follows one dash: letters of flags, the last of which may be an option that has
the rest as its value. -/
def readShort (p : Progress) : List Char → Except Stop Progress
  | [] => .ok p
  | c :: rest =>
    match Arg.ofShort? c with
    | none => .error (.usage (.unexpected ['-', c]))
    | some a =>
      if a.takesValue then
        match rest with
        | [] => p.await a
        | '=' :: value => p.takeNow a [value]
        | value => p.takeNow a [value]
      else
        match p.takeNow a [] with
        | .ok p => p.readShort rest
        | .error e => .error e

/-- Reads an argument that stands for itself: first the grammar, then inputs. -/
def readPositional (p : Progress) (value : List Char) : Except Stop Progress :=
  match p.pending with
  | some (.inputs, values) => .ok { p with pending := some (.inputs, values ++ [value]) }
  | _ => do
    let p ← p.resolve
    let a := if p.grammarGiven then .inputs else .grammar
    return { p with pending := some (a, [value]), grammarGiven := true }

/-- Reads one argument. -/
def read (p : Progress) (arg : List Char) : Except Stop Progress :=
  if p.positionalsOnly then p.readPositional arg
  else
    match arg with
    | ['-', '-'] => .ok { p with positionalsOnly := true }
    | '-' :: '-' :: body => p.readLong body
    | '-' :: c :: rest => p.readShort (c :: rest)
    | value =>
      match p.pending with
      | some (a, []) => .ok { p with pending := some (a, [value]) }
      | _ => p.readPositional value

end Progress

/-- The options that a command line asks for. -/
def Options.ofArgs (args : List (List Char)) : Except Stop Options := do
  let p ← args.foldlM Progress.read {}
  let p ← p.resolve
  if p.grammarGiven then return p.options else .error (.usage .missingGrammar)

end NormalGrammar.CommandLine

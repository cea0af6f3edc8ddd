import NormalGrammar.Text.Lines

/-!
# What can be wrong with a grammar's text, and where

Faults are found at three stages: reading the file, taking its lines apart, and checking that
the rules are in normal form. Each is reported with the line on which it was found.
-/

namespace NormalGrammar

/-! ## Locations -/

/-- A line of a file. The file is empty for text that came from memory, and the line is 0 for
what concerns no single line. -/
structure Location where
  file : String
  line : Nat
deriving DecidableEq

namespace Location

/-- The place of what was found nowhere in particular. -/
def unknown : Location := ⟨"", 0⟩

/-- Neither a file nor a line is known. -/
def isUnknown (l : Location) : Bool := l.file.isEmpty && l.line == 0

/-- `line N` in memory, else the file with its line number. -/
def text (l : Location) : String :=
  if l.file.isEmpty then "line " ++ toString l.line
  else if l.line = 0 then l.file
  else l.file ++ ":" ++ toString l.line

/-- The message behind its place in brackets, in red on a terminal. -/
def report (l : Location) (message : String) : String :=
  let place := if l.isUnknown then "error" else l.text
  "\x1b[31;49;1m[" ++ place ++ "]\x1b[39;49;1m  " ++ message ++ "\x1b[0m"

end Location

/-! ## Faults -/

/-- The kinds of failure to read a file. -/
inductive ReadFault.Kind where
  | notFound
  | permissionDenied
  | isADirectory
  | notADirectory
  | invalidName
  | invalidInput
  | invalidData
  | other
deriving DecidableEq

/-- A failure to read a file, with the system's words for it. -/
structure ReadFault where
  kind : ReadFault.Kind
  text : String
deriving DecidableEq

namespace ReadFault

/-- Nothing has the given name. -/
def notFound : ReadFault := ⟨.notFound, "No such file or directory (os error 2)"⟩

/-- The name is a directory's. -/
def isADirectory : ReadFault := ⟨.isADirectory, "Is a directory (os error 21)"⟩

/-- The name leads through a file. -/
def notADirectory : ReadFault := ⟨.notADirectory, "Not a directory (os error 20)"⟩

/-- A name on the way, or the whole path, is longer than the system allows. -/
def nameTooLong : ReadFault := ⟨.invalidName, "File name too long (os error 36)"⟩

/-- The path holds the character that ends names inside the system. -/
def nulInPath : ReadFault := ⟨.invalidInput, "file name contained an unexpected NUL byte"⟩

/-- The bytes are no text. -/
def invalidData : ReadFault := ⟨.invalidData, "stream did not contain valid UTF-8"⟩

end ReadFault

/-- The stages at which a grammar can be refused. -/
inductive Stage where
  | parse
  | cnf
  | io
deriving DecidableEq

/-- The stage's name. -/
def Stage.name : Stage → String
  | .parse => "parse"
  | .cnf => "cnf"
  | .io => "io"

/-- Why a grammar is refused. The rule or line at fault is kept as it is shown. -/
inductive CompileFault where
  | missingArrow (line : List Char)
  | extraArrow (line : List Char)
  | badLeft (rule : List Char)
  | badRight (rule : List Char)
  | undefinedSymbol (x : Char)
  | unreadable (fault : ReadFault)
deriving DecidableEq

namespace CompileFault

/-- The stage that finds the fault. -/
def stage : CompileFault → Stage
  | .missingArrow _ | .extraArrow _ => .parse
  | .badLeft _ | .badRight _ | .undefinedSymbol _ => .cnf
  | .unreadable _ => .io

/-- Text between backquotes. -/
def quoted (t : List Char) : String := "`" ++ String.ofList t ++ "`"

/-- The fault in words. -/
def message : CompileFault → String
  | .missingArrow l =>
    "Parse error: expected " ++ quoted Text.arrow ++ " in rule " ++ quoted l
  | .extraArrow l =>
    "Parse error: more than one " ++ quoted Text.arrow ++ " in rule " ++ quoted l
  | .badLeft r => "CNF error: left side must be a single nonterminal in rule " ++ quoted r
  | .badRight r =>
    "CNF error: right side must be one terminal or two nonterminals in rule " ++ quoted r
  | .undefinedSymbol x => "CNF error: nonterminal " ++ quoted [x] ++ " is used but never defined"
  | .unreadable f => "File error: " ++ f.text

/-- The faults have the same cause. Failures to read agree as soon as their kinds do. -/
def agrees : CompileFault → CompileFault → Bool
  | .unreadable a, .unreadable b => a.kind = b.kind
  | a, b => a = b

end CompileFault

/-- A fault and where it was found. -/
structure CompileError where
  location : Location
  fault : CompileFault
deriving DecidableEq

/-- The line that reports the error. -/
def CompileError.display (e : CompileError) : String := e.location.report e.fault.message

end NormalGrammar

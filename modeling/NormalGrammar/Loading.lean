import NormalGrammar.Collect
import NormalGrammar.FileTree
import NormalGrammar.Grammar
import NormalGrammar.Report

/-!
# From text to a grammar

The first step takes each line apart at its arrow; the two sides may still be anything. The second
step checks the written rules: first every rule must have the right shape, and only then, when all
left sides are known, must every nonterminal in use have a rule. `Loading` reports both steps and
the choice of a start symbol.
-/

namespace NormalGrammar

/-! ## Rules as written -/

/-- The two sides of a written rule and the place of its line. -/
structure RawRule where
  left : List Char
  right : List Char
  location : Location
deriving DecidableEq

namespace RawRule

/-- The rule as it is shown, with a blank on either side of the arrow. -/
def text (r : RawRule) : List Char := r.left ++ ' ' :: Text.arrow ++ ' ' :: r.right

/-- The trimmed sides of a line with exactly one arrow. -/
def splitLine (line : List Char) : Except CompileFault (List Char × List Char) :=
  match Text.cutArrows line with
  | (_, []) => .error (.missingArrow line)
  | (l, [r]) => .ok (Text.trim l, Text.trim r)
  | (_, _ :: _ :: _) => .error (.extraArrow line)

/-- The rule written in one line. -/
def ofLine (line : List Char) (location : Location) : Except CompileError RawRule :=
  match splitLine line with
  | .ok (left, right) => .ok ⟨left, right, location⟩
  | .error fault => .error ⟨location, fault⟩

/-- The rules of a text, line by line, or every line that is no rule. -/
def ofText (file : String) (t : List Char) : Except (List CompileError) (List RawRule) :=
  collect ((Text.numberedLines t).map fun (n, l) => ofLine l ⟨file, n⟩)

end RawRule

/-! ## Checking written rules -/

/-- The left side, if it is a single nonterminal. -/
def Rule.leftSide? : List Char → Option Char
  | [x] => if Symbol.isNonterminal x then some x else none
  | _ => none

/-- The right side, if it is one terminal or two nonterminals. -/
def Production.ofText? : List Char → Option Production
  | [c] => if Symbol.isTerminal c then some (.terminal c) else none
  | [b, c] => if Symbol.isNonterminal b && Symbol.isNonterminal c then some (.pair b c) else none
  | _ => none

/-- The rule, or what is wrong with its shape. The left side is looked at first. -/
def Rule.ofRaw (r : RawRule) : Except CompileError Rule :=
  match Rule.leftSide? r.left, Production.ofText? r.right with
  | none, _ => .error ⟨r.location, .badLeft r.text⟩
  | some _, none => .error ⟨r.location, .badRight r.text⟩
  | some x, some p => .ok ⟨x, p⟩

/-- A fault for each nonterminal in use that has no rule, once for every rule that uses it. -/
def undefinedSymbols (rules : List Rule) (raws : List RawRule) : List CompileError :=
  (rules.zip raws).flatMap fun (rule, raw) =>
    (rule.right.nonterminals.eraseDups.filter fun x => !rules.any fun r => r.left == x).map fun x =>
      ⟨raw.location, .undefinedSymbol x⟩

/-- The grammar of the written rules, or all the faults of the first check that finds some. -/
def Grammar.ofRaw (raws : List RawRule) : Except (List CompileError) Grammar :=
  match collect (raws.map Rule.ofRaw) with
  | .error faults => .error faults
  | .ok rules =>
    match undefinedSymbols rules raws with
    | [] => .ok (Grammar.ofRules rules)
    | fault :: faults => .error (fault :: faults)

/-! ## Loading, with its log -/

namespace Loading

/-- The written rules of a text. -/
def compile (file : String) (t : List Char) : Report (List CompileError) (List RawRule) := do
  let raws ← .ofExcept (RawRule.ofText file t)
  .note (.compiled raws.length)
  return raws

/-- The grammar of written rules. -/
def validate (raws : List RawRule) : Report (List CompileError) Grammar := do
  let g ← .ofExcept (Grammar.ofRaw raws)
  .note (.validated g.rules.length)
  return g

/-- The grammar of a text. -/
def loadText (file : String) (t : List Char) : Report (List CompileError) Grammar := do
  validate (← compile file t)

/-- The text of a file. Its bytes must be UTF-8. -/
def decode (contents : Except ReadFault ByteArray) : Except ReadFault (List Char) :=
  match contents with
  | .error f => .error f
  | .ok bytes =>
    match String.fromUTF8? bytes with
    | some text => .ok text.toList
    | none => .error .invalidData

/-- The written rules of what was read. Its lines are located in the file `origin`, a failure to
read in the file `path`. -/
def compileContents (origin path : String) (contents : Except ReadFault ByteArray) :
    Report (List CompileError) (List RawRule) :=
  match decode contents with
  | .ok t => compile origin t
  | .error f => .fail [⟨⟨path, 0⟩, .unreadable f⟩]

/-- The written rules of the file with the given path. -/
def compileFile (path : String) (contents : Except ReadFault ByteArray) :
    Report (List CompileError) (List RawRule) := compileContents path path contents

/-- The grammar of the file with the given path. If the path stands for the standard input, the
lines have no file. -/
def loadGrammar (path : String) (contents : Except ReadFault ByteArray) :
    Report (List CompileError) Grammar := do
  if Path.isDash path.toList then validate (← compileContents "" "-" contents)
  else validate (← compileFile path contents)

/-- The grammar with another start symbol; one without rules is warned about. -/
def chooseStart {ε : Type} (g : Grammar) (x : Char) : Report ε Grammar := do
  unless g.defines x do
    .note (.undefinedStart x)
  return g.withStart x

end Loading

end NormalGrammar

import NormalGrammar.Sampling

/-!
# Numbers and options

What a command line can ask for, and how single values are read. Numbers are read digit by digit,
and the first thing that is wrong decides what is reported: a character that is no digit, or a
value that has left the range.
-/

namespace NormalGrammar.CommandLine

/-! ## Numbers -/

/-- Why a text is no number of the wanted kind. -/
inductive NumberFault where
  | empty
  | invalidDigit
  | tooLarge
  | tooSmall
  | outside (n : Int) (greatest : Nat)
deriving DecidableEq

/-- The fault in words. -/
def NumberFault.message : NumberFault → String
  | .empty => "cannot parse integer from empty string"
  | .invalidDigit => "invalid digit found in string"
  | .tooLarge => "number too large to fit in target type"
  | .tooSmall => "number too small to fit in target type"
  | .outside n greatest => toString n ++ " is not in 0..=" ++ toString greatest

/-- The value of a digit between `0` and `9`. -/
def digit? (c : Char) : Option Nat := if c.isDigit then some (c.toNat - '0'.toNat) else none

/-- Goes on reading digits after the value `n`, as long as it stays within the limit. -/
def readDigits (limit : Nat) (overflow : NumberFault) (n : Nat) :
    List Char → Except NumberFault Nat
  | [] => .ok n
  | c :: cs =>
    match digit? c with
    | none => .error .invalidDigit
    | some d =>
      if 10 * n + d ≤ limit then readDigits limit overflow (10 * n + d) cs else .error overflow

/-- A number without a minus sign, at most `limit`. -/
def readNat (limit : Nat) : List Char → Except NumberFault Nat
  | [] => .error .empty
  | ['+'] => .error .invalidDigit
  | '+' :: cs => readDigits limit .tooLarge 0 cs
  | cs => readDigits limit .tooLarge 0 cs

/-- A signed number of 64 bits. -/
def readInt64 : List Char → Except NumberFault Int
  | ['-'] => .error .invalidDigit
  | '-' :: cs => (readDigits (UInt64.size / 2) .tooSmall 0 cs).map fun n => -n
  | cs => (readNat (UInt64.size / 2 - 1) cs).map fun n => n

/-- A signed number of 64 bits that lies between 0 and `greatest`. -/
def readWithin (greatest : Nat) (t : List Char) : Except NumberFault Nat :=
  match readInt64 t with
  | .error f => .error f
  | .ok n => if 0 ≤ n ∧ n ≤ greatest then .ok n.toNat else .error (.outside n greatest)

/-! ## Options -/

/-- The arguments that a command line can have. -/
inductive Arg where
  | grammar
  | inputs
  | start
  | generate
  | maxDepth
  | seed
  | quiet
  | verbose
  | version
  | help
deriving DecidableEq

namespace Arg

/-- The argument as messages call it. -/
def label : Arg → String
  | .grammar => "<GRAMMAR>"
  | .inputs => "[INPUTS]..."
  | .start => "--start <SYMBOL>"
  | .generate => "--generate <AMOUNT>"
  | .maxDepth => "--max-depth <DEPTH>"
  | .seed => "--seed <SEED>"
  | .quiet => "--quiet"
  | .verbose => "--verbose"
  | .version => "--version"
  | .help => "--help"

/-- The argument stands before a value. -/
def takesValue : Arg → Bool
  | .start | .generate | .maxDepth | .seed => true
  | _ => false

/-- The argument with a name behind two dashes. -/
def ofLong? (name : List Char) : Option Arg :=
  match String.ofList name with
  | "start" => some .start
  | "generate" => some .generate
  | "max-depth" => some .maxDepth
  | "seed" => some .seed
  | "quiet" => some .quiet
  | "verbose" => some .verbose
  | "version" => some .version
  | "help" => some .help
  | _ => none

/-- The argument with a letter behind one dash. -/
def ofShort? : Char → Option Arg
  | 's' => some .start
  | 'g' => some .generate
  | 'q' => some .quiet
  | 'v' => some .verbose
  | 'V' => some .version
  | 'h' => some .help
  | _ => none

end Arg

/-- What a run is asked to do. -/
structure Options where
  grammar : List Char := []
  inputs : List (List Char) := []
  start : Char := Grammar.defaultStart
  generate : Option Nat := none
  maxDepth : Nat := Grammar.defaultMaxDepth
  seed : Option UInt64 := none
  quiet : Bool := false
  verbose : Bool := false
deriving DecidableEq

/-- Why a value is refused. -/
inductive ValueFault where
  | notNonterminal (value : List Char)
  | number (fault : NumberFault)
deriving DecidableEq

/-- The fault in words. -/
def ValueFault.message : ValueFault → String
  | .notNonterminal t => "`" ++ String.ofList t ++ "` is not a single uppercase nonterminal"
  | .number f => f.message

/-- The nonterminal that a value names. -/
def readNonterminal : List Char → Except ValueFault Char
  | [c] => if Symbol.isNonterminal c then .ok c else .error (.notNonterminal [c])
  | t => .error (.notNonterminal t)

namespace Options

/-- The options with one of them set to a value. -/
def set (o : Options) (a : Arg) (value : List Char) : Except ValueFault Options :=
  match a with
  | .start => (readNonterminal value).map fun x => { o with start := x }
  | .generate =>
    ((readWithin (UInt32.size - 1) value).mapError .number).map fun n => { o with generate := some n }
  | .maxDepth =>
    ((readNat (UInt64.size - 1) value).mapError .number).map fun n => { o with maxDepth := n }
  | .seed =>
    ((readNat (UInt64.size - 1) value).mapError .number).map fun n => { o with seed := some n.toUInt64 }
  | .grammar => .ok { o with grammar := value }
  | .inputs => .ok { o with inputs := o.inputs ++ [value] }
  | .quiet => .ok { o with quiet := true }
  | .verbose => .ok { o with verbose := true }
  | .version | .help => .ok o

end Options

end NormalGrammar.CommandLine

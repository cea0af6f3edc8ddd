import NormalGrammar.Unicode.Classes

/-!
# Lines, arrows and blank ends

Text that is read is a list of characters. It falls into lines, each line is trimmed, and a line
with a rule is cut at its arrow.
-/

namespace NormalGrammar.Text

/-! ## Trimming -/

/-- Without the blank characters at the start. -/
def trimStart (t : List Char) : List Char := t.dropWhile Unicode.isBlank

/-- Without the blank characters at the end. -/
def trimEnd (t : List Char) : List Char := (t.reverse.dropWhile Unicode.isBlank).reverse

/-- Without the blank characters at both ends. -/
def trim (t : List Char) : List Char := trimEnd (trimStart t)

/-! ## Lines

A line ends at a newline, and one carriage return right before the newline belongs to the
ending. Text after the last newline is a line of its own unless it is empty. -/

/-- The lines of a text, without their endings. -/
def lines : List Char → List (List Char)
  | [] => []
  | '\n' :: t => [] :: lines t
  | '\r' :: '\n' :: t => [] :: lines t
  | c :: t =>
    match lines t with
    | [] => [[c]]
    | l :: ls => (c :: l) :: ls

/-- The trimmed lines that are not empty, each with its number, counted from 1. -/
def numberedLines (t : List Char) : List (Nat × List Char) :=
  (((lines t).map trim).zipIdx 1).filterMap fun (l, n) => if l.isEmpty then none else some (n, l)

/-! ## Arrows -/

/-- The arrow between the two sides of a rule. -/
def arrow : List Char := ['-', '>']

/-- The text before the first arrow, and the pieces after each arrow. Arrows are found from left
to right, and two of them cannot overlap. -/
def cutArrows : List Char → List Char × List (List Char)
  | [] => ([], [])
  | '-' :: '>' :: t =>
    match cutArrows t with
    | (piece, pieces) => ([], piece :: pieces)
  | c :: t =>
    match cutArrows t with
    | (piece, pieces) => (c :: piece, pieces)

end NormalGrammar.Text

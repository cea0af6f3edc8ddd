import NormalGrammar.CompileFault

/-!
# Paths and file trees

A path is split at its slashes. Empty pieces and single dots name the directory that is reached
already. A file tree holds the files below a working directory, and `FileTree.read` says what
happens when one of them is read by its path.
-/

namespace NormalGrammar

/-! ## Paths -/

namespace Path

/-- The pieces of a path between its slashes, also the empty ones. -/
def pieces : List Char → List (List Char)
  | [] => [[]]
  | '/' :: t => [] :: pieces t
  | c :: t =>
    match pieces t with
    | [] => [[c]]
    | p :: ps => (c :: p) :: ps

/-- The piece does not lead anywhere else. -/
def stays (piece : List Char) : Bool := piece.isEmpty || piece == ['.']

/-- The piece leads to the parent directory. -/
def ascends (piece : List Char) : Bool := piece == ['.', '.']

/-- The place that one piece leads to. A place is given by the names on its way, and the parent of
the place with no names is that place. -/
def step (place : List (List Char)) (piece : List Char) : List (List Char) :=
  if stays piece then place else if ascends piece then place.dropLast else place ++ [piece]

/-- The places that pieces lead to one after the other. -/
def places (place : List (List Char)) : List (List Char) → List (List (List Char))
  | [] => []
  | p :: ps => step place p :: places (step place p) ps

/-- How many bytes a path or a piece of it takes. -/
def bytes (t : List Char) : Nat := (String.ofList t).utf8ByteSize

/-- The piece has more bytes than a name can have. -/
def isLongPiece (piece : List Char) : Bool := 255 < bytes piece

/-- The path has more bytes than a path can have. -/
def isLong (path : List Char) : Bool := 4095 < bytes path

/-- The path is a dash, up to pieces after it that lead nowhere. It stands for the standard
input. -/
def isDash (path : List Char) : Bool :=
  match pieces path with
  | [] => false
  | p :: ps => p == ['-'] && ps.all stays

end Path

/-! ## Files below a directory -/

/-- Files and directories, by the names on their way from the working directory. -/
structure FileTree where
  files : List (List (List Char) × ByteArray)
  directories : List (List (List Char))

namespace FileTree

/-- No files at all. -/
def empty : FileTree := ⟨[], []⟩

/-- Adds a file, or a directory if the name ends in a slash. The places on its way become
directories, also those that the name leaves again. -/
def add (t : FileTree) (name : List Char) (bytes : ByteArray) : FileTree :=
  let places := Path.places [] (Path.pieces name)
  if name.getLast? = some '/' then { t with directories := places ++ t.directories }
  else
    { files := (places.getLastD [], bytes) :: t.files
      directories := places.dropLast ++ t.directories }

/-- A directory is at the place. -/
def isDirectory (t : FileTree) (place : List (List Char)) : Bool :=
  place.isEmpty || t.directories.contains place

/-- The file at the place. -/
def file? (t : FileTree) (place : List (List Char)) : Option ByteArray := t.files.lookup place

/-- Outside of the tree are directories only, and nothing has a name there. -/
def readOutside : List (List Char) → Except ReadFault ByteArray
  | [] => .error .isADirectory
  | p :: ps =>
    if Path.stays p || Path.ascends p then readOutside ps
    else if Path.isLongPiece p then .error .nameTooLong
    else .error .notFound

/-- Reads what the pieces lead to from a place in the tree. -/
def readFrom (t : FileTree) (place : List (List Char)) :
    List (List Char) → Except ReadFault ByteArray
  | [] =>
    match t.file? place with
    | some bytes => .ok bytes
    | none => .error .isADirectory
  | p :: ps =>
    let next := Path.step place p
    if !t.isDirectory place then .error .notADirectory
    else if Path.ascends p && place.isEmpty then readOutside ps
    else if Path.isLongPiece p then .error .nameTooLong
    else if t.isDirectory next || (t.file? next).isSome then t.readFrom next ps
    else .error .notFound

/-- Reads the file with the given path. -/
def read (t : FileTree) (path : List Char) : Except ReadFault ByteArray :=
  if path.contains '\x00' then .error .nulInPath
  else if Path.isLong path then .error .nameTooLong
  else
    match path with
    | [] => .error .notFound
    | '/' :: rest => readOutside (Path.pieces rest)
    | path => t.readFrom [] (Path.pieces path)

end FileTree

end NormalGrammar

import NormalGrammar.CommandLine.Run

/-!
# The program

Reads the grammar's file or the standard input, runs the command line, and prints its outcome.
-/

namespace NormalGrammar.CommandLine

/-- The system's refusal to read a file. -/
def refusal : IO.Error → ReadFault
  | .noFileOrDirectory _ _ _ => .notFound
  | .inappropriateType _ code _ =>
    if code = 21 ∨ code = 0 - 21 then .isADirectory else .notADirectory
  | .invalidArgument _ code text =>
    if code = 36 ∨ code = 0 - 36 then .nameTooLong else ⟨.invalidInput, text⟩
  | .permissionDenied _ _ _ => ⟨.permissionDenied, "Permission denied (os error 13)"⟩
  | e => ⟨.other, toString e⟩

/-- The bytes of a file. -/
def readContents (path : List Char) : IO (Except ReadFault ByteArray) := do
  try
    return .ok (← IO.FS.readBinFile (String.ofList path))
  catch e =>
    return .error (refusal e)

/-- All bytes of a stream, behind those that were read before. -/
partial def readToEnd (stream : IO.FS.Stream) (before : ByteArray) : IO ByteArray := do
  let bytes ← stream.read 65536
  if bytes.isEmpty then return before else readToEnd stream (before ++ bytes)

/-- A seed that differs from run to run. -/
def freshSeed : IO UInt64 := do
  return (← IO.getRandomBytes 8).foldl (fun n b => n * 256 + b.toUInt64) 0

end NormalGrammar.CommandLine

open NormalGrammar NormalGrammar.CommandLine in
/-- Runs the command line and returns its exit code. -/
def main (args : List String) : IO UInt32 := do
  let args := args.map String.toList
  let path := match Options.ofArgs args with
    | .ok o => o.grammar
    | .error _ => []
  let fromStdin := Path.isDash path
  let contents ← if fromStdin then pure (.ok .empty) else readContents path
  let stdin ← if fromStdin then readToEnd (← IO.getStdin) .empty else pure .empty
  let o := outcome args (fun _ => contents) stdin (← freshSeed)
  IO.print o.stdout
  IO.eprint (if o.refused then o.stderr ++ "\n" else o.stderr)
  return o.exit.toUInt32

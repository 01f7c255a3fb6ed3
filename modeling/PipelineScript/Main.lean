import PipelineScript.Command.Arguments
import PipelineScript.Regex

/-!
The command as a program: files, standard input and standard output of the system.

Everything that is decided is decided elsewhere; here only texts go in and out.
-/
namespace PipelineScript.Program

/-- A failure of the system as one of a file. -/
def fileError : IO.Error → FileError
  | .noFileOrDirectory .. => .notFound
  | .inappropriateType _ 20 _ => .notADirectory
  | .inappropriateType _ 21 _ => .isADirectory
  | e => .other (toString e)

/-- Runs an action of the system and names its failure. -/
def attempt {α : Type} (action : IO α) : IO (Except FileError α) := do
  match ← action.toBaseIO with
  | .ok a => return .ok a
  | .error e => return .error (fileError e)

/-- Bytes as text. -/
def textOf (content : ByteArray) : Except FileError String :=
  match String.fromUTF8? content with
  | some text => .ok text
  | none => .error .notText

/-- The name under which a new text is written before it takes the place of a file: a neighbour,
so that the last step is a rename within one directory. -/
def draftOf (path : String) : String :=
  match (path.splitOn "/").reverse with
  | name :: directory => "/".intercalate ((".draft-" ++ name) :: directory).reverse
  | [] => ".draft-"

/-- The files of the system. -/
def storage : Storage IO String where
  read path := do
    match ← attempt (IO.FS.readBinFile path) with
    | .ok content => return textOf content
    | .error e => return .error e
  create path := attempt do
    let draft := draftOf path
    IO.FS.writeBinFile draft ByteArray.empty
    return draft
  fill draft text := attempt (IO.FS.writeBinFile draft text.toUTF8)
  keep path := attempt (IO.FS.rename path (path ++ backupSuffix))
  persist draft path := attempt (IO.FS.rename draft path)
  discard draft := do
    try IO.FS.removeFile draft catch _ => pure ()

/-- Reads a stream to its end. `limit` bounds the number of blocks. -/
def readBlocks (stream : IO.FS.Stream) : Nat → ByteArray → IO ByteArray
  | 0, content => return content
  | limit + 1, content => do
    let block ← stream.read 65536
    if block.isEmpty then return content else readBlocks stream limit (content ++ block)

/-- The standard streams of the system. -/
def console : Console IO where
  input := do
    match ← attempt (do readBlocks (← IO.getStdin) 4294967296 ByteArray.empty) with
    | .ok content => return textOf content
    | .error e => return .error e
  output text :=
    attempt do
      let stdout ← IO.getStdout
      stdout.putStr text
      stdout.flush

/-- The exit status that the system gives a program that aborts. -/
def abortCode : UInt8 := 134

/-- Waits, in practice without an end. -/
def wait : Nat → IO Unit
  | 0 => return ()
  | rounds + 1 => do
    IO.sleep 4294967295
    wait rounds

end PipelineScript.Program

/-- Formats the files that the arguments name, or the standard input. -/
def main (args : List String) : IO UInt32 := do
  let _ : PipelineScript.PatternEngine := PipelineScript.Regex.engine
  match PipelineScript.FormatOptions.ofArguments? args with
  | none =>
    IO.eprintln "usage: format [-w [-b]] [--json] [--] [PATHS]..."
    return 2
  | some options =>
    match ← (PipelineScript.Program.console.run PipelineScript.Program.storage options).run with
    | .ok _ => return 0
    | .error stop =>
      match stop with
      | .failed error => IO.eprintln error.message
      | .aborted => IO.eprintln "the scanner is lost"
      | .unending => PipelineScript.Program.wait 4294967296
      return (stop.exitCode?.getD PipelineScript.Program.abortCode).toUInt32

import PipelineScript.Command.Format

/-!
The command line.

Flags are `-w`, `-b` and `--json`; short flags can be joined. A flag may be given once, and `-b`
only together with `-w`. Everything else is a path, as is a lone `-` and whatever follows `--`. A
path is not empty. With no paths the command formats its standard input.
-/
namespace PipelineScript

variable [PatternEngine]

namespace FormatOptions

/-- No flags and no paths. -/
def blank : FormatOptions := ⟨[], false, false, false⟩

/-- Adds a path. -/
def addPath? (options : FormatOptions) (path : String) : Option FormatOptions :=
  if path.isEmpty then none else some { options with paths := options.paths ++ [path] }

/-- Adds a short flag. -/
def addShort? (options : FormatOptions) (flag : Char) : Option FormatOptions :=
  if flag = 'w' ∧ !options.write then some { options with write := true }
  else if flag = 'b' ∧ !options.backup then some { options with backup := true }
  else none

/-- Reads arguments up to the end of the flags. -/
def readArguments? (options : FormatOptions) : List String → Option FormatOptions
  | [] => some options
  | arg :: args =>
    if arg = "--" then args.foldlM addPath? options
    else if arg = "--json" then
      if options.json then none else readArguments? { options with json := true } args
    else
      match arg.toList with
      | '-' :: flag :: flags =>
        match (flag :: flags).foldlM addShort? options with
        | some options => readArguments? options args
        | none => none
      | _ =>
        match options.addPath? arg with
        | some options => readArguments? options args
        | none => none

/-- The options that arguments stand for, if they are a proper command line. -/
def ofArguments? (args : List String) : Option FormatOptions :=
  match readArguments? .blank args with
  | some options => if options.backup && !options.write then none else some options
  | none => none

end FormatOptions

/-- Where the command reads a script from and writes to when no files are involved. -/
structure Console (m : Type → Type) where
  input : m (Except FileError String)
  output : String → m (Except FileError Unit)

namespace Console

/-- Writes a result, unless it went to a file. -/
def report {m : Type → Type} [Monad m] (console : Console m) :
    FormatResult → ExceptT CommandStop m Unit
  | .output text => FormatOptions.fileStep (console.output text)
  | .written _ => return ()

/-- Formats the standard input. -/
def formatInput {m : Type → Type} [Monad m] (console : Console m) (json : Bool) :
    ExceptT CommandStop m Unit := do
  let source ← FormatOptions.fileStep console.input
  let text ← FormatOptions.inFile "<stdin>" (ExceptT.mk (pure (formatSource source json)))
  FormatOptions.fileStep (console.output text)

/-- Runs the command. -/
def run {m : Type → Type} [Monad m] {Draft : Type} (console : Console m)
    (storage : Storage m Draft) (options : FormatOptions) : ExceptT CommandStop m Unit :=
  if options.paths.isEmpty ∧ !options.write then console.formatInput options.json
  else options.execute storage console.report

end Console

end PipelineScript

import PipelineScript.Command.Files
import PipelineScript.Json.Codec
import PipelineScript.Parse.Program

/-!
The format command.

Files are formatted one after the other, and each result is handed on as soon as it is there. The
first failure ends the run: no later file is touched. A script is written in canonical form, or
its tree as JSON; the result is given out, or takes the place of the file.
-/
namespace PipelineScript

variable [PatternEngine]

/-- What the command is asked to do. -/
structure FormatOptions where
  paths : List String
  /-- Put the result in the place of the file. -/
  write : Bool
  /-- Keep the file that is replaced. -/
  backup : Bool
  /-- Write the tree as JSON. -/
  json : Bool
deriving DecidableEq, Repr, Inhabited

/-- What came of one file. -/
inductive FormatResult where
  | written (path : String)
  | output (text : String)
deriving DecidableEq, Repr

/-- Why the command fails. -/
inductive CommandError where
  | parse (error : ParseError)
  | file (error : FileError)
  /-- Files are to be replaced, and none are named. -/
  | noFiles
  /-- A failure at one file. -/
  | inFile (path : String) (error : CommandError)
deriving DecidableEq, Repr

namespace CommandError

/-- The wording of the failure. -/
def message : CommandError → String
  | .parse error => error.message
  | .file error => "IO error: " ++ error.message
  | .noFiles => "Cannot write source files, none given."
  | .inFile path error => path ++ ": " ++ error.message

/-- The causes of the failure, from the nearest on. -/
def causes : CommandError → List String
  | .parse error =>
    error.message ::
      match error.cause with
      | .literal e => [e.message]
      | .unexpected .. => []
  | .file error => [error.message]
  | .noFiles => []
  | .inFile _ error => error.message :: error.causes

/-- The exit status of the command. -/
def exitCode : CommandError → UInt8
  | .noFiles => 2
  | _ => 1

end CommandError

/-- What keeps the command from going on. -/
inductive CommandStop where
  /-- It fails, and says why. -/
  | failed (error : CommandError)
  /-- It aborts: the scanner of a script is lost. -/
  | aborted
  /-- It never comes to an end: the tokens of a script do not. -/
  | unending
deriving DecidableEq, Repr

namespace CommandStop

/-- A parse without a tree as what becomes of the command. No parse reaches the bound on its
depth. -/
def ofParse : ParseFailure → CommandStop
  | .rejected error => .failed (.parse error)
  | .interrupted .lost => .aborted
  | .interrupted _ | .exhausted => .unending

/-- Names the file in a failure. An abort names no file. -/
def inFile (path : String) : CommandStop → CommandStop
  | .failed error => .failed (.inFile path error)
  | stop => stop

/-- The exit status that the command chooses. An abort leaves that to the system, and a command
without an end has none. -/
def exitCode? : CommandStop → Option UInt8
  | .failed error => some error.exitCode
  | .aborted | .unending => none

end CommandStop

/-- Formats a script. JSON ends with a newline. -/
def formatSource (source : String) (json : Bool) : Except CommandStop String :=
  match parse source with
  | .error e => .error (.ofParse e)
  | .ok node =>
    .ok (if json then (Json.marshal node).prettyText ++ "\n" else node.render)

namespace FormatOptions

/-- The outcome of using a file. -/
def fileStep {m : Type → Type} [Monad m] {α : Type} (step : m (Except FileError α)) :
    ExceptT CommandStop m α :=
  ExceptT.mk do return (← step).mapError fun error => .failed (.file error)

/-- A step with a draft, which is removed if the step fails. -/
def draftStep {m : Type → Type} [Monad m] {Draft : Type} (storage : Storage m Draft)
    (draft : Draft) (step : m (Except FileError Unit)) : ExceptT CommandStop m Unit :=
  fileStep do
    match ← step with
    | .ok () => return .ok ()
    | .error e =>
      storage.discard draft
      return .error e

/-- Puts a text in the place of a file. -/
def replaceFile {m : Type → Type} [Monad m] {Draft : Type} (options : FormatOptions)
    (storage : Storage m Draft) (path text : String) : ExceptT CommandStop m Unit := do
  let draft ← fileStep (storage.create path)
  draftStep storage draft (storage.fill draft text)
  if options.backup then draftStep storage draft (storage.keep path)
  draftStep storage draft (storage.persist draft path)

/-- Puts a text in the place of a file, or gives it out. -/
def deliver {m : Type → Type} [Monad m] {Draft : Type} (options : FormatOptions)
    (storage : Storage m Draft) (path text : String) : ExceptT CommandStop m FormatResult :=
  if options.write then do
    options.replaceFile storage path text
    return .written path
  else return .output text

/-- Formats one file. -/
def formatFile {m : Type → Type} [Monad m] {Draft : Type} (options : FormatOptions)
    (storage : Storage m Draft) (path : String) : ExceptT CommandStop m FormatResult := do
  let source ← fileStep (storage.read path)
  let text ← ExceptT.mk (pure (formatSource source options.json))
  options.deliver storage path text

/-- Names the file in a failure. -/
def inFile {m : Type → Type} [Monad m] {α : Type} (path : String)
    (step : ExceptT CommandStop m α) : ExceptT CommandStop m α :=
  ExceptT.mk do return (← step.run).mapError (.inFile path)

/-- Formats files in order and hands on each result. -/
def formatEach {m : Type → Type} [Monad m] {Draft : Type} (options : FormatOptions)
    (storage : Storage m Draft) (onResult : FormatResult → ExceptT CommandStop m Unit) :
    List String → ExceptT CommandStop m Unit
  | [] => return ()
  | path :: paths => do
    let result ← inFile path (options.formatFile storage path)
    onResult result
    options.formatEach storage onResult paths

/-- Formats all files that the options name. -/
def execute {m : Type → Type} [Monad m] {Draft : Type} (options : FormatOptions)
    (storage : Storage m Draft) (onResult : FormatResult → ExceptT CommandStop m Unit) :
    ExceptT CommandStop m Unit :=
  if options.paths.isEmpty ∧ options.write then throw (.failed .noFiles)
  else options.formatEach storage onResult options.paths

end FormatOptions

end PipelineScript

/-!
Files: an explicit map from paths to contents.

A path is text; its parts are separated by slashes, and `.` and empty parts stay where they are. A
path that begins with a slash leads on from the root, any other from the working directory. The
working directory exists, and so do the directories around it; any other directory exists as long as
a file is in it.

A file gets a new text by steps: the text is written to a draft beside it, the file is moved out
of the way if it is to be kept, and the draft takes its place.
-/
namespace PipelineScript

/-- Why a file cannot be used. -/
inductive FileError where
  | notFound
  | notADirectory
  | isADirectory
  | notText
  /-- Any other cause, in the words of whoever reported it. -/
  | other (message : String)
deriving DecidableEq, Repr

/-- The wording of the failure. -/
def FileError.message : FileError → String
  | .notFound => "No such file or directory (os error 2)"
  | .notADirectory => "Not a directory (os error 20)"
  | .isADirectory => "Is a directory (os error 21)"
  | .notText => "stream did not contain valid UTF-8"
  | .other message => message

/-- What is read and written while files are formatted. A text that takes the place of a file is
written to a draft first, a new file beside it. -/
structure Storage (m : Type → Type) (Draft : Type) where
  /-- The text of a file. -/
  read : (path : String) → m (Except FileError String)
  /-- Makes an empty draft in the directory of a file, under a name that nothing there has. -/
  create : (path : String) → m (Except FileError Draft)
  /-- Writes a text to a draft. -/
  fill : Draft → (text : String) → m (Except FileError Unit)
  /-- Gives a file its backup name. -/
  keep : (path : String) → m (Except FileError Unit)
  /-- Gives a draft the name of a file. -/
  persist : Draft → (path : String) → m (Except FileError Unit)
  /-- Removes a draft. -/
  discard : Draft → m Unit

/-- What is appended to the name of a file for its backup. -/
def backupSuffix : String := ".orig"

/-- Files by the parts of their paths from the root. -/
structure Files where
  /-- The working directory, from the root. -/
  directory : List String
  entries : List (List String × ByteArray)

namespace Files

/-- A working directory, and no files. -/
def empty (directory : List String) : Files := ⟨directory, []⟩

/-- The content of a file. -/
def get? (files : Files) (path : List String) : Option ByteArray := files.entries.lookup path

/-- Removes a file. -/
def erase (files : Files) (path : List String) : Files :=
  { files with entries := files.entries.filter fun entry => entry.1 != path }

/-- Gives a file a content. -/
def insert (files : Files) (path : List String) (content : ByteArray) : Files :=
  { files with entries := (path, content) :: (files.erase path).entries }

/-- Gives a file another path. What was there is gone. -/
def move (files : Files) (source target : List String) : Files :=
  match files.get? source with
  | some content => (files.erase source).insert target content
  | none => files

/-- Whether a path is a directory: the beginning of the path of a file, or the working directory or
one around it. -/
def isDirectory (files : Files) (path : List String) : Bool :=
  path.isPrefixOf files.directory ||
    files.entries.any fun entry =>
      path.isPrefixOf entry.1 && decide (path.length < entry.1.length)

/-- The path that the parts of a path lead to from a directory. Every part but the last must lead
to a directory. The root is the directory around itself. -/
def follow (files : Files) (directory : List String) : List String → Except FileError (List String)
  | [] => .ok directory
  | part :: parts =>
    if part = "" ∨ part = "." then follow files directory parts
    else if part = ".." then follow files directory.dropLast parts
    else
      let path := directory ++ [part]
      if parts.isEmpty then .ok path
      else if files.isDirectory path then follow files path parts
      else if (files.get? path).isSome then .error .notADirectory
      else .error .notFound

/-- The parts of a path. -/
def partsOf (path : String) : List String := (path.toList.splitOn '/').map String.ofList

/-- The directory that a path leads on from. -/
def base (files : Files) (path : String) : List String :=
  if path.toList.head? = some '/' then [] else files.directory

/-- The path that a text names. -/
def resolve (files : Files) (path : String) : Except FileError (List String) :=
  if path = "" then .error .notFound else files.follow (files.base path) (partsOf path)

/-- The content of the file that a text names. -/
def contentOf (files : Files) (path : String) : Except FileError ByteArray :=
  match files.resolve path with
  | .error e => .error e
  | .ok parts =>
    if files.isDirectory parts then .error .isADirectory
    else
      match files.get? parts with
      | some content => .ok content
      | none => .error .notFound

/-- The text of the file that a path names. -/
def read (files : Files) (path : String) : Except FileError String :=
  match files.contentOf path with
  | .error e => .error e
  | .ok content =>
    match String.fromUTF8? content with
    | some text => .ok text
    | none => .error .notText

/-- A name that is longer than all parts of paths together. -/
def freshName (files : Files) : String :=
  ".draft-" ++ String.ofList
    (List.replicate (((files.directory ++ files.entries.flatMap (·.1)).map String.length).foldr
      (· + ·) 0) '-')

/-- A new file in the directory of the file that a path names. -/
def create (files : Files) (path : String) : Except FileError (List String × Files) := do
  let parts ← files.resolve path
  if !files.isDirectory parts.dropLast then throw .notFound
  let draft := parts.dropLast ++ [files.freshName]
  return (draft, files.insert draft ByteArray.empty)

/-- Gives the file that a path names its backup name. -/
def keep (files : Files) (path : String) : Except FileError Files := do
  let _ ← files.contentOf path
  let source ← files.resolve path
  let target ← files.resolve (path ++ backupSuffix)
  if files.isDirectory target then throw .isADirectory
  return files.move source target

/-- Gives a draft the path of the file that a path names. -/
def persist (files : Files) (draft : List String) (path : String) : Except FileError Files := do
  let target ← files.resolve path
  if files.isDirectory target then throw .isADirectory
  return files.move draft target

/-- A step that changes the files unless it fails. -/
def attempt {m : Type → Type} [Monad m] {α : Type}
    (step : Files → Except FileError (α × Files)) : StateT Files m (Except FileError α) := do
  match step (← get) with
  | .ok (a, files) => set files; return .ok a
  | .error e => return .error e

/-- Files as a storage. -/
def storage {m : Type → Type} [Monad m] : Storage (StateT Files m) (List String) where
  read path := do return (← get).read path
  create path := attempt fun files => files.create path
  fill draft text := attempt fun files => .ok ((), files.insert draft text.toUTF8)
  keep path := attempt fun files => (files.keep path).map ((), ·)
  persist draft path := attempt fun files => (files.persist draft path).map ((), ·)
  discard draft := modify (·.erase draft)

end Files

end PipelineScript

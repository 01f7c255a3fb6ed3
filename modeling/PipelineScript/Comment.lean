import PipelineScript.Position
import PipelineScript.Text.Class

/-!
Comments.

A comment is a list of lines without their slashes. The entry `Comment.gap` among them stands for
an empty line between two blocks of comment lines.
-/
namespace PipelineScript

/-- A block of comment lines and where it begins. -/
structure Comment where
  position : Position
  lines : List String
deriving DecidableEq, Repr, Inhabited

namespace Comment

/-- The entry that separates two blocks. -/
def gap : String := "\n"

/-- A comment that was not read from a script. -/
def ofLines (lines : List String) : Comment := ⟨.nowhere, lines⟩

/-- The text without a leading `marker`. -/
def dropMarker (marker text : List Char) : List Char :=
  if marker.isPrefixOf text then text.drop marker.length else text

/-- One line of a comment: without the blanks around it, its slashes, and one space behind them;
an empty line is none. -/
def line? (text : List Char) : Option String :=
  let text := Text.trim text
  if text.isEmpty then none
  else some (String.ofList (dropMarker [' '] (dropMarker ['/', '/'] text)))

/-- Divides a text at its newlines. -/
def splitLines : List Char → List (List Char)
  | [] => [[]]
  | c :: cs =>
    if c = '\n' then [] :: splitLines cs
    else
      match splitLines cs with
      | line :: rest => (c :: line) :: rest
      | [] => [[c]]

/-- The lines of one comment token. -/
def linesOf (text : String) : List String := (splitLines text.toList).filterMap line?

/-- The lines of adjacent comment tokens, with a gap between any two. -/
def joinTexts : List String → List String
  | [] => []
  | [text] => linesOf text
  | text :: rest => linesOf text ++ gap :: joinTexts rest

/-- The comment that adjacent comment tokens make. -/
def ofTexts (position : Position) (texts : List String) : Comment := ⟨position, joinTexts texts⟩

/-- One entry as a line of script text. -/
def renderLine (indent : List Char) (line : String) : List Char :=
  if line = gap then ['\n']
  else if line.isEmpty then indent ++ ['/', '/', '\n']
  else indent ++ '/' :: '/' :: ' ' :: line.toList ++ ['\n']

/-- The comment as script text, each line at `indent`. A comment that does not begin on a fresh
line starts one. -/
def render (c : Comment) (indent : List Char) (fresh : Bool) : List Char :=
  (if fresh then [] else ['\n']) ++ c.lines.flatMap (renderLine indent)

end Comment

end PipelineScript

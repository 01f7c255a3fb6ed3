import PipelineScript.Node.Literal
import PipelineScript.Token.Stream

/-!
What can go wrong while a script is parsed.

A script is rejected at one place for one cause: a token that the grammar does not allow there, or
a literal without a value. Apart from that the tokens themselves may run on without an end, or the
scanner may be lost.
-/
namespace PipelineScript

variable [PatternEngine]

/-- Why a script is rejected. -/
inductive ParseCause where
  /-- The grammar allows only tokens of the expected kinds. -/
  | unexpected (found : String) (expected : List TokenKind)
  /-- A literal has no value. -/
  | literal (error : NodeError)
deriving DecidableEq, Repr

/-- Why and where a script is rejected, with the text around that place. -/
structure ParseError where
  cause : ParseCause
  position : Position
  snippet : String
deriving DecidableEq, Repr

/-- Why parsing stops without a tree. -/
inductive ParseFailure where
  | rejected (error : ParseError)
  /-- The tokens do not come to an end. -/
  | interrupted (ending : StreamEnd)
  /-- The bound on the depth of the grammar was reached. -/
  | exhausted
deriving DecidableEq, Repr

/-- The kinds of token that a diagnostic offers, in quotes and separated by commas. -/
def quotedKinds (kinds : List TokenKind) : String :=
  ",".intercalate (kinds.map fun kind => Text.quote kind.describe)

/-- The wording of the rejection. -/
def ParseError.message (e : ParseError) : String :=
  match e.cause with
  | .unexpected found expected =>
    "parser: unexpected " ++ found ++ " " ++ e.position.describe ++ " in \"" ++ e.snippet ++
      "\". expected: " ++ quotedKinds expected
  | .literal error => "parser: " ++ error.message

/-- The kinds of token that would have been accepted. -/
def ParseError.expected (e : ParseError) : List TokenKind :=
  match e.cause with
  | .unexpected _ expected => expected
  | .literal _ => []

/-- How many bytes of context a diagnostic shows on each side. -/
def snippetRadius : Nat := 10

/-- The bytes before an offset that a diagnostic shows: on the same line and within the radius. -/
def snippetBefore (bytes : List UInt8) (offset : Nat) : List UInt8 :=
  (((bytes.take offset).reverse.take snippetRadius).takeWhile (· != Position.newline)).reverse

/-- The bytes behind an offset that a diagnostic shows: on the same line and within the radius. -/
def snippetBehind (bytes : List UInt8) (offset : Nat) : List UInt8 :=
  ((bytes.drop offset).take snippetRadius).takeWhile (· != Position.newline)

/-- The text around an offset. It is cut by bytes, so a character may be cut. -/
def snippetAt (bytes : List UInt8) (offset : Nat) : String :=
  String.ofList (Text.decodeLossy (snippetBefore bytes offset ++ snippetBehind bytes offset))

end PipelineScript

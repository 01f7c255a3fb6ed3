import PipelineScript.Node.Render
import PipelineScript.Parse.Expression

/-!
Programs.

A program is a run of statements, each a declaration or an expression, and the comments behind the
last one. `parse` reads a whole program and `parseLambda` the body of a lambda; both read up to
the end of the text.
-/
namespace PipelineScript

variable [PatternEngine]

namespace Parser

variable {σ : Type} [TokenReader σ]

/-- A declaration, with a value or with a type. -/
def declaration (fuel : Nat) : ParserOn σ Node := do
  let token ← expect .var
  let comment ← takeComment
  let name ← identifier
  let info : Info := ⟨← locate token.offset, comment⟩
  if (← peek).kind = .assign then
    let _ ← expect .assign
    return .declaration info name (← expression fuel)
  else
    return .typeDeclaration info name (← identifier)

/-- A statement. -/
def statement (fuel : Nat) : ParserOn σ Node := do
  if (← peek).kind = .var then declaration fuel else expression fuel

/-- The comments that no node took. -/
def trailingComments : ParserOn σ (List Node) := do
  let comments ← ofStep .takeRest fun s => .ok s.takeRest
  return comments.map .comment

/-- The statements up to the end of the text. -/
def statements (fuel : Nat) : ParserOn σ (List Node) :=
  match fuel with
  | 0 => throw .exhausted
  | fuel + 1 => do
    if (← peek).kind = .eof then trailingComments
    else
      let first ← statement fuel
      return first :: (← statements fuel)

/-- A whole program. -/
def program : ParserOn σ Node := do
  let position ← locate 0
  let statements ← statements (← depth)
  let _ ← expect .eof
  return .program position statements

/-- The body of a lambda, which is a whole text. -/
def lambdaBody : ParserOn σ Node := do
  let body ← operation (← depth)
  let position ← locate 0
  let _ ← expect .eof
  return .lambda ⟨position, none⟩ body

/-- Runs a parser from a place in a script. -/
def runOn {α : Type} (parser : Parser α) (s : Lookahead) : Except ParseFailure α :=
  match parser s with
  | .ok a _ => .ok a
  | .error e _ => .error e

end Parser

/-- Parses a script. -/
def parse (source : String) : Except ParseFailure Node :=
  Parser.runOn Parser.program (.ofSource source.toList)

/-- Parses the body of a lambda: the text that would stand behind `lambda:`. -/
def parseLambda (source : String) : Except ParseFailure Node :=
  Parser.runOn Parser.lambdaBody (.ofSource source.toList)

/-- Parses a script and writes it in canonical form. -/
def formatScript (source : String) : Except ParseFailure String :=
  (parse source).map Node.render

end PipelineScript

import PipelineScript.Parse.Error
import PipelineScript.Parse.Lookahead

/-!
Steps of a parser.

A parser reads from a `Lookahead` and either gives a result or fails; where it has got to is known
in both cases, so parsing can go on after a failure. A reader may note the steps of the buffer. The
grammar is the same on every reader, and nothing in it looks at the notes.
-/
namespace PipelineScript

/-- A step of the buffer. -/
inductive BufferStep where
  | next (token : Token)
  | peek (token : Token)
  | backup
  | takeComment (comment : Option Comment)
  | takeRest (comments : List Comment)
  /-- A token is asked for and there is none. -/
  | stuck
deriving DecidableEq, Repr

/-- What a parser reads from: a buffer, and whatever is noted of its steps. -/
class TokenReader (σ : Type) where
  buffer : σ → Lookahead
  /-- Goes on with the buffer as a step leaves it. -/
  note : σ → BufferStep → Lookahead → σ

/-- A buffer alone, of which nothing is noted. -/
instance : TokenReader Lookahead where
  buffer s := s
  note _ _ s := s

namespace TokenReader

@[simp] theorem buffer_lookahead (s : Lookahead) : buffer s = s := rfl

@[simp] theorem note_lookahead (s : Lookahead) (step : BufferStep) (s' : Lookahead) :
    note s step s' = s' := rfl

end TokenReader

variable [PatternEngine]

/-- A computation that reads tokens and may fail. -/
abbrev ParserOn (σ : Type) := EStateM ParseFailure σ

/-- A parser on a buffer alone. -/
abbrev Parser := ParserOn Lookahead

namespace Parser

open TokenReader (buffer note)

variable {σ : Type} [TokenReader σ]

/-- Runs a step of the buffer. -/
def ofStep {α : Type} (name : α → BufferStep)
    (step : Lookahead → Except StreamEnd (α × Lookahead)) : ParserOn σ α := fun s =>
  match step (buffer s) with
  | .ok (a, s') => .ok a (note s (name a) s')
  | .error ending => .error (.interrupted ending) (note s .stuck (buffer s))

/-- Takes a token. -/
def next : ParserOn σ Token := ofStep .next Lookahead.next

/-- The token that comes next. It is not taken. -/
def peek : ParserOn σ Token := ofStep .peek Lookahead.peek

/-- Puts the last token back. -/
def backup : ParserOn σ Unit := ofStep (fun _ => .backup) fun s => .ok ((), s.backup)

/-- Takes the comment before the last token. -/
def takeComment : ParserOn σ (Option Comment) := ofStep .takeComment fun s => .ok s.takeComment

/-- The place of an offset. -/
def locate (offset : Nat) : ParserOn σ Position := fun s =>
  .ok (.locate (buffer s).bytes offset) s

/-- A bound on the depth of the grammar that is enough for the tokens still to come. -/
def depth : ParserOn σ Nat := fun s => .ok (buffer s).fuel s

/-- The place of a token with the comment before it, if the comment is still there. -/
def infoOf (token : Token) : ParserOn σ Info := do
  let comment ← takeComment
  return ⟨← locate token.offset, comment⟩

/-- Whether there is a newline from one offset up to another. -/
def breaksBetween (start stop : Nat) : ParserOn σ Bool := fun s =>
  let bytes := (buffer s).bytes
  .ok (decide (stop ≤ bytes.length) && ((bytes.take stop).drop start).contains Position.newline) s

/-- Fails at a token. -/
def reject {α : Type} (token : Token) (cause : ParseCause) : ParserOn σ α := fun s =>
  let bytes := (buffer s).bytes
  .error (.rejected ⟨cause, .locate bytes token.offset, snippetAt bytes token.offset⟩) s

/-- Fails because a token is of none of the expected kinds. A diagnostic of the scanner takes the
place of the token's kind. -/
def unexpected {α : Type} (token : Token) (expected : List TokenKind) : ParserOn σ α :=
  reject token
    (.unexpected (if token.kind = .error then token.text else token.kind.describe) expected)

/-- Takes a token of one kind. -/
def expect (kind : TokenKind) : ParserOn σ Token := do
  let token ← next
  if token.kind = kind then return token else unexpected token [kind]

/-- The value of a literal, or a failure at its token. -/
def literal {α : Type} (token : Token) (value : Except NodeError α) : ParserOn σ α :=
  match value with
  | .ok a => return a
  | .error e => reject token (.literal e)

/-- A name. -/
def identifier : ParserOn σ Identifier := do
  let token ← expect .ident
  return ⟨← infoOf token, token.text⟩

/-- A string. -/
def string : ParserOn σ Node := do
  let token ← expect .string
  let info ← infoOf token
  match Node.stringOfText? info token.text with
  | some node => return node
  | none => throw (.interrupted .lost)

/-- A star. -/
def star : ParserOn σ Node := do
  let token ← expect .star
  return .star (← infoOf token)

/-- Whether the name that comes next is called: a parenthesis follows it. -/
def isCall : ParserOn σ Bool := do
  let _ ← next
  let behind ← peek
  backup
  return behind.kind == .lparen

/-- A call of a function, given its arguments. It is broken if its last argument begins on
another line than its name. -/
def call (token : Token) (kind : CallKind) (comment : Option Comment) (args : List Node) :
    ParserOn σ Node := do
  let broken ←
    match args.getLast? with
    | some last => breaksBetween token.offset last.position.offset
    | none => pure false
  return .func ⟨← locate token.offset, comment⟩ kind token.text args broken

end Parser

end PipelineScript

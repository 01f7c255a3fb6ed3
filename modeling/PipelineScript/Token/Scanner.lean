import PipelineScript.Text.Bytes
import PipelineScript.Token
import PipelineScript.Token.Lexeme

/-!
The scanner.

What a sign means depends on the token before it: after an operand `-`, `*` and `/` are binary
operators, elsewhere `-` is a unary operator, `*` a star and `/` opens a regex. So a scanner that
stands between two tokens has a mode as well as a place, and `Scanner.next` reads one token.

A token of kind `eof` or `error` is the last one. There is one more way to end: where an operand
is expected, a slash before a character of more than one byte sends the scanner back by one byte
less than that width, to look for a regex there. If that place is before the text or inside a
character, or if the regex found there ends before the slash, the scanner is `lost`.
-/
namespace PipelineScript

/-- What the scanner expects. -/
inductive ScanMode where
  /-- An operand, or anything that is not a binary operator. -/
  | operand
  /-- A binary operator; anything else is read as in mode `operand`. -/
  | operator
  /-- A regex if a slash follows; anything else is read as in mode `operand`. -/
  | pattern
deriving DecidableEq, Repr, Inhabited

/-- A place between two tokens: the byte offset, the text from there on, and the mode. -/
structure Cursor where
  mode : ScanMode
  offset : Nat
  rest : List Char
deriving DecidableEq, Repr

/-- A scanner in a script. It has no cursor once it has read its last token. -/
structure Scanner where
  source : List Char
  cursor : Option Cursor
deriving DecidableEq, Repr

/-- What a scanner does next. -/
inductive Scan where
  /-- It reads a token, and goes on from the cursor if there is one. -/
  | token (token : Token) (next : Option Cursor)
  /-- It has read its last token. -/
  | ended
  /-- It has no place to go on from. -/
  | lost
deriving DecidableEq, Repr

namespace Scan

/-- A token made of the characters of `lexeme`. -/
def emit (kind : TokenKind) (offset : Nat) (lexeme rest : List Char) (mode : ScanMode) : Scan :=
  .token ⟨kind, offset, String.ofList lexeme⟩ (some ⟨mode, offset + Text.size lexeme, rest⟩)

/-- A diagnostic that ends the stream. -/
def fail (offset : Nat) (message : String) : Scan := .token ⟨.error, offset, message⟩ none

/-- A word: a keyword or a name. `c` is a letter. -/
def word (offset : Nat) (c : Char) (cs : List Char) : Scan :=
  let (lexeme, rest) := Lexeme.name cs
  match TokenKind.keyword? (String.ofList (c :: lexeme)) with
  | some .lambda =>
    match rest with
    | d :: rest' =>
      if d = ':' then emit .lambda offset (c :: lexeme ++ [d]) rest' .operator
      else emit .ident offset (c :: lexeme) rest .operator
    | [] => emit .ident offset (c :: lexeme) rest .operator
  | some kind => emit kind offset (c :: lexeme) rest .operator
  | none => emit .ident offset (c :: lexeme) rest .operator

/-- The characters that name a unit of a duration. -/
def isUnit (c : Char) : Bool :=
  c == 'u' || c == 'µ' || c == 's' || c == 'm' || c == 'h' || c == 'd' || c == 'w'

/-- The digits behind the point of a number. -/
def fraction (offset : Nat) (whole : List Char) (cs : List Char) : Scan :=
  let (part, rest) := Lexeme.digits cs
  match rest with
  | c :: rest' =>
    if c = '.' then fail offset "multiple decimals in number"
    else emit .number offset (whole ++ '.' :: part) (c :: rest') .operator
  | [] => emit .number offset (whole ++ '.' :: part) [] .operator

/-- A number or a duration, which begins with a digit. A unit makes it a duration, and `ms` is the
one unit of two characters. -/
def number (offset : Nat) (cs : List Char) : Scan :=
  let (whole, rest) := Lexeme.digits cs
  match rest with
  | c :: rest' =>
    if c = '.' then fraction offset whole rest'
    else if isUnit c then
      match rest' with
      | d :: rest'' =>
        if c = 'm' ∧ d = 's' then emit .duration offset (whole ++ [c, d]) rest'' .operator
        else emit .duration offset (whole ++ [c]) (d :: rest'') .operator
      | [] => emit .duration offset (whole ++ [c]) [] .operator
    else emit .number offset whole (c :: rest') .operator
  | [] => emit .number offset whole [] .operator

/-- A point: the beginning of a number if a digit follows, else a chain operator. -/
def point (offset : Nat) (cs : List Char) : Scan :=
  match cs with
  | d :: ds =>
    if Text.isDigit d then fraction offset [] (d :: ds)
    else emit (.chain .dot) offset ['.'] (d :: ds) .operand
  | [] => emit (.chain .dot) offset ['.'] [] .operand

/-- A reference, behind its opening quote. -/
def reference (offset : Nat) (cs : List Char) : Scan :=
  match Lexeme.closing '"' cs with
  | some (lexeme, rest) => emit .reference offset ('"' :: lexeme) rest .operator
  | none => fail offset "unterminated field reference"

/-- A string opened by `opening`, of one or three quotes. -/
def quoted (offset : Nat) (opening : List Char) (cs : List Char) : Scan :=
  match Lexeme.closingQuotes opening.length opening.length cs with
  | some (lexeme, rest) => emit .string offset (opening ++ lexeme) rest .operator
  | none => fail offset "unterminated string"

/-- A string, behind its first quote: empty, in triple quotes, or in single quotes. -/
def string (offset : Nat) (cs : List Char) : Scan :=
  match cs with
  | c :: ds =>
    if c = '\'' then
      match ds with
      | d :: es =>
        if d = '\'' then quoted offset ['\'', '\'', '\''] es
        else emit .string offset ['\'', '\''] (d :: es) .operator
      | [] => emit .string offset ['\'', '\''] [] .operator
    else quoted offset ['\''] (c :: ds)
  | [] => quoted offset ['\''] []

/-- A comment, behind its two slashes. -/
def comment (offset : Nat) (cs : List Char) : Scan :=
  let (lexeme, rest) := Lexeme.comment false cs
  emit .comment offset ('/' :: '/' :: lexeme) rest .operand

/-- A regex that is looked for `back` bytes before `offset`, in the text from there on. The token
is the part of it that begins at `offset`. -/
def regex (offset back : Nat) (text : List Char) : Scan :=
  match text with
  | [] => fail offset "unterminated regex"
  | c :: cs =>
    if c = '/' then
      match Lexeme.closing '/' cs with
      | some (lexeme, rest) =>
        match Text.suffixAt (c :: lexeme) back with
        | some lexeme => emit .regex offset lexeme rest .operand
        | none => .lost
      | none => fail offset "unterminated regex"
    else fail offset ("unexpected " ++ Text.quoteChar c ++ " expected \"/\"")

/-- A slash where an operand is expected: a comment or a regex. Before a character of more than
one byte the regex is looked for earlier in the source. -/
def slash (source : List Char) (offset : Nat) (cs : List Char) : Scan :=
  match cs with
  | [] => fail offset "unterminated regex"
  | c :: ds =>
    if c = '/' then comment offset ds
    else if c.utf8Size = 1 then regex offset 0 ('/' :: c :: ds)
    else if offset + 1 < c.utf8Size then .lost
    else
      match Text.suffixAt source (offset + 1 - c.utf8Size) with
      | some text => regex offset (c.utf8Size - 1) text
      | none => .lost

/-- The token that begins with the character `c`, where an operand is expected. -/
def operand (source : List Char) (offset : Nat) (c : Char) (cs : List Char) : Scan :=
  if c = '-' then emit (.binary .subtract) offset [c] cs .operand
  else if c = '!' then emit .not offset [c] cs .operand
  else if Text.isDigit c then number offset (c :: cs)
  else if c = '.' then point offset cs
  else if Text.isAlphabetic c then word offset c cs
  else if c = '"' then reference offset cs
  else if c = '\'' then string offset cs
  else if c = '(' then emit .lparen offset [c] cs .operand
  else if c = ')' then emit .rparen offset [c] cs .operator
  else if c = '[' then emit .lbracket offset [c] cs .operand
  else if c = ']' then emit .rbracket offset [c] cs .operand
  else if c = '|' then emit (.chain .pipe) offset [c] cs .operand
  else if c = '@' then emit (.chain .dynamic) offset [c] cs .operand
  else if c = ',' then emit .comma offset [c] cs .operand
  else if c = '*' then emit .star offset [c] cs .operand
  else if c = '/' then slash source offset cs
  else fail offset ("unknown state, last char: " ++ Text.quoteChar c)

/-- An operator that `=` or another second character extends. -/
def extended (offset : Nat) (c : Char) (cs : List Char)
    (longer : Char → Option (TokenKind × ScanMode))
    (kind : TokenKind) (mode : ScanMode) : Scan :=
  match cs with
  | d :: ds =>
    match longer d with
    | some (kind', mode') => emit kind' offset [c, d] ds mode'
    | none => emit kind offset [c] (d :: ds) mode
  | [] => emit kind offset [c] [] mode

/-- The token that begins with the character `c`, where a binary operator may stand. -/
def operator (source : List Char) (offset : Nat) (c : Char) (cs : List Char) : Scan :=
  if c = '+' then emit (.binary .add) offset [c] cs .operand
  else if c = '-' then emit (.binary .subtract) offset [c] cs .operand
  else if c = '*' then emit (.binary .multiply) offset [c] cs .operand
  else if c = '%' then emit (.binary .modulo) offset [c] cs .operand
  else if c = '/' then
    match cs with
    | d :: ds =>
      if d = '/' then comment offset ds else emit (.binary .divide) offset [c] (d :: ds) .operand
    | [] => emit (.binary .divide) offset [c] [] .operand
  else if c = '!' then
    extended offset c cs
      (fun d =>
        if d = '=' then some (.binary .notEqual, .operand)
        else if d = '~' then some (.binary .regexNotEqual, .pattern)
        else none)
      .not .operand
  else if c = '>' then
    extended offset c cs
      (fun d => if d = '=' then some (.binary .greaterEqual, .operand) else none)
      (.binary .greater) .operand
  else if c = '<' then
    extended offset c cs
      (fun d => if d = '=' then some (.binary .lessEqual, .operand) else none)
      (.binary .less) .operand
  else if c = '=' then
    extended offset c cs
      (fun d =>
        if d = '~' then some (.binary .regexEqual, .pattern)
        else if d = '=' then some (.binary .equal, .operand)
        else none)
      .assign .pattern
  else operand source offset c cs

end Scan

namespace Scanner

/-- A scanner at the beginning of a script. -/
def ofSource (source : List Char) : Scanner := ⟨source, some ⟨.operand, 0, source⟩⟩

/-- Reads the token at a cursor, behind the white space there. -/
def read (source : List Char) (cursor : Cursor) : Scan :=
  let (space, rest) := Lexeme.blank cursor.rest
  let offset := cursor.offset + Text.size space
  match rest with
  | [] => .token ⟨.eof, offset, ""⟩ none
  | c :: cs =>
    match cursor.mode with
    | .operand => .operand source offset c cs
    | .operator => .operator source offset c cs
    | .pattern =>
      if c = '/' then .regex offset 0 (c :: cs) else .operand source offset c cs

/-- Reads the next token. -/
def next (s : Scanner) : Scan :=
  match s.cursor with
  | some cursor => read s.source cursor
  | none => .ended

end Scanner

end PipelineScript

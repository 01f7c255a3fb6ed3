import PipelineScript.Operator

/-!
Tokens of a script.

A token has a kind, the byte offset where it begins, and its text. A token of kind `error` carries
a diagnostic in place of text. Binary operators and chain operators are kinds of their own family,
so what a token means to the grammar is read off its kind.
-/
namespace PipelineScript

/-- What a token is. -/
inductive TokenKind where
  /-- The text cannot be scanned from here on; the token text says why. -/
  | error
  /-- The end of the text. -/
  | eof
  /-- The keyword `var`. -/
  | var
  /-- The keyword `lambda:`. -/
  | lambda
  /-- The literal `TRUE` or `FALSE`. -/
  | bool (value : Bool)
  /-- The sign `=` of a declaration. -/
  | assign
  | chain (op : ChainOp)
  | lparen | rparen | lbracket | rbracket | comma
  /-- A `*` where an operand is expected. -/
  | star
  /-- The operator `!`. -/
  | not
  | ident
  /-- A name in double quotes. -/
  | reference
  | number | string | duration | regex
  /-- Adjacent comment lines. -/
  | comment
  | binary (op : BinaryOp)
deriving DecidableEq, Repr, Inhabited

namespace TokenKind

/-- The kind that a word has as a keyword. The word `lambda` is one only before a colon, which
the scanner checks. -/
def keyword? (word : String) : Option TokenKind :=
  if word == "AND" then some (.binary .and)
  else if word == "OR" then some (.binary .or)
  else if word == "TRUE" then some (.bool true)
  else if word == "FALSE" then some (.bool false)
  else if word == "var" then some .var
  else if word == "lambda" then some .lambda
  else none

/-- The kind that a text has as an operator of an expression. -/
def operator? (symbol : String) : Option TokenKind :=
  if symbol == "!" then some .not else (BinaryOp.ofSpelling? symbol).map .binary

/-- The binary operator that a token stands for. -/
def binaryOp? : TokenKind → Option BinaryOp
  | .binary op => some op
  | _ => none

/-- The kind as diagnostics name it. -/
def describe : TokenKind → String
  | .error => "ERR"
  | .eof => "EOF"
  | .var => "var"
  | .lambda => "lambda"
  | .bool true => "TRUE"
  | .bool false => "FALSE"
  | .assign => "="
  | .chain op => op.spelling
  | .lparen => "("
  | .rparen => ")"
  | .lbracket => "["
  | .rbracket => "]"
  | .comma => ","
  | .star => "*"
  | .not => "!"
  | .ident => "identifier"
  | .reference => "reference"
  | .number => "number"
  | .string => "string"
  | .duration => "duration"
  | .regex => "regex"
  | .comment => "//"
  | .binary op => op.spelling

end TokenKind

/-- A piece of a script: its kind, the byte offset of its first character, and its text. -/
structure Token where
  kind : TokenKind
  offset : Nat
  text : String
deriving DecidableEq, Repr, Inhabited

/-- The token as a listing shows it. -/
def Token.describe (t : Token) : String :=
  "\x7b" ++ t.kind.describe ++ " pos: " ++ toString t.offset ++ " val: " ++ t.text ++ "\x7d"

end PipelineScript

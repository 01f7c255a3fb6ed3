import PipelineScript.Node
import PipelineScript.Text.Escape

/-!
Canonical script text.

A node is written at an indentation, and knows whether it begins on a fresh line, in which case it
writes the indentation itself. The comment before a node comes first, one line each. A step of a
chain goes on a line of its own, one level deeper than the chain, or two for a property. Statements
of a program are separated by an empty line.

An operation is put in parentheses if it was written so, or if its place would otherwise change
how it is read.
-/
namespace PipelineScript

variable [PatternEngine]

/-- One level of indentation. -/
def indentStep : List Char := [' ', ' ', ' ', ' ']

/-- The text of a binary64 value in a script: positional notation, always with a point. -/
def Binary64.scriptText (x : Binary64) : List Char :=
  if x.isNaN then "NaN.0".toList
  else
    (if x.negative then ['-'] else []) ++
      (if x.isFinite then withPoint (Decimal.shortest .up x).positional else "inf.0".toList)

/-- The text of a number in a script. -/
def Number.render : Number → List Char
  | .int value base =>
    (if value.toInt < 0 then ['-'] else []) ++
      (if base = Node.octalBase then '0' :: natText 8 value.toInt.natAbs
      else natText 10 value.toInt.natAbs)
  | .float value => value.scriptText

/-- A text between two marks, with the marks inside it escaped. -/
def quotedBy (mark : Char) (text : String) : List Char :=
  mark :: (Text.escapeMark mark text.toList ++ [mark])

/-- The indentation, if a fresh line begins. -/
def lineStart (indent : List Char) (fresh : Bool) : List Char := if fresh then indent else []

/-- A comment before something, if there is one. -/
def renderComment (c : Option Comment) (indent : List Char) (fresh : Bool) : List Char :=
  match c with
  | some c => c.render indent fresh
  | none => []

/-- A name with the comment before it. -/
def Identifier.render (ident : Identifier) (indent : List Char) (fresh : Bool) : List Char :=
  renderComment ident.info.comment indent fresh ++
    lineStart indent (fresh || ident.info.comment.isSome) ++ ident.name.toList

namespace Node

/-- Whether a node is an operation. -/
def isBinary : Node → Bool
  | .binary .. => true
  | _ => false

/-- Whether the left operand of an operator needs parentheses: its operator binds less tightly. -/
def looserLeft (precedence : Nat) : Node → Bool
  | .binary _ op _ _ _ _ => decide (op.precedence < precedence)
  | _ => false

/-- Whether the right operand of an operator needs parentheses: its operator does not bind more
tightly, since operators of one strength associate to the left. -/
def looserRight (precedence : Nat) : Node → Bool
  | .binary _ op _ _ _ _ => decide (op.precedence ≤ precedence)
  | _ => false

/-- The indentation of a step of a chain. -/
def stepIndent (op : ChainOp) (indent : List Char) : List Char :=
  match op with
  | .dot => indent ++ indentStep ++ indentStep
  | _ => indent ++ indentStep

/-- Whether the node itself begins on a fresh line: its comment ends with a newline. -/
def startsFresh (info : Info) (fresh : Bool) : Bool := fresh || info.comment.isSome

/-- What stands before a node: its comment and the indentation. -/
def head (info : Info) (indent : List Char) (fresh : Bool) : List Char :=
  renderComment info.comment indent fresh ++ lineStart indent (startsFresh info fresh)

mutual

/-- The text of a node. `parens` demands parentheses around an operation. -/
def renderIn (indent : List Char) (fresh parens : Bool) : Node → List Char
  | .number info value => head info indent fresh ++ value.render
  | .duration info span literal =>
    head info indent fresh ++ (if literal.isEmpty then span.render else literal).toList
  | .bool info value => head info indent fresh ++ (if value then "TRUE" else "FALSE").toList
  | .string info literal triple =>
    head info indent fresh ++
      (if triple then "'''".toList ++ literal.toList ++ "'''".toList else quotedBy '\'' literal)
  | .regex info _ literal => head info indent fresh ++ '/' :: (literal.toList ++ ['/'])
  | .reference info name => head info indent fresh ++ quotedBy '"' name
  | .star info => head info indent fresh ++ ['*']
  | .list info items =>
    head info indent fresh ++ '[' :: (renderItems indent items ++ [']'])
  | .unary info op operand =>
    head info indent fresh ++ op.spelling.toList ++
      renderIn indent false operand.isBinary operand
  | .binary info op left right parenthesized broken =>
    let parens := parens || parenthesized
    let inner := if parens then indent ++ indentStep else indent
    head info indent fresh ++
      (if parens then ['('] else []) ++
      renderIn inner false (looserLeft op.precedence left) left ++
      ' ' :: (op.spelling.toList ++ [if broken then '\n' else ' ']) ++
      renderIn inner broken (looserRight op.precedence right) right ++
      (if parens then [')'] else [])
  | .identifier ident => ident.render indent fresh
  | .chain info op left right =>
    let step := stepIndent op indent
    renderIn indent fresh false left ++
      '\n' :: (renderComment info.comment step true ++ step ++ op.spelling.toList) ++
      renderIn step false false right
  | .func info _ name args broken =>
    head info indent fresh ++ name.toList ++
      '(' :: renderArgs (indent ++ indentStep) broken true args ++
      (if broken && !args.isEmpty then '\n' :: indent else []) ++ [')']
  | .lambda info body =>
    head info indent fresh ++ "lambda: ".toList ++ renderIn indent false false body
  | .declaration info name value =>
    renderComment info.comment indent fresh ++ "var ".toList ++ name.render indent false ++
      " = ".toList ++ renderIn indent false false value
  | .typeDeclaration info name type =>
    renderComment info.comment indent fresh ++ "var ".toList ++ name.render indent false ++
      ' ' :: type.render indent false
  | .program _ statements => renderStatements indent true statements
  | .comment block => block.render indent fresh
termination_by structural n => n

/-- The items of a list, separated by commas. -/
def renderItems (indent : List Char) : List Node → List Char
  | [] => []
  | [item] => renderIn indent false false item
  | item :: items => renderIn indent false false item ++ ',' :: ' ' :: renderItems indent items
termination_by structural ns => ns

/-- The arguments of a call, on one line or each on a line of its own. -/
def renderArgs (indent : List Char) (broken first : Bool) : List Node → List Char
  | [] => []
  | arg :: args =>
    (if first then [] else if broken then [','] else [',', ' ']) ++
      (if broken then ['\n'] else []) ++ renderIn indent broken false arg ++
      renderArgs indent broken false args
termination_by structural ns => ns

/-- The statements of a program, with an empty line between any two. -/
def renderStatements (indent : List Char) (first : Bool) : List Node → List Char
  | [] => []
  | statement :: statements =>
    (if first then [] else ['\n']) ++ renderIn indent true false statement ++
      '\n' :: renderStatements indent false statements
termination_by structural ns => ns

end

/-- The canonical text of a node at an indentation. -/
def renderAt (n : Node) (indent : String) (fresh : Bool) : String :=
  String.ofList (n.renderIn indent.toList fresh false)

/-- The canonical text of a node. -/
def render (n : Node) : String := n.renderAt "" true

end Node

end PipelineScript

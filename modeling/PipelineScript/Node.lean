import PipelineScript.Comment
import PipelineScript.Decimal.Binary64
import PipelineScript.Duration
import PipelineScript.Operator
import PipelineScript.Pattern

/-!
The syntax tree of a script.

Besides its meaning a node keeps how it was written: its place, the comment before it, the base of
an integer, the spelling of a duration, the quoting of a string, the parentheses around an
operation and the line breaks inside it. Nodes that are built, and not read from a script, stand
nowhere and have no comment.
-/
namespace PipelineScript

/-- The kinds of node. -/
inductive NodeKind where
  | number | duration | bool | unary | binary | declaration | typeDeclaration | chain
  | identifier | reference | string | list | regex | star | func | lambda | program | comment
deriving DecidableEq, Repr, Inhabited

namespace NodeKind

/-- All kinds, in the order in which their encoding lists them. -/
def all : List NodeKind :=
  [.number, .duration, .bool, .unary, .binary, .declaration, .typeDeclaration, .chain,
   .identifier, .reference, .string, .list, .regex, .star, .func, .lambda, .program, .comment]

/-- The name of a kind. -/
def name : NodeKind → String
  | .number => "number"
  | .duration => "duration"
  | .bool => "bool"
  | .unary => "unary"
  | .binary => "binary"
  | .declaration => "declaration"
  | .typeDeclaration => "typeDeclaration"
  | .chain => "chain"
  | .identifier => "identifier"
  | .reference => "reference"
  | .string => "string"
  | .list => "list"
  | .regex => "regex"
  | .star => "star"
  | .func => "func"
  | .lambda => "lambda"
  | .program => "program"
  | .comment => "comment"

/-- The kind with a given name. -/
def ofName? (name : String) : Option NodeKind := all.find? fun kind => kind.name == name

@[simp] theorem ofName?_name (kind : NodeKind) : ofName? kind.name = some kind := by
  cases kind <;> rfl

end NodeKind

/-- Where a node stands and the comment before it. -/
structure Info where
  position : Position
  comment : Option Comment
deriving DecidableEq, Repr, Inhabited

/-- The information of a node that was built. -/
def Info.built : Info := ⟨.nowhere, none⟩

/-- A number: a signed 64-bit integer with the base it is written in, or a binary64 value. -/
inductive Number where
  | int (value : Int64) (base : UInt32)
  | float (value : Binary64)
deriving DecidableEq, Repr, Inhabited

/-- A name, with its place and comment. -/
structure Identifier where
  info : Info
  name : String
deriving DecidableEq, Repr, Inhabited

/-- A name that was not read from a script. -/
def Identifier.ofName (name : String) : Identifier := ⟨.built, name⟩

variable [PatternEngine]

/-- A node of the tree. -/
inductive Node where
  | number (info : Info) (value : Number)
  /-- `literal` is the spelling in the script, empty for a node that was built. -/
  | duration (info : Info) (span : Duration) (literal : String)
  | bool (info : Info) (value : Bool)
  /-- `literal` is the text that the string stands for. -/
  | string (info : Info) (literal : String) (triple : Bool)
  /-- `literal` is the text between the slashes. -/
  | regex (info : Info) (pattern : Pattern) (literal : String)
  | reference (info : Info) (name : String)
  | star (info : Info)
  | list (info : Info) (items : List Node)
  | unary (info : Info) (op : UnaryOp) (operand : Node)
  /-- `broken` says that the right operand begins on a new line. -/
  | binary (info : Info) (op : BinaryOp) (left right : Node) (parenthesized broken : Bool)
  | identifier (ident : Identifier)
  | chain (info : Info) (op : ChainOp) (left right : Node)
  /-- `broken` says that each argument begins on a new line. -/
  | func (info : Info) (kind : CallKind) (name : String) (args : List Node) (broken : Bool)
  | lambda (info : Info) (body : Node)
  | declaration (info : Info) (name : Identifier) (value : Node)
  | typeDeclaration (info : Info) (name type : Identifier)
  | program (position : Position) (statements : List Node)
  | comment (block : Comment)
deriving Repr, Inhabited

namespace Node

/-- What kind of node it is. -/
def kind : Node → NodeKind
  | .number .. => .number
  | .duration .. => .duration
  | .bool .. => .bool
  | .string .. => .string
  | .regex .. => .regex
  | .reference .. => .reference
  | .star .. => .star
  | .list .. => .list
  | .unary .. => .unary
  | .binary .. => .binary
  | .identifier .. => .identifier
  | .chain .. => .chain
  | .func .. => .func
  | .lambda .. => .lambda
  | .declaration .. => .declaration
  | .typeDeclaration .. => .typeDeclaration
  | .program .. => .program
  | .comment .. => .comment

/-- The place and comment of a node. A program and a comment have no comment before them. -/
def info : Node → Info
  | .number info _ => info
  | .duration info _ _ => info
  | .bool info _ => info
  | .string info _ _ => info
  | .regex info _ _ => info
  | .reference info _ => info
  | .star info => info
  | .list info _ => info
  | .unary info _ _ => info
  | .binary info _ _ _ _ _ => info
  | .identifier ident => ident.info
  | .chain info _ _ _ => info
  | .func info _ _ _ _ => info
  | .lambda info _ => info
  | .declaration info _ _ => info
  | .typeDeclaration info _ _ => info
  | .program position _ => ⟨position, none⟩
  | .comment block => ⟨block.position, none⟩

/-- Where the node stands. -/
def position (n : Node) : Position := n.info.position

/-- The comment before the node. -/
def comment? (n : Node) : Option Comment := n.info.comment

/-- The node with another comment before it; a program and a comment stay as they are. -/
def setComment (c : Option Comment) : Node → Node
  | .number info value => .number { info with comment := c } value
  | .duration info span literal => .duration { info with comment := c } span literal
  | .bool info value => .bool { info with comment := c } value
  | .string info literal triple => .string { info with comment := c } literal triple
  | .regex info pattern literal => .regex { info with comment := c } pattern literal
  | .reference info name => .reference { info with comment := c } name
  | .star info => .star { info with comment := c }
  | .list info items => .list { info with comment := c } items
  | .unary info op operand => .unary { info with comment := c } op operand
  | .binary info op left right parenthesized broken =>
    .binary { info with comment := c } op left right parenthesized broken
  | .identifier ident => .identifier { ident with info := { ident.info with comment := c } }
  | .chain info op left right => .chain { info with comment := c } op left right
  | .func info kind name args broken => .func { info with comment := c } kind name args broken
  | .lambda info body => .lambda { info with comment := c } body
  | .declaration info name value => .declaration { info with comment := c } name value
  | .typeDeclaration info name type => .typeDeclaration { info with comment := c } name type
  | .program position statements => .program position statements
  | .comment block => .comment block

/-- An operation written in parentheses; any other node stays as it is. -/
def parenthesize : Node → Node
  | .binary info op left right _ broken => .binary info op left right true broken
  | n => n

/-- The base that integers are written in unless they say otherwise. -/
def decimalBase : UInt32 := 10

/-- The base of integers that begin with a zero. -/
def octalBase : UInt32 := 8

/-! ## Building nodes -/

def ofInt (value : Int64) : Node := .number .built (.int value decimalBase)

def ofFloat (value : Binary64) : Node := .number .built (.float value)

def ofDuration (span : Duration) : Node := .duration .built span ""

def ofBool (value : Bool) : Node := .bool .built value

/-- A string in single quotes. -/
def ofString (literal : String) : Node := .string .built literal false

def ofReference (name : String) : Node := .reference .built name

def ofStar : Node := .star .built

def ofList (items : List Node) : Node := .list .built items

def ofName (name : String) : Node := .identifier (.ofName name)

def ofUnary (op : UnaryOp) (operand : Node) : Node := .unary .built op operand

def ofBinary (op : BinaryOp) (left right : Node) : Node := .binary .built op left right false false

def ofCall (kind : CallKind) (name : String) (args : List Node) : Node :=
  .func .built kind name args false

def ofLambda (body : Node) : Node := .lambda .built body

def ofDeclaration (name : String) (value : Node) : Node :=
  .declaration .built (.ofName name) value

def ofTypeDeclaration (name type : String) : Node :=
  .typeDeclaration .built (.ofName name) (.ofName type)

def ofStatements (statements : List Node) : Node := .program .nowhere statements

def ofCommentLines (lines : List String) : Node := .comment (.ofLines lines)

end Node

end PipelineScript

import PipelineScript.Json.Reader
import PipelineScript.Json.Record
import PipelineScript.Node.Literal

/-!
Nodes as JSON.

`marshal` writes the meaning of a node: places, comments and layout are left out, except the base
of an integer. `unmarshal` reads it back, and checks what the schema leaves open: operators, bases,
durations, patterns, names of declarations and steps of chains.
-/
namespace PipelineScript.Json

variable [PatternEngine]

/-- Why a value is no node. -/
inductive DecodeError where
  | missingKind
  | mismatch (expected received : String)
  | unknownKind (name : String)
  /-- The value is of the named sort, and no object. -/
  | notAnObject (sort : String)
  | schema (error : SchemaError)
  | operator (error : UnknownOperator)
  | zeroBase
  | invalidBase (base : Int64)
  | notANumber
  | notAnIdentifier (field : String) (found : NodeKind)
  | node (error : NodeError)
deriving DecidableEq, Repr

/-- The wording of the failure. -/
def DecodeError.message : DecodeError → String
  | .missingKind => "missing " ++ kindField ++ " field"
  | .mismatch expected received =>
    "error unmarshaling node type " ++ expected ++ "; received " ++ received
  | .unknownKind name => "unknown node type " ++ Text.quote name
  | .notAnObject sort => "expected node type but is " ++ sort
  | .schema error => error.message
  | .operator error => error.message
  | .zeroBase => "integer base cannot be zero"
  | .invalidBase base => s!"invalid integer base {base.toInt}"
  | .notANumber => "number node is neither an integer nor a float"
  | .notAnIdentifier field found => field ++ " must be an identifier, got " ++ found.name
  | .node error => error.message

/-- Why a text is no node. -/
inductive ReadError where
  /-- The text is not JSON. -/
  | malformed
  | decode (error : DecodeError)
deriving DecidableEq, Repr

namespace Record

/-- The record of a name. -/
def ofIdentifier (ident : Identifier) : Record := .identifier ident.name

/-- The record of a number. -/
def ofNumber : PipelineScript.Number → Record
  | .int value base => .number true false value (.zero false) (Int64.ofNat base.toNat)
  | .float value => .number false true 0 value 0

mutual

/-- The record of a node. -/
def ofNode : Node → Record
  | .number _ value => ofNumber value
  | .duration _ span _ => .duration span.render
  | .bool _ value => .bool value
  | .unary _ op operand => .unary op.spelling (ofNode operand)
  | .binary _ op left right _ _ => .binary op.spelling (ofNode left) (ofNode right)
  | .declaration _ name value => .declaration (ofIdentifier name) (ofNode value)
  | .typeDeclaration _ name type => .typeDeclaration (ofIdentifier name) (ofIdentifier type)
  | .chain _ op left right => .chain op.spelling (ofNode left) (ofNode right)
  | .identifier ident => ofIdentifier ident
  | .reference _ name => .reference name
  | .string _ literal _ => .string literal
  | .list _ items => .list (ofNodes items)
  | .regex _ pattern _ => .regex pattern.text
  | .star _ => .star
  | .func _ kind name args _ => .func name kind.name (ofNodes args)
  | .lambda _ body => .lambda (ofNode body)
  | .program _ statements => .program (ofNodes statements)
  | .comment block => .comment block.lines
termination_by structural n => n

/-- The records of nodes. -/
def ofNodes : List Node → List Record
  | [] => []
  | n :: ns => ofNode n :: ofNodes ns
termination_by structural ns => ns

end

/-- The number that a record holds. Integers are written in base eight or ten. -/
def toNumber (isInt isFloat : Bool) (int : Int64) (float : Binary64) (base : Int64) :
    Except DecodeError PipelineScript.Number :=
  if isInt then
    if base = 0 then .error .zeroBase
    else if base = 8 then .ok (.int int Node.octalBase)
    else if base = 10 then .ok (.int int Node.decimalBase)
    else .error (.invalidBase base)
  else if isFloat then .ok (.float float)
  else .error .notANumber

/-- Turns the failure of an operator into one of decoding. -/
def operator {α : Type} (r : Except UnknownOperator α) : Except DecodeError α :=
  r.mapError .operator

/-- Turns the failure of building a node into one of decoding. -/
def built {α : Type} (r : Except NodeError α) : Except DecodeError α := r.mapError .node

/-- The name that a node is, for a field that must be one. -/
def nameOf (field : String) : Node → Except DecodeError String
  | .identifier ident => .ok ident.name
  | n => .error (.notAnIdentifier field n.kind)

mutual

/-- The node that a record describes. Operators are checked before operands, and operands from
left to right. -/
def toNode : Record → Except DecodeError Node
  | .number isInt isFloat int float base => do
    return .number .built (← toNumber isInt isFloat int float base)
  | .duration text => do
    return .ofDuration (← built ((Duration.parse text).mapError .duration))
  | .bool value => .ok (.ofBool value)
  | .unary op node => do
    let op ← operator (UnaryOp.read op)
    return .ofUnary op (← toNode node)
  | .binary op left right => do
    let op ← operator (BinaryOp.read op)
    let left ← toNode left
    return .ofBinary op left (← toNode right)
  | .declaration left right => do
    let name ← nameOf "declaration left" (← toNode left)
    return .ofDeclaration name (← toNode right)
  | .typeDeclaration node type => do
    let name ← nameOf "typeDeclaration node" (← toNode node)
    let type ← nameOf "typeDeclaration type" (← toNode type)
    return .ofTypeDeclaration name type
  | .chain op left right => do
    let op ← operator (ChainOp.read op)
    let left ← toNode left
    let right ← toNode right
    built (Node.ofChain op left right)
  | .identifier name => .ok (.ofName name)
  | .reference name => .ok (.ofReference name)
  | .string literal => .ok (.ofString literal)
  | .list nodes => do return .ofList (← toNodes nodes)
  | .regex pattern => built (Node.ofPattern pattern)
  | .star => .ok .ofStar
  | .func name kind args => do
    let kind ← operator (CallKind.read kind)
    return .ofCall kind name (← toNodes args)
  | .lambda expression => do return .ofLambda (← toNode expression)
  | .program nodes => do return .ofStatements (← toNodes nodes)
  | .comment lines => .ok (.ofCommentLines lines)
termination_by structural r => r

/-- The nodes that records describe, up to the first failure. -/
def toNodes : List Record → Except DecodeError (List Node)
  | [] => .ok []
  | r :: rs => do
    let n ← toNode r
    return n :: (← toNodes rs)
termination_by structural rs => rs

end

end Record

/-- A node as a JSON value. -/
def marshal (n : Node) : Value := (Record.ofNode n).toValue

/-- The kind that an object names in its field `typeOf`. -/
def typeOf (v : Value) : Except DecodeError String :=
  match v with
  | .object fields =>
    match fields.lookup kindField with
    | some (.string name) => .ok name
    | some other => .error (.mismatch ("string " ++ kindField) other.text)
    | none => .error .missingKind
  | v => .error (.notAnObject v.sort)

/-- Decodes a value by the schema and then by meaning. -/
def decode (v : Value) : Except DecodeError Node :=
  match Record.ofValue v with
  | .ok record => record.toNode
  | .error e => .error (.schema e)

/-- Reads a node of any kind. -/
def unmarshal (v : Value) : Except DecodeError Node := do
  let name ← typeOf v
  if (NodeKind.ofName? name).isNone then throw (.unknownKind name)
  decode v

/-- Reads a node that must be of the kind with a given name. -/
def unmarshalAs (expected : String) (v : Value) : Except DecodeError Node := do
  let name ← typeOf v
  if name ≠ expected then throw (.mismatch expected name)
  unmarshal v

/-- Reads a lambda. -/
def unmarshalLambda (v : Value) : Except DecodeError Node := unmarshalAs NodeKind.lambda.name v

/-- Reads a JSON text. -/
def readValue (text : String) : Except ReadError Value :=
  match Value.read? text with
  | some v => .ok v
  | none => .error .malformed

/-- Reads a node from JSON text. -/
def nodeOfText (text : String) : Except ReadError Node := do
  let v ← readValue text
  (unmarshal v).mapError .decode

end PipelineScript.Json

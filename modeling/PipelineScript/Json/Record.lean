import PipelineScript.Json.Value
import PipelineScript.Node

/-!
Records: nodes as JSON holds them.

A record has the fields of a node's JSON object, with the right types and nothing checked beyond
that. In JSON it is an object with a field `typeOf` that names the kind. Where a record is read,
it may also be an array: the kind, then the fields in the order of their declaration. A kind
inside another record may be given by its number.

Reading checks the fields of an object in the order of their names and reports the first that is
wrong; only then it reports the first missing field, in the order of declaration.
-/
namespace PipelineScript.Json

variable [PatternEngine]

/-- A node as JSON holds it. -/
inductive Record where
  | number (isInt isFloat : Bool) (int : Int64) (float : Binary64) (base : Int64)
  | duration (text : String)
  | bool (value : Bool)
  | unary (operator : String) (node : Record)
  | binary (operator : String) (left right : Record)
  | declaration (left right : Record)
  | typeDeclaration (node type : Record)
  | chain (operator : String) (left right : Record)
  | identifier (name : String)
  | reference (name : String)
  | string (literal : String)
  | list (nodes : List Record)
  | regex (pattern : String)
  | star
  | func (name kind : String) (args : List Record)
  | lambda (expression : Record)
  | program (nodes : List Record)
  | comment (lines : List String)
deriving Repr, Inhabited

/-- The name of the field that holds the kind. -/
def kindField : String := "typeOf"

/-- Why a value is no record. -/
inductive SchemaError where
  | missing (field : String)
  | unknownKind (name : String)
  | wrongType (found wanted : String)
  | wrongValue (found wanted : String)
  | wrongLength (length : Nat) (wanted : String)
deriving DecidableEq, Repr

/-- The wording of the failure. -/
def SchemaError.message : SchemaError → String
  | .missing field => "missing field `" ++ field ++ "`"
  | .unknownKind name =>
    "unknown variant `" ++ name ++ "`, expected one of " ++
      ", ".intercalate (NodeKind.all.map fun kind => "`" ++ kind.name ++ "`")
  | .wrongType found wanted => "invalid type: " ++ found ++ ", expected " ++ wanted
  | .wrongValue found wanted => "invalid value: " ++ found ++ ", expected " ++ wanted
  | .wrongLength length wanted => s!"invalid length {length}, expected " ++ wanted

/-- A value as a diagnostic names it. -/
def Value.describe : Value → String
  | .null => "null"
  | .bool b => "boolean `" ++ (if b then "true" else "false") ++ "`"
  | .number (.float x) => "floating point `" ++ String.ofList (floatText x) ++ "`"
  | .number n => "integer `" ++ String.ofList n.text ++ "`"
  | .string s => "string " ++ Text.quote s
  | .array _ => "sequence"
  | .object _ => "map"

/-- A value where something else is wanted. -/
def SchemaError.ofValue (v : Value) (wanted : String) : SchemaError := .wrongType v.describe wanted

/-! ## Writing -/

namespace Record

/-- The field that holds the kind, as it is written. -/
def kindEntry (kind : NodeKind) : String × Value := (kindField, .string kind.name)

mutual

/-- A record as a JSON value. -/
def toValue : Record → Value
  | .number isInt isFloat int float base =>
    .object
      [("base", .ofInt base), ("float64", .ofFloat float), ("int64", .ofInt int),
       ("isfloat", .bool isFloat), ("isint", .bool isInt), kindEntry .number]
  | .duration text => .object [("duration", .string text), kindEntry .duration]
  | .bool value => .object [("bool", .bool value), kindEntry .bool]
  | .unary operator node =>
    .object [("node", toValue node), ("operator", .string operator), kindEntry .unary]
  | .binary operator left right =>
    .object
      [("left", toValue left), ("operator", .string operator), ("right", toValue right),
       kindEntry .binary]
  | .declaration left right =>
    .object [("left", toValue left), ("right", toValue right), kindEntry .declaration]
  | .typeDeclaration node type =>
    .object [("node", toValue node), ("type", toValue type), kindEntry .typeDeclaration]
  | .chain operator left right =>
    .object
      [("left", toValue left), ("operator", .string operator), ("right", toValue right),
       kindEntry .chain]
  | .identifier name => .object [("ident", .string name), kindEntry .identifier]
  | .reference name => .object [("reference", .string name), kindEntry .reference]
  | .string literal => .object [("literal", .string literal), kindEntry .string]
  | .list nodes => .object [("nodes", .array (toValues nodes)), kindEntry .list]
  | .regex pattern => .object [("regex", .string pattern), kindEntry .regex]
  | .star => .object [kindEntry .star]
  | .func name kind args =>
    .object
      [("args", .array (toValues args)), ("func", .string name), ("functionType", .string kind),
       kindEntry .func]
  | .lambda expression => .object [("expression", toValue expression), kindEntry .lambda]
  | .program nodes => .object [("nodes", .array (toValues nodes)), kindEntry .program]
  | .comment lines =>
    .object [("comments", .array (lines.map .string)), kindEntry .comment]
termination_by structural r => r

/-- Records as JSON values. -/
def toValues : List Record → List Value
  | [] => []
  | r :: rs => toValue r :: toValues rs
termination_by structural rs => rs

end

end Record

/-! ## Reading -/

/-- The type of a field. -/
inductive FieldType where
  | text | flag | int | float | node | nodes | texts
deriving DecidableEq, Repr

/-- The fields of a kind in the order of their declaration. -/
def schema : NodeKind → List (String × FieldType)
  | .number =>
    [("isint", .flag), ("isfloat", .flag), ("int64", .int), ("float64", .float), ("base", .int)]
  | .duration => [("duration", .text)]
  | .bool => [("bool", .flag)]
  | .unary => [("operator", .text), ("node", .node)]
  | .binary => [("operator", .text), ("left", .node), ("right", .node)]
  | .declaration => [("left", .node), ("right", .node)]
  | .typeDeclaration => [("node", .node), ("type", .node)]
  | .chain => [("operator", .text), ("left", .node), ("right", .node)]
  | .identifier => [("ident", .text)]
  | .reference => [("reference", .text)]
  | .string => [("literal", .text)]
  | .list => [("nodes", .nodes)]
  | .regex => [("regex", .text)]
  | .star => []
  | .func => [("func", .text), ("functionType", .text), ("args", .nodes)]
  | .lambda => [("expression", .node)]
  | .program => [("nodes", .nodes)]
  | .comment => [("comments", .texts)]

/-- The name of a kind in diagnostics on the length of an array. -/
def variantName : NodeKind → String
  | .number => "Number"
  | .duration => "Duration"
  | .bool => "Bool"
  | .unary => "Unary"
  | .binary => "Binary"
  | .declaration => "Declaration"
  | .typeDeclaration => "TypeDeclaration"
  | .chain => "Chain"
  | .identifier => "Identifier"
  | .reference => "Reference"
  | .string => "String"
  | .list => "List"
  | .regex => "Regex"
  | .star => "Star"
  | .func => "Func"
  | .lambda => "Lambda"
  | .program => "Program"
  | .comment => "Comment"

/-- A value in all the ways that a field may ask for it: as it is, as a record, and as a list of
records. -/
structure Reading where
  value : Value
  record : Except SchemaError Record
  records : Except SchemaError (List Record)

namespace Reading

/-- The value as a text. -/
def text (r : Reading) : Except SchemaError String :=
  match r.value with
  | .string s => .ok s
  | v => .error (.ofValue v "a string")

/-- The value as a truth value. -/
def flag (r : Reading) : Except SchemaError Bool :=
  match r.value with
  | .bool b => .ok b
  | v => .error (.ofValue v "a boolean")

/-- The value as a signed integer of 64 bits. -/
def int (r : Reading) : Except SchemaError Int64 :=
  match r.value with
  | .number (.nat n) =>
    if n.toNat < 0x8000000000000000 then .ok (Int64.ofNat n.toNat)
    else .error (.wrongValue r.value.describe "i64")
  | .number (.neg n) => .ok n
  | v => .error (.ofValue v "i64")

/-- The value as a binary64 number; a whole number is rounded. -/
def float (r : Reading) : Except SchemaError Binary64 :=
  match r.value with
  | .number (.nat n) => .ok (.ofNat n.toNat)
  | .number (.neg n) => .ok (Binary64.ofNat n.toInt.natAbs).neg
  | .number (.float x) => .ok x
  | v => .error (.ofValue v "f64")

/-- Values as texts. -/
def textItems : List Value → Except SchemaError (List String)
  | [] => .ok []
  | .string s :: vs => (textItems vs).map (s :: ·)
  | v :: _ => .error (.ofValue v "a string")

/-- The value as a list of texts. -/
def texts (r : Reading) : Except SchemaError (List String) :=
  match r.value with
  | .array items => textItems items
  | v => .error (.ofValue v "a sequence")

/-- The failure of a reading. -/
def errorOf {α : Type} : Except SchemaError α → Option SchemaError
  | .ok _ => none
  | .error e => some e

/-- What is wrong with the value as a field of some type. -/
def fault? (r : Reading) : FieldType → Option SchemaError
  | .text => errorOf r.text
  | .flag => errorOf r.flag
  | .int => errorOf r.int
  | .float => errorOf r.float
  | .node => errorOf r.record
  | .nodes => errorOf r.records
  | .texts => errorOf r.texts

end Reading

/-- Where the fields of a record come from: by their place in the declaration or by their name. -/
structure Supply where
  find? : Nat → String → Option Reading
  /-- What is reported for a field that is not there. -/
  absent : Nat → String → SchemaError

namespace Supply

/-- A field that must be there. -/
def need {α : Type} (s : Supply) (i : Nat) (name : String)
    (read : Reading → Except SchemaError α) : Except SchemaError α :=
  match s.find? i name with
  | some r => read r
  | none => .error (s.absent i name)

/-- A field with a value in case it is not there. -/
def needOr {α : Type} (s : Supply) (i : Nat) (name : String)
    (read : Reading → Except SchemaError α) (otherwise : α) : Except SchemaError α :=
  match s.find? i name with
  | some r => read r
  | none => .ok otherwise

/-- The record of a kind, its fields taken in the order of their declaration. -/
def build (s : Supply) : NodeKind → Except SchemaError Record
  | .number => do
    let isInt ← s.need 0 "isint" Reading.flag
    let isFloat ← s.need 1 "isfloat" Reading.flag
    let int ← s.needOr 2 "int64" Reading.int 0
    let float ← s.needOr 3 "float64" Reading.float (.zero false)
    let base ← s.needOr 4 "base" Reading.int 0
    return .number isInt isFloat int float base
  | .duration => do return .duration (← s.need 0 "duration" Reading.text)
  | .bool => do return .bool (← s.need 0 "bool" Reading.flag)
  | .unary => do
    let operator ← s.need 0 "operator" Reading.text
    return .unary operator (← s.need 1 "node" Reading.record)
  | .binary => do
    let operator ← s.need 0 "operator" Reading.text
    let left ← s.need 1 "left" Reading.record
    return .binary operator left (← s.need 2 "right" Reading.record)
  | .declaration => do
    let left ← s.need 0 "left" Reading.record
    return .declaration left (← s.need 1 "right" Reading.record)
  | .typeDeclaration => do
    let node ← s.need 0 "node" Reading.record
    return .typeDeclaration node (← s.need 1 "type" Reading.record)
  | .chain => do
    let operator ← s.need 0 "operator" Reading.text
    let left ← s.need 1 "left" Reading.record
    return .chain operator left (← s.need 2 "right" Reading.record)
  | .identifier => do return .identifier (← s.need 0 "ident" Reading.text)
  | .reference => do return .reference (← s.need 0 "reference" Reading.text)
  | .string => do return .string (← s.need 0 "literal" Reading.text)
  | .list => do return .list (← s.need 0 "nodes" Reading.records)
  | .regex => do return .regex (← s.need 0 "regex" Reading.text)
  | .star => return .star
  | .func => do
    let name ← s.need 0 "func" Reading.text
    let kind ← s.need 1 "functionType" Reading.text
    return .func name kind (← s.need 2 "args" Reading.records)
  | .lambda => do return .lambda (← s.need 0 "expression" Reading.record)
  | .program => do return .program (← s.need 0 "nodes" Reading.records)
  | .comment => do return .comment (← s.need 0 "comments" Reading.texts)

/-- Fields by name. -/
def ofFields (fields : List (String × Reading)) : Supply where
  find? _ name := fields.lookup name
  absent _ name := .missing name

/-- A number of elements in words. -/
def elements (n : Nat) : String := s!"{n} element" ++ (if n = 1 then "" else "s")

/-- Fields by place, for a record of some kind. -/
def ofItems (kind : NodeKind) (items : List Reading) : Supply where
  find? i _ := items[i]?
  absent i _ :=
    .wrongLength i
      ("struct variant JsonNode::" ++ variantName kind ++ " with " ++
        elements (schema kind).length)

end Supply

namespace Record

/-- The kind that a value names. A kind may be given by its number where `indexed` says so. -/
def kindOf (indexed : Bool) (v : Value) : Except SchemaError NodeKind :=
  match v with
  | .string name =>
    match NodeKind.ofName? name with
    | some kind => .ok kind
    | none => .error (.unknownKind name)
  | .number (.nat n) =>
    if indexed then
      match NodeKind.all[n.toNat]? with
      | some kind => .ok kind
      | none =>
        .error (.wrongValue v.describe s!"variant index 0 <= i < {NodeKind.all.length}")
    else .error (.ofValue v "variant identifier")
  | v => .error (.ofValue v "variant identifier")

/-- The first field, in the order given, that is wrong for the kind. -/
def firstFault? (kind : NodeKind) (fields : List (String × Reading)) : Option SchemaError :=
  fields.findSome? fun (name, r) =>
    match (schema kind).lookup name with
    | some type => r.fault? type
    | none => none

/-- The record that the fields of an object make. -/
def ofFields (indexed : Bool) (fields : List (String × Reading)) : Except SchemaError Record :=
  match fields.lookup kindField with
  | none => .error (.missing kindField)
  | some r =>
    match kindOf indexed r.value with
    | .error e => .error e
    | .ok kind =>
      let rest := fields.filter fun field => field.1 != kindField
      match firstFault? kind rest with
      | some e => .error e
      | none => (Supply.ofFields rest).build kind

/-- The record that the items of an array make. -/
def ofItems (indexed : Bool) (items : List Reading) : Except SchemaError Record :=
  match items with
  | [] => .error (.missing kindField)
  | r :: rest =>
    match kindOf indexed r.value with
    | .error e => .error e
    | .ok kind =>
      match (Supply.ofItems kind rest).build kind with
      | .error e => .error e
      | .ok record =>
        let count := (schema kind).length
        if count < rest.length then
          .error (.wrongLength rest.length (Supply.elements count ++ " in sequence"))
        else .ok record

/-- The failure of a value that is neither an object nor an array. -/
def notARecord (v : Value) : SchemaError := .ofValue v "internally tagged enum JsonNode"

/-- Records one by one. -/
def collect : List Reading → Except SchemaError (List Record)
  | [] => .ok []
  | r :: rs =>
    match r.record with
    | .ok record => (collect rs).map (record :: ·)
    | .error e => .error e

mutual

/-- A value in all the ways that a field may ask for it. -/
def reading : Value → Reading
  | .array items =>
    let rs := readings items
    ⟨.array items, ofItems true rs, collect rs⟩
  | .object fields =>
    ⟨.object fields, ofFields true (fieldReadings fields),
      .error (.ofValue (.object fields) "a sequence")⟩
  | .null => ⟨.null, .error (notARecord .null), .error (.ofValue .null "a sequence")⟩
  | .bool b =>
    ⟨.bool b, .error (notARecord (.bool b)), .error (.ofValue (.bool b) "a sequence")⟩
  | .number n =>
    ⟨.number n, .error (notARecord (.number n)), .error (.ofValue (.number n) "a sequence")⟩
  | .string s =>
    ⟨.string s, .error (notARecord (.string s)), .error (.ofValue (.string s) "a sequence")⟩
termination_by structural v => v

/-- Items in all the ways that they may be asked for. -/
def readings : List Value → List Reading
  | [] => []
  | v :: vs => reading v :: readings vs
termination_by structural vs => vs

/-- Fields in all the ways that they may be asked for. -/
def fieldReadings : List (String × Value) → List (String × Reading)
  | [] => []
  | (name, v) :: fields => (name, reading v) :: fieldReadings fields
termination_by structural fs => fs

end

/-- The record that a whole value makes. Its own kind must be given by name. -/
def ofValue : Value → Except SchemaError Record
  | .array items => ofItems false (readings items)
  | .object fields => ofFields false (fieldReadings fields)
  | v => .error (notARecord v)

end Record

end PipelineScript.Json

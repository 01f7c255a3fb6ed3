import PipelineScript.Node
import PipelineScript.Text.Bytes
import PipelineScript.Text.Escape

/-!
Nodes from the text of literals.

A number with a point is a binary64 value; another number that begins with a zero is octal. A
string in triple quotes stands for its text as it is; in a string in single quotes, in a reference
and in a regex a backslash before the closing mark is dropped.
-/
namespace PipelineScript

/-- Why a node cannot be built. -/
inductive NodeError where
  | number (text : String)
  /-- The message is that of the pattern engine. -/
  | regex (pattern message : String)
  | duration (error : DurationError)
  /-- A chain would end in a node that is neither a call nor a name. -/
  | chainStep (found : NodeKind)
deriving DecidableEq, Repr

/-- The wording of the failure. -/
def NodeError.message : NodeError → String
  | .number text => "illegal number syntax: " ++ Text.quote text
  | .regex pattern message => "invalid regex " ++ Text.quote pattern ++ ": " ++ message
  | .duration error => error.message
  | .chainStep found => "chain step must be a function or identifier, got " ++ found.name

/-- An integer that fits into 64 bits with sign. -/
def int64OfInt? (n : Int) : Option Int64 :=
  if -0x8000000000000000 ≤ n ∧ n < 0x8000000000000000 then some (Int64.ofInt n) else none

/-- The number that a text spells. -/
def Number.ofText? (text : List Char) : Option Number :=
  if text.contains '.' then
    (Decimal.read? text).map fun (negative, d) => .float (Binary64.ofDecimal negative d)
  else
    let octal := text.head? = some '0' ∧ 1 < text.length
    let base := if octal then Node.octalBase else Node.decimalBase
    match readInt? base.toNat text with
    | some n => (int64OfInt? n).map fun value => .int value base
    | none => none

/-- The number that a text spells, or the failure. -/
def Number.ofText (text : String) : Except NodeError Number :=
  match Number.ofText? text.toList with
  | some n => .ok n
  | none => .error (.number text)

namespace Node

/-- The text between the quotes of a string, and whether the quotes are triple. There is none if
the text opens with triple quotes and does not end three bytes before its last character ends. -/
def stringBody? (text : List Char) : Option (List Char × Bool) :=
  if 6 ≤ Text.size text ∧ ['\'', '\'', '\''].isPrefixOf text then
    (Text.takeBytes? (text.drop 3) (Text.size text - 6)).map fun body => (body, true)
  else some (Text.unescapeMark '\'' (Text.dropEnds text), false)

variable [PatternEngine]

/-- A string from its text with quotes. -/
def stringOfText? (info : Info) (text : String) : Option Node :=
  (stringBody? text.toList).map fun (body, triple) => .string info (String.ofList body) triple

/-- A reference from its text with quotes. -/
def referenceOfText (info : Info) (text : String) : Node :=
  .reference info (String.ofList (Text.unescapeMark '"' (Text.dropEnds text.toList)))

/-- A regex from the text between its slashes. -/
def regexOfLiteral (info : Info) (literal : String) : Except NodeError Node :=
  let text := String.ofList (Text.unescapeMark '/' literal.toList)
  match Pattern.ofText text with
  | .ok pattern => .ok (.regex info pattern literal)
  | .error message => .error (.regex text message)

/-- A regex from its text with slashes. -/
def regexOfText (info : Info) (text : String) : Except NodeError Node :=
  regexOfLiteral info (String.ofList (Text.dropEnds text.toList))

/-- A regex that matches a pattern; its literal has every slash escaped. -/
def ofPattern (pattern : String) : Except NodeError Node :=
  regexOfLiteral .built (String.ofList (Text.escapeMark '/' pattern.toList))

/-- A duration from its text. -/
def durationOfText (info : Info) (text : String) : Except NodeError Node :=
  match Duration.parse text with
  | .ok span => .ok (.duration info span text)
  | .error e => .error (.duration e)

/-- A node that can be a step of a chain. -/
def isStep : Node → Bool
  | .func .. => true
  | .identifier .. => true
  | _ => false

/-- A chain that ends in a call or a name. -/
def ofChain (op : ChainOp) (left right : Node) : Except NodeError Node :=
  if right.isStep then .ok (.chain .built op left right) else .error (.chainStep right.kind)

section

variable {info : Info} {text literal pattern : String} {n : Node}

theorem durationOfText_eq_ok_iff :
    durationOfText info text = .ok n ↔
      ∃ span, Duration.parse text = .ok span ∧ n = .duration info span text := by
  rw [durationOfText]
  cases Duration.parse text <;> simp [eq_comm]

theorem regexOfLiteral_eq_ok_iff :
    regexOfLiteral info literal = .ok n ↔
      ∃ p, Pattern.ofText (String.ofList (Text.unescapeMark '/' literal.toList)) = .ok p ∧
        n = .regex info p literal := by
  simp only [regexOfLiteral]
  cases Pattern.ofText (String.ofList (Text.unescapeMark '/' literal.toList)) <;> simp [eq_comm]

theorem regexOfText_eq_ok_iff :
    regexOfText info text = .ok n ↔
      ∃ p, Pattern.ofText
          (String.ofList (Text.unescapeMark '/' (Text.dropEnds text.toList))) = .ok p ∧
        n = .regex info p (String.ofList (Text.dropEnds text.toList)) := by
  rw [regexOfText, regexOfLiteral_eq_ok_iff, String.toList_ofList]

/-- The literal that is made of a pattern is read as that pattern. -/
theorem ofPattern_eq_ok_iff :
    ofPattern pattern = .ok n ↔
      ∃ p : Pattern, p.text = pattern ∧
        n = .regex .built p (String.ofList (Text.escapeMark '/' pattern.toList)) := by
  rw [ofPattern, regexOfLiteral_eq_ok_iff, String.toList_ofList,
    Text.unescapeMark_escapeMark _ (by decide), String.ofList_toList]
  simp only [Pattern.ofText_eq_ok_iff]

end

end Node

end PipelineScript

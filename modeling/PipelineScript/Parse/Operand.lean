import PipelineScript.Parse.Parser

/-!
Operands and operations.

An operand is a literal, a name, a call, a unary operator with its operand, or an operation in
parentheses. An operation joins operands by binary operators: an operator that binds more tightly
than the one before it takes the operand between them, and operators of one strength associate to
the left.

The functions call each other, and `fuel` bounds how deep.
-/
namespace PipelineScript.Parser

variable [PatternEngine] {σ : Type} [TokenReader σ]

/-- The kinds of token that a diagnostic offers where an operand is missing. -/
def operandKinds : List TokenKind :=
  [.number, .string, .duration, .ident, .bool true, .bool false, .binary .equal, .lparen,
   .binary .subtract, .not]

/-- The operator that comes next, if it binds at least as tightly as `least`. -/
def peekOperator (least : Nat) : ParserOn σ (Option BinaryOp) := do
  let token ← peek
  return token.kind.binaryOp?.filter fun op => decide (least ≤ op.precedence)

mutual

/-- An operand. -/
def operand (fuel : Nat) : ParserOn σ Node :=
  match fuel with
  | 0 => throw .exhausted
  | fuel + 1 => do
    let token ← peek
    match token.kind with
    | .lparen =>
      let _ ← next
      let comment ← takeComment
      let node ← operation fuel
      let _ ← expect .rparen
      return node.parenthesize.setComment comment
    | .number =>
      let token ← expect .number
      let info ← infoOf token
      return .number info (← literal token (Number.ofText token.text))
    | .string => string
    | .bool value =>
      let token ← next
      return .bool (← infoOf token) value
    | .duration =>
      let token ← expect .duration
      let info ← infoOf token
      literal token (Node.durationOfText info token.text)
    | .regex =>
      let token ← expect .regex
      let info ← infoOf token
      literal token (Node.regexOfText info token.text)
    | .star => star
    | .reference =>
      let token ← expect .reference
      return Node.referenceOfText (← infoOf token) token.text
    | .ident =>
      if ← isCall then
        let name ← expect .ident
        let _ ← expect .lparen
        let args ← operationList fuel
        let _ ← expect .rparen
        call name .global none args
      else
        return .identifier (← identifier)
    | .binary .subtract =>
      let _ ← next
      let inner ← operand fuel
      return .unary (← infoOf token) .negate inner
    | .not =>
      let _ ← next
      let inner ← operand fuel
      return .unary (← infoOf token) .not inner
    | _ => unexpected token operandKinds
termination_by structural fuel

/-- An operand and the operators behind it. -/
def operation (fuel : Nat) : ParserOn σ Node :=
  match fuel with
  | 0 => throw .exhausted
  | fuel + 1 => do
    let first ← operand fuel
    climb fuel first 0
termination_by structural fuel

/-- Joins what stands behind `left` to it, as long as operators come that bind at least as tightly
as `least`. -/
def climb (fuel : Nat) (left : Node) (least : Nat) : ParserOn σ Node :=
  match fuel with
  | 0 => throw .exhausted
  | fuel + 1 => do
    match ← peekOperator least with
    | none => return left
    | some op =>
      let token ← next
      let comment ← takeComment
      let right ← operand fuel
      let right ← climbRight fuel op right
      let broken ← breaksBetween left.position.offset right.position.offset
      let info : Info := ⟨← locate token.offset, comment⟩
      climb fuel (.binary info op left right false broken) least
termination_by structural fuel

/-- Joins what stands behind the right operand of `op` to it, as long as operators come that bind
more tightly. -/
def climbRight (fuel : Nat) (op : BinaryOp) (right : Node) : ParserOn σ Node :=
  match fuel with
  | 0 => throw .exhausted
  | fuel + 1 => do
    match ← peekOperator (op.precedence + 1) with
    | none => return right
    | some tighter =>
      let right ← climb fuel right tighter.precedence
      climbRight fuel op right
termination_by structural fuel

/-- Operations separated by commas, up to a closing parenthesis; a comma may stand behind the
last one. -/
def operationList (fuel : Nat) : ParserOn σ (List Node) :=
  match fuel with
  | 0 => throw .exhausted
  | fuel + 1 => do
    if (← peek).kind = .rparen then return []
    let arg ← operation fuel
    if (← next).kind = .comma then
      return arg :: (← operationList fuel)
    else
      backup
      return [arg]
termination_by structural fuel

end

end PipelineScript.Parser

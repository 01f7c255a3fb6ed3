import PipelineScript.Parse.Operand

/-!
Expressions: operations, lambdas, lists and chains.

A chain begins with a name or a call and goes on with steps. Each step wraps everything before it,
so chains nest on the left. `fuel` bounds how deep the functions call each other.
-/
namespace PipelineScript.Parser

variable [PatternEngine] {σ : Type} [TokenReader σ]

/-- The kinds of token that a diagnostic offers where an item of a list is missing. -/
def itemKinds : List TokenKind := [.ident, .string, .star]

/-- An item of a list. -/
def item : ParserOn σ Node := do
  let token ← peek
  match token.kind with
  | .ident => return .identifier (← identifier)
  | .string => string
  | .star => star
  | _ => unexpected token itemKinds

/-- Items separated by commas, up to a closing bracket; a comma may stand behind the last one. -/
def itemList (fuel : Nat) : ParserOn σ (List Node) :=
  match fuel with
  | 0 => throw .exhausted
  | fuel + 1 => do
    if (← peek).kind = .rbracket then return []
    let first ← item
    if (← next).kind = .comma then
      return first :: (← itemList fuel)
    else
      backup
      return [first]

/-- A list in brackets. -/
def list (fuel : Nat) : ParserOn σ Node := do
  let token ← expect .lbracket
  let info ← infoOf token
  let items ← itemList fuel
  let _ ← expect .rbracket
  return .list info items

/-- A lambda. -/
def lambda (fuel : Nat) : ParserOn σ Node := do
  let token ← next
  let info ← infoOf token
  return .lambda info (← operation fuel)

/-- Whether a chain goes on behind a first name or call. The words that open a statement do not
continue it, but they end it as a chain would. -/
def continuesChain : TokenKind → Bool
  | .chain _ => true
  | .var => true
  | .ident => true
  | _ => false

mutual

/-- An expression. -/
def expression (fuel : Nat) : ParserOn σ Node :=
  match fuel with
  | 0 => throw .exhausted
  | fuel + 1 => do
    let token ← peek
    match token.kind with
    | .ident =>
      let _ ← next
      let behind ← peek
      backup
      if behind.kind = .lparen then
        let first ← function fuel .global
        if continuesChain (← peek).kind then chain fuel first else climb fuel first 0
      else if continuesChain behind.kind then
        let first ← identifier
        chain fuel (.identifier first)
      else operation fuel
    | .lambda => lambda fuel
    | .lbracket => list fuel
    | _ => operation fuel
termination_by structural fuel

/-- The steps behind the beginning of a chain. -/
def chain (fuel : Nat) (left : Node) : ParserOn σ Node :=
  match fuel with
  | 0 => throw .exhausted
  | fuel + 1 => do
    match (← peek).kind with
    | .chain op =>
      let token ← next
      let comment ← takeComment
      let right ← step fuel op
      let info : Info := ⟨← locate token.offset, comment⟩
      chain fuel (.chain info op left right)
    | _ => return left
termination_by structural fuel

/-- A step behind a chain operator: a call, or a name where the operator allows one. -/
def step (fuel : Nat) (op : ChainOp) : ParserOn σ Node :=
  match fuel with
  | 0 => throw .exhausted
  | fuel + 1 => do
    let _ ← next
    let called ← if op = .pipe then pure true else do pure ((← peek).kind == .lparen)
    backup
    if called then function fuel (CallKind.ofChain op)
    else return .identifier (← identifier)
termination_by structural fuel

/-- A call. -/
def function (fuel : Nat) (kind : CallKind) : ParserOn σ Node :=
  match fuel with
  | 0 => throw .exhausted
  | fuel + 1 => do
    let name ← expect .ident
    let comment ← takeComment
    let _ ← expect .lparen
    let args ← expressionList fuel
    let _ ← expect .rparen
    call name kind comment args
termination_by structural fuel

/-- Expressions separated by commas, up to a closing parenthesis; a comma may stand behind the
last one. -/
def expressionList (fuel : Nat) : ParserOn σ (List Node) :=
  match fuel with
  | 0 => throw .exhausted
  | fuel + 1 => do
    if (← peek).kind = .rparen then return []
    let arg ← expression fuel
    if (← next).kind = .comma then
      return arg :: (← expressionList fuel)
    else
      backup
      return [arg]
termination_by structural fuel

end

end PipelineScript.Parser

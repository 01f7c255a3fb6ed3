import PipelineScript.Text.Quoted

/-!
Operators and their spellings.

Binary operators carry a binding strength, unary operators stand before their operand, and chain
operators join the steps of a pipeline. Every family has one spelling per operator, and reading a
spelling is the inverse of writing it.
-/
namespace PipelineScript

/-- A spelling that names no operator of the family asked for. -/
structure UnknownOperator where
  spelling : String
deriving DecidableEq, Repr

/-- The wording of the failure. -/
def UnknownOperator.message (e : UnknownOperator) : String :=
  "unknown operator " ++ Text.quote e.spelling

/-- An operator between two operands. -/
inductive BinaryOp where
  | equal | notEqual | less | greater | lessEqual | greaterEqual | regexEqual | regexNotEqual
  | add | subtract | multiply | divide | modulo
  | and | or
deriving DecidableEq, Repr, Inhabited

namespace BinaryOp

/-- All binary operators. -/
def all : List BinaryOp :=
  [.equal, .notEqual, .less, .greater, .lessEqual, .greaterEqual, .regexEqual, .regexNotEqual,
   .add, .subtract, .multiply, .divide, .modulo, .and, .or]

/-- Binding strength: a higher number binds its operands more tightly. -/
def precedence : BinaryOp → Nat
  | .or => 0
  | .and => 1
  | .equal | .notEqual | .regexEqual | .regexNotEqual => 2
  | .less | .greater | .lessEqual | .greaterEqual => 3
  | .add | .subtract => 4
  | .multiply | .divide | .modulo => 5

/-- The operator as a script writes it. -/
def spelling : BinaryOp → String
  | .equal => "=="
  | .notEqual => "!="
  | .less => "<"
  | .greater => ">"
  | .lessEqual => "<="
  | .greaterEqual => ">="
  | .regexEqual => "=~"
  | .regexNotEqual => "!~"
  | .add => "+"
  | .subtract => "-"
  | .multiply => "*"
  | .divide => "/"
  | .modulo => "%"
  | .and => "AND"
  | .or => "OR"

/-- The operator with a given spelling. -/
def ofSpelling? (s : String) : Option BinaryOp :=
  all.find? fun op => op.spelling == s

/-- Arithmetic: `+ - * / %`. -/
def isMath : BinaryOp → Bool
  | .add | .subtract | .multiply | .divide | .modulo => true
  | _ => false

/-- Logic: `AND OR`. -/
def isLogical : BinaryOp → Bool
  | .and | .or => true
  | _ => false

/-- Comparison: everything that is neither arithmetic nor logic. -/
def isComparison (op : BinaryOp) : Bool := !op.isMath && !op.isLogical

/-- Reads an operator, naming the spelling that is none. -/
def read (s : String) : Except UnknownOperator BinaryOp :=
  match ofSpelling? s with
  | some op => .ok op
  | none => .error ⟨s⟩

@[simp] theorem ofSpelling?_spelling (op : BinaryOp) : ofSpelling? op.spelling = some op := by
  cases op <;> rfl

@[simp] theorem read_spelling (op : BinaryOp) : read op.spelling = .ok op := by
  simp [read]

end BinaryOp

/-- An operator before its operand. -/
inductive UnaryOp where
  | negate | not
deriving DecidableEq, Repr, Inhabited

namespace UnaryOp

/-- The operator as a script writes it. -/
def spelling : UnaryOp → String
  | .negate => "-"
  | .not => "!"

/-- Reads an operator, naming the spelling that is none. -/
def read (s : String) : Except UnknownOperator UnaryOp :=
  if s == "-" then .ok .negate
  else if s == "!" then .ok .not
  else .error ⟨s⟩

@[simp] theorem read_spelling (op : UnaryOp) : read op.spelling = .ok op := by
  cases op <;> rfl

end UnaryOp

/-- An operator that joins a step to a pipeline. -/
inductive ChainOp where
  /-- `.` sets a property of the step before it. -/
  | dot
  /-- `|` adds a step. -/
  | pipe
  /-- `@` adds a step that the user defined. -/
  | dynamic
deriving DecidableEq, Repr, Inhabited

namespace ChainOp

/-- The operator as a script writes it. -/
def spelling : ChainOp → String
  | .dot => "."
  | .pipe => "|"
  | .dynamic => "@"

/-- Reads an operator, naming the spelling that is none. -/
def read (s : String) : Except UnknownOperator ChainOp :=
  if s == "." then .ok .dot
  else if s == "|" then .ok .pipe
  else if s == "@" then .ok .dynamic
  else .error ⟨s⟩

@[simp] theorem read_spelling (op : ChainOp) : read op.spelling = .ok op := by
  cases op <;> rfl

end ChainOp

/-- How a function is called. -/
inductive CallKind where
  /-- On its own. -/
  | global
  /-- After `|`. -/
  | chain
  /-- After `.`. -/
  | property
  /-- After `@`. -/
  | dynamic
deriving DecidableEq, Repr, Inhabited

namespace CallKind

/-- The name of the kind. -/
def name : CallKind → String
  | .global => "global"
  | .chain => "chain"
  | .property => "property"
  | .dynamic => "dynamic"

/-- The kind of call that a chain operator introduces. -/
def ofChain : ChainOp → CallKind
  | .dot => .property
  | .pipe => .chain
  | .dynamic => .dynamic

/-- Reads the name of a kind; a name that is none counts as an unknown operator. -/
def read (s : String) : Except UnknownOperator CallKind :=
  if s == "global" then .ok .global
  else if s == "chain" then .ok .chain
  else if s == "property" then .ok .property
  else if s == "dynamic" then .ok .dynamic
  else .error ⟨s⟩

@[simp] theorem read_name (kind : CallKind) : read kind.name = .ok kind := by
  cases kind <;> rfl

end CallKind

end PipelineScript

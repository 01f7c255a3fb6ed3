import PipelineScript.Node

/-!
Walking a tree and replacing its nodes.

A visitor sees each node before its children and gives the node that stands in its place; the walk
then goes on with the children of that node. A visitor may keep a state and may stop the walk. The
names of a declaration must stay names.

A replacement can hold new nodes to visit, so a walk need not end; `fuel` bounds its depth.
-/
namespace PipelineScript

variable [PatternEngine]

/-- Which name of a declaration a walk replaced by something else. -/
inductive NameRole where
  | name
  | type
deriving DecidableEq, Repr

/-- The wording for a role. -/
def NameRole.describe : NameRole → String
  | .name => "declaration name"
  | .type => "declaration type"

/-- Why a walk stops. -/
inductive WalkError (ε : Type) where
  /-- The visitor stopped it. -/
  | stopped (error : ε)
  /-- A name of a declaration was replaced by another kind of node. -/
  | notAName (role : NameRole) (found : NodeKind)
  /-- The bound on the depth was reached. -/
  | exhausted
deriving DecidableEq, Repr

/-- The wording for a name that is none any more. -/
def notANameMessage (role : NameRole) (found : NodeKind) : String :=
  role.describe ++ " must remain an identifier, got " ++ found.name

/-- What is done at each node. -/
abbrev Visitor (σ ε : Type) := Node → EStateM ε σ Node

namespace Node

/-- Asks the visitor. -/
def visit {σ ε : Type} (visitor : Visitor σ ε) (n : Node) : EStateM (WalkError ε) σ Node :=
  fun s =>
    match visitor n s with
    | .ok n s => .ok n s
    | .error e s => .error (.stopped e) s

/-- Does something to each node of a list, in order. -/
def eachNode {σ ε : Type} (f : Node → EStateM ε σ Node) : List Node → EStateM ε σ (List Node)
  | [] => pure []
  | n :: ns => do
    let n ← f n
    return n :: (← eachNode f ns)

/-- Does something to a name, which must stay a name. -/
def eachName {σ ε : Type} (role : NameRole) (f : Node → EStateM (WalkError ε) σ Node)
    (ident : Identifier) : EStateM (WalkError ε) σ Identifier := do
  match ← f (.identifier ident) with
  | .identifier ident => return ident
  | n => throw (.notAName role n.kind)

/-- Walks a tree of at most `fuel` levels. -/
def walk {σ ε : Type} (visitor : Visitor σ ε) : Nat → Node → EStateM (WalkError ε) σ Node
  | 0, _ => throw .exhausted
  | fuel + 1, n => do
    match ← visit visitor n with
    | .program position statements =>
      return .program position (← eachNode (walk visitor fuel) statements)
    | .declaration info name value =>
      let name ← eachName .name (walk visitor fuel) name
      return .declaration info name (← walk visitor fuel value)
    | .typeDeclaration info name type =>
      let name ← eachName .name (walk visitor fuel) name
      return .typeDeclaration info name (← eachName .type (walk visitor fuel) type)
    | .chain info op left right =>
      let left ← walk visitor fuel left
      return .chain info op left (← walk visitor fuel right)
    | .func info kind name args broken =>
      return .func info kind name (← eachNode (walk visitor fuel) args) broken
    | .lambda info body => return .lambda info (← walk visitor fuel body)
    | .binary info op left right parenthesized broken =>
      let left ← walk visitor fuel left
      return .binary info op left (← walk visitor fuel right) parenthesized broken
    | .unary info op operand => return .unary info op (← walk visitor fuel operand)
    | .list info items => return .list info (← eachNode (walk visitor fuel) items)
    | leaf => return leaf

end Node

end PipelineScript

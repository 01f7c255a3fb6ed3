import PipelineScript.Node

/-!
The nodes of a tree in order, and the names among them.

A node comes before its children, and the children in the order of the script: the name of a
declaration before its value or type, the left side of an operation or chain before the right.
Inspecting a tree shows its nodes in this order to a visitor, which may keep a state but gives no
other nodes. Names are collected by such visitors.
-/
namespace PipelineScript.Node

variable [PatternEngine]

mutual

/-- The nodes of a tree, each before its children. -/
def preorder : Node → List Node
  | .program position statements => .program position statements :: preorderAll statements
  | .declaration info name value =>
    .declaration info name value :: .identifier name :: preorder value
  | .typeDeclaration info name type =>
    [.typeDeclaration info name type, .identifier name, .identifier type]
  | .chain info op left right => .chain info op left right :: (preorder left ++ preorder right)
  | .func info kind name args broken => .func info kind name args broken :: preorderAll args
  | .lambda info body => .lambda info body :: preorder body
  | .binary info op left right parenthesized broken =>
    .binary info op left right parenthesized broken :: (preorder left ++ preorder right)
  | .unary info op operand => .unary info op operand :: preorder operand
  | .list info items => .list info items :: preorderAll items
  | .number info value => [.number info value]
  | .duration info span literal => [.duration info span literal]
  | .bool info value => [.bool info value]
  | .string info literal triple => [.string info literal triple]
  | .regex info pattern literal => [.regex info pattern literal]
  | .reference info name => [.reference info name]
  | .star info => [.star info]
  | .identifier ident => [.identifier ident]
  | .comment block => [.comment block]
termination_by structural n => n

/-- The nodes of several trees, one tree after the other. -/
def preorderAll : List Node → List Node
  | [] => []
  | n :: ns => preorder n ++ preorderAll ns
termination_by structural ns => ns

end

mutual

/-- Shows the nodes of a tree to a visitor, each before its children. -/
def inspect {σ : Type} (visit : Node → StateM σ PUnit) : Node → StateM σ PUnit
  | .program position statements => do
    visit (.program position statements)
    inspectAll visit statements
  | .declaration info name value => do
    visit (.declaration info name value)
    visit (.identifier name)
    inspect visit value
  | .typeDeclaration info name type => do
    visit (.typeDeclaration info name type)
    visit (.identifier name)
    visit (.identifier type)
  | .chain info op left right => do
    visit (.chain info op left right)
    inspect visit left
    inspect visit right
  | .func info kind name args broken => do
    visit (.func info kind name args broken)
    inspectAll visit args
  | .lambda info body => do
    visit (.lambda info body)
    inspect visit body
  | .binary info op left right parenthesized broken => do
    visit (.binary info op left right parenthesized broken)
    inspect visit left
    inspect visit right
  | .unary info op operand => do
    visit (.unary info op operand)
    inspect visit operand
  | .list info items => do
    visit (.list info items)
    inspectAll visit items
  | leaf => visit leaf
termination_by structural n => n

/-- Shows the nodes of several trees to one visitor, one tree after the other. -/
def inspectAll {σ : Type} (visit : Node → StateM σ PUnit) : List Node → StateM σ PUnit
  | [] => pure ⟨⟩
  | n :: ns => do
    inspect visit n
    inspectAll visit ns
termination_by structural ns => ns

end

/-! ## Names -/

/-- Puts the name of a node, if it has one, behind the names so far, unless it is one of them. -/
def noteName (nameOf : Node → Option String) (n : Node) : StateM (List String) PUnit :=
  modify fun names =>
    match nameOf n with
    | some name => if names.contains name then names else names ++ [name]
    | none => names

/-- The names that are met in some trees, each once. -/
def collectNames (nameOf : Node → Option String) (nodes : List Node) : List String :=
  ((inspectAll (noteName nameOf) nodes).run []).2

/-- The name of a reference. -/
def referenceName? : Node → Option String
  | .reference _ name => some name
  | _ => none

/-- The name of a called function. -/
def callName? : Node → Option String
  | .func _ _ name _ _ => some name
  | _ => none

/-- The names of the references in some trees, each once, in the order of their first mention. -/
def references : List Node → List String := collectNames referenceName?

/-- The names of the functions called in some trees, each once, in the order of their first
mention. -/
def calls : List Node → List String := collectNames callName?

end PipelineScript.Node

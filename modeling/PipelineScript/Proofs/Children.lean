import Mathlib.Data.List.Forall2
import PipelineScript.Node.Preorder
import PipelineScript.Node.Walk

/-!
The children of a node.

Nine kinds of node have children. Here a node is its shell, which is all that it holds besides its
children, and the list of its children in the order of the script, so that what goes through a tree
is said once for all kinds: the nodes of a tree are the node and then the nodes of its children
(`preorder_eq`), and a walk asks about the node and then walks the children of the answer
(`walk_succ`).
-/
namespace PipelineScript.Node

variable {engine : PatternEngine}

/-- A child of a node, with its role when it is a name of a declaration. -/
structure Child [PatternEngine] where
  role? : Option NameRole
  node : Node

/-- A child that may be any node. -/
def Child.any (n : Node) : Child := ⟨none, n⟩

/-- A child that is a name of a declaration. -/
def Child.named (role : NameRole) (ident : Identifier) : Child := ⟨some role, .identifier ident⟩

/-- The children of a node, in the order of the script. -/
def children : Node → List Child
  | .program _ statements => statements.map .any
  | .declaration _ name value => [.named .name name, .any value]
  | .typeDeclaration _ name type => [.named .name name, .named .type type]
  | .chain _ _ left right => [.any left, .any right]
  | .func _ _ _ args _ => args.map .any
  | .lambda _ body => [.any body]
  | .binary _ _ left right _ _ => [.any left, .any right]
  | .unary _ _ operand => [.any operand]
  | .list _ items => items.map .any
  | _ => []

/-- The same node with other children. -/
def withChildren : Node → List Node → Node
  | .program position _, ns => .program position ns
  | .declaration info _ _, [.identifier name, value] => .declaration info name value
  | .typeDeclaration info _ _, [.identifier name, .identifier type] =>
    .typeDeclaration info name type
  | .chain info op _ _, [left, right] => .chain info op left right
  | .func info kind name _ broken, ns => .func info kind name ns broken
  | .lambda info _, [body] => .lambda info body
  | .binary info op _ _ parenthesized broken, [left, right] =>
    .binary info op left right parenthesized broken
  | .unary info op _, [operand] => .unary info op operand
  | .list info _, ns => .list info ns
  | n, _ => n

/-- What a node holds besides its children: stars and empty names stand in their places. -/
def shell : Node → Node
  | .program position _ => .program position []
  | .declaration info _ _ => .declaration info (.ofName "") .ofStar
  | .typeDeclaration info _ _ => .typeDeclaration info (.ofName "") (.ofName "")
  | .chain info op _ _ => .chain info op .ofStar .ofStar
  | .func info kind name _ broken => .func info kind name [] broken
  | .lambda info _ => .lambda info .ofStar
  | .binary info op _ _ parenthesized broken =>
    .binary info op .ofStar .ofStar parenthesized broken
  | .unary info op _ => .unary info op .ofStar
  | .list info _ => .list info []
  | leaf => leaf

@[simp] theorem kind_shell (n : Node) : n.shell.kind = n.kind := by cases n <;> rfl

theorem kind_eq_of_shell {m n : Node} (h : m.shell = n.shell) : m.kind = n.kind := by
  rw [← kind_shell m, h, kind_shell]

@[simp] theorem Child.node_any (n : Node) : (Child.any n).node = n := rfl

@[simp] theorem Child.node_named (role : NameRole) (ident : Identifier) :
    (Child.named role ident).node = .identifier ident := rfl

@[simp] theorem map_node_any (ns : List Node) : (ns.map Child.any).map Child.node = ns := by
  rw [List.map_map]
  exact List.map_id ns

/-- A node that gets its own children stays as it is. -/
theorem withChildren_children (n : Node) : n.withChildren (n.children.map Child.node) = n := by
  cases n with
  | program | func | list => simp only [children, withChildren, map_node_any]
  | _ => rfl

/-! ## Children of the right kind -/

/-- A node that can take the place of a child: a name of a declaration stays a name. -/
def Child.Admits : Child → Node → Prop
  | ⟨some _, _⟩, n => ∃ ident, n = .identifier ident
  | ⟨none, _⟩, _ => True

/-- Nodes that can take the places of the children, one for one. -/
def AllAdmit : List Child → List Node → Prop := List.Forall₂ Child.Admits

/-- The children of a node can take their own places. -/
theorem allAdmit_children (n : Node) : AllAdmit n.children (n.children.map Child.node) := by
  have hany : ∀ ns : List Node, AllAdmit (ns.map .any) ((ns.map Child.any).map Child.node) := by
    intro ns
    rw [map_node_any, AllAdmit, List.forall₂_map_left_iff, List.forall₂_same]
    exact fun _ _ => trivial
  cases n with
  | program | func | list => exact hany _
  | declaration info name value => exact .cons ⟨name, rfl⟩ (hany [value])
  | typeDeclaration info name type => exact .cons ⟨name, rfl⟩ (.cons ⟨type, rfl⟩ .nil)
  | chain info op left right | binary info op left right parenthesized broken =>
    exact hany [left, right]
  | lambda info body | unary info op body => exact hany [body]
  | _ => exact .nil

/-- With children that can take their places a node has these children, and nothing else of it
changes. -/
theorem children_withChildren {n : Node} {ns : List Node} (h : AllAdmit n.children ns) :
    (n.withChildren ns).children.map Child.node = ns ∧ (n.withChildren ns).shell = n.shell := by
  cases n with
  | program | func | list => exact ⟨map_node_any ns, rfl⟩
  | declaration =>
    obtain _ | ⟨⟨name, rfl⟩, _ | ⟨-, ⟨⟩⟩⟩ := h
    exact ⟨rfl, rfl⟩
  | typeDeclaration =>
    obtain _ | ⟨⟨name, rfl⟩, _ | ⟨⟨type, rfl⟩, ⟨⟩⟩⟩ := h
    exact ⟨rfl, rfl⟩
  | chain | binary =>
    obtain _ | ⟨-, _ | ⟨-, ⟨⟩⟩⟩ := h
    exact ⟨rfl, rfl⟩
  | lambda | unary =>
    obtain _ | ⟨-, ⟨⟩⟩ := h
    exact ⟨rfl, rfl⟩
  | _ =>
    cases h
    exact ⟨rfl, rfl⟩

/-! ## The nodes of a tree -/

theorem preorderAll_eq (ns : List Node) : preorderAll ns = ns.flatMap preorder := by
  induction ns with
  | nil => rfl
  | cons n ns ih => rw [preorderAll, ih, List.flatMap_cons]

/-- The nodes of a tree are the node and the nodes of its children. -/
theorem preorder_eq (n : Node) :
    n.preorder = n :: (n.children.map Child.node).flatMap preorder := by
  cases n <;> simp [preorder, children, preorderAll_eq, List.flatMap_map]

/-- A child has fewer nodes than its parent. -/
theorem length_preorder_lt {n : Node} {c : Child} (h : c ∈ n.children) :
    c.node.preorder.length < n.preorder.length := by
  obtain ⟨before, behind, hchildren⟩ := List.append_of_mem h
  rw [preorder_eq n, hchildren, List.map_append, List.map_cons, List.flatMap_append,
    List.flatMap_cons, List.length_cons, List.length_append, List.length_append]
  omega

/-! ## A walk, child by child -/

section

variable {σ ε : Type}

/-- A child that was replaced by a node that cannot take its place ends the walk. -/
def Child.check (c : Child) (n : Node) : EStateM (WalkError ε) σ PUnit :=
  match c.role?, n with
  | some _, .identifier _ => pure ⟨⟩
  | some role, n => throw (.notAName role n.kind)
  | none, _ => pure ⟨⟩

theorem check_of_admits {c : Child} {n : Node} (h : c.Admits n) :
    c.check n = (pure ⟨⟩ : EStateM (WalkError ε) σ PUnit) := by
  obtain ⟨_ | role, child⟩ := c
  · rfl
  · obtain ⟨ident, rfl⟩ := h
    rfl

/-- Does something to each child, in order; names must stay names. -/
def eachChild (f : Node → EStateM (WalkError ε) σ Node) :
    List Child → EStateM (WalkError ε) σ (List Node)
  | [] => pure []
  | c :: cs => do
    let n ← f c.node
    c.check n
    return n :: (← eachChild f cs)

@[simp] theorem eachChild_nil (f : Node → EStateM (WalkError ε) σ Node) :
    eachChild f [] = pure [] := rfl

@[simp] theorem eachChild_any (f : Node → EStateM (WalkError ε) σ Node) (n : Node)
    (cs : List Child) :
    eachChild f (.any n :: cs) = do
      let n ← f n
      return n :: (← eachChild f cs) := rfl

@[simp] theorem eachChild_named (f : Node → EStateM (WalkError ε) σ Node) (role : NameRole)
    (ident : Identifier) (cs : List Child) :
    eachChild f (.named role ident :: cs) = do
      let ident ← eachName role f ident
      return .identifier ident :: (← eachChild f cs) := by
  rw [eachChild, eachName, bind_assoc]
  refine bind_congr fun n => ?_
  cases n <;> rfl

@[simp] theorem eachChild_map_any (f : Node → EStateM (WalkError ε) σ Node) (ns : List Node) :
    eachChild f (ns.map .any) = eachNode f ns := by
  induction ns with
  | nil => rfl
  | cons n ns ih => rw [List.map_cons, eachChild_any, eachNode, ih]

/-- One level of a walk: the visitor gives a node, and the walk goes on with its children. -/
theorem walk_succ (visitor : Visitor σ ε) (fuel : Nat) (n : Node) :
    walk visitor (fuel + 1) n = do
      let m ← visit visitor n
      return m.withChildren (← eachChild (walk visitor fuel) m.children) := by
  rw [walk]
  refine bind_congr fun m => ?_
  cases m with
  | program | func | list =>
    rw [children, eachChild_map_any]
    rfl
  | declaration | typeDeclaration | chain | binary | lambda | unary =>
    simp only [children, eachChild_named, eachChild_any, eachChild_nil, bind_assoc, pure_bind]
    rfl
  | _ => rfl

end

end PipelineScript.Node

import PipelineScript.Node.Same
import PipelineScript.Proofs.Comments
import PipelineScript.Proofs.Spelling

/-!
Trees that the grammar has, with literals that are read back.

`Spellable place n` says that `n` is a tree that the grammar has at a place, and that each of its
literals and names is read back from its sign. The places differ in what a call may take: behind
the first token of an expression a call takes expressions, inside an operation it takes operations
only, and keeps no comment.
-/
namespace PipelineScript

variable {engine : PatternEngine}

/-- The places of the grammar that a tree can stand at. -/
inductive Place where
  | operation
  /-- At the beginning of an expression. -/
  | head
  | value
  /-- Left of a chain operator. -/
  | base
  | step (op : ChainOp)
  | item
  | statement
deriving DecidableEq

namespace Node

/-- The sign of a node that is written as one. -/
def literalSign? : Node → Option Sign
  | .number _ value => some ⟨.number, value.render⟩
  | .duration _ span literal =>
    some ⟨.duration, (if literal.isEmpty then span.render else literal).toList⟩
  | .bool _ value => some ⟨.bool value, (if value then "TRUE" else "FALSE").toList⟩
  | .string _ literal triple =>
    some ⟨.string,
      if triple then "'''".toList ++ literal.toList ++ "'''".toList else quotedBy '\'' literal⟩
  | .regex _ _ literal => some ⟨.regex, '/' :: (literal.toList ++ ['/'])⟩
  | .reference _ name => some ⟨.reference, quotedBy '"' name⟩
  | .star _ => some ⟨.star, ['*']⟩
  | _ => none

theorem pieces_of_literalSign? {n : Node} {g : Sign} (h : n.literalSign? = some g)
    (indent : List Char) (fresh parens : Bool) :
    n.pieces indent fresh parens = leadOf n.info indent fresh ++ [.sign g] := by
  cases n with
  | number | duration | bool | string | regex | reference | star => cases h; simp [pieces, info]
  | _ => simp [literalSign?] at h

/-- The kinds of token that literals have. -/
def literalKinds : List TokenKind :=
  [.number, .duration, .bool true, .bool false, .string, .regex, .reference, .star]

theorem kind_of_literalSign? {n : Node} {g : Sign} (h : n.literalSign? = some g) :
    g.kind ∈ literalKinds := by
  cases n with
  | bool info value => cases h; cases value <;> simp [literalKinds]
  | number | duration | string | regex | reference | star => cases h; simp [literalKinds]
  | _ => simp [literalSign?] at h

/-- Whether the first sign of a node is a regex, when the node is written with the parentheses
that are asked for. -/
def leadsRegex (parens : Bool) : Node → Bool
  | .regex .. => true
  | .binary _ op left _ parenthesized _ =>
    !(parens || parenthesized) && leadsRegex (looserLeft op.precedence left) left
  | _ => false

end Node

/-- The kinds of token that an expression can begin with. -/
def TokenKind.opens : TokenKind → Bool
  | .lambda => true
  | .bool _ => true
  | .lparen => true
  | .lbracket => true
  | .star => true
  | .not => true
  | .ident => true
  | .reference => true
  | .number => true
  | .string => true
  | .duration => true
  | .regex => true
  | .binary .subtract => true
  | _ => false

theorem TokenKind.opens_of_mem_literalKinds {kind : TokenKind} (h : kind ∈ Node.literalKinds) :
    kind.opens = true := by
  simp only [Node.literalKinds, List.mem_cons, List.not_mem_nil, or_false] at h
  rcases h with rfl | rfl | rfl | rfl | rfl | rfl | rfl | rfl <;> rfl

/-- The node `q` has the meaning of `n` and is written as the sign `g`; its place and comment are
those of a slot. -/
structure Copies (bytes : List UInt8) (n : Node) (g : Sign) (t : Slot) (q : Node) : Prop where
  same : q.same n = true
  sign : q.literalSign? = some g
  info : q.info = t.info bytes

/-- A node is written as a sign that ends where it should and is read back. -/
structure Spells (n : Node) (g : Sign) : Prop where
  delimited : ∀ rest, Clear rest → g.Delimited rest
  reads : ∀ (bytes : List UInt8) (t : Slot), t.sign = g →
    ∃ q, Copies bytes n g t q ∧ ∀ rest, Reads bytes (.operand q) (t :: rest) rest none

/-- If there is a comment, it is as comments are read from a script. -/
def Remarked (c : Option Comment) : Prop := ∀ block, c = some block → block.Tidy

theorem remarked_of_none {c : Option Comment} (h : c = none) : Remarked c := by
  intro block hb
  rw [h] at hb
  cases hb

/-- Names that are read as names, with the comment before them. -/
structure Identifier.Spellable (ident : Identifier) : Prop where
  name : Sign.isName ident.name.toList = true
  comment : Remarked ident.info.comment

/-- Trees that the grammar has at a place. -/
inductive Spellable : Place → Node → Prop where
  | literal {n : Node} {g : Sign} (hg : n.literalSign? = some g) (hs : Spells n g)
      (hc : Remarked n.comment?) (hr : n.leadsRegex false = true → n.comment? = none) :
      Spellable .operation n
  | name {ident : Identifier} (hi : ident.Spellable) : Spellable .operation (.identifier ident)
  | call {info : Info} {name : String} {args : List Node} {broken : Bool}
      (hc : Remarked info.comment) (hn : Sign.isName name.toList = true)
      (ha : ∀ a ∈ args, Spellable .operation a) :
      Spellable .operation (.func info .global name args broken)
  | unary {info : Info} {op : UnaryOp} {operand : Node} (hc : Remarked info.comment)
      (ho : Spellable .operation operand) : Spellable .operation (.unary info op operand)
  | binary {info : Info} {op : BinaryOp} {left right : Node} {parenthesized broken : Bool}
      (hc : Remarked info.comment)
      (hx : info.comment.isSome → parenthesized = true ∨
        left.leadsRegex (Node.looserLeft op.precedence left) = false)
      (hl : Spellable .operation left) (hr : Spellable .operation right) :
      Spellable .operation (.binary info op left right parenthesized broken)
  | headLiteral {n : Node} {g : Sign} (hg : n.literalSign? = some g) (hs : Spells n g)
      (hc : Remarked n.comment?) (hr : n.leadsRegex false = true → n.comment? = none) :
      Spellable .head n
  | headName {ident : Identifier} (hi : ident.Spellable) : Spellable .head (.identifier ident)
  | headCall {info : Info} {name : String} {args : List Node} {broken : Bool}
      (hc : Remarked info.comment) (hn : Sign.isName name.toList = true)
      (ha : ∀ a ∈ args, Spellable .value a) :
      Spellable .head (.func info .global name args broken)
  | headUnary {info : Info} {op : UnaryOp} {operand : Node} (hc : Remarked info.comment)
      (ho : Spellable .operation operand) : Spellable .head (.unary info op operand)
  | headParens {info : Info} {op : BinaryOp} {left right : Node} {broken : Bool}
      (hc : Remarked info.comment) (hl : Spellable .operation left)
      (hr : Spellable .operation right) : Spellable .head (.binary info op left right true broken)
  | headBinary {info : Info} {op : BinaryOp} {left right : Node} {broken : Bool}
      (hc : Remarked info.comment)
      (hx : info.comment.isSome → left.leadsRegex (Node.looserLeft op.precedence left) = false)
      (hl : Spellable (if Node.looserLeft op.precedence left then .operation else .head) left)
      (hr : Spellable .operation right) : Spellable .head (.binary info op left right false broken)
  | operation {n : Node} (h : Spellable .head n) : Spellable .value n
  | lambda {info : Info} {body : Node} (hc : Remarked info.comment)
      (hb : Spellable .operation body) : Spellable .value (.lambda info body)
  | list {info : Info} {items : List Node} (hc : Remarked info.comment)
      (hi : ∀ i ∈ items, Spellable .item i) : Spellable .value (.list info items)
  | chain {info : Info} {op : ChainOp} {left right : Node} (hc : Remarked info.comment)
      (hl : Spellable .base left) (hr : Spellable (.step op) right) :
      Spellable .value (.chain info op left right)
  | baseName {ident : Identifier} (hi : ident.Spellable) : Spellable .base (.identifier ident)
  | baseCall {info : Info} {name : String} {args : List Node} {broken : Bool}
      (hc : Remarked info.comment) (hn : Sign.isName name.toList = true)
      (ha : ∀ a ∈ args, Spellable .value a) :
      Spellable .base (.func info .global name args broken)
  | baseChain {info : Info} {op : ChainOp} {left right : Node} (hc : Remarked info.comment)
      (hl : Spellable .base left) (hr : Spellable (.step op) right) :
      Spellable .base (.chain info op left right)
  | stepName {op : ChainOp} {ident : Identifier} (ho : op ≠ .pipe) (hi : ident.Spellable) :
      Spellable (.step op) (.identifier ident)
  | stepCall {op : ChainOp} {info : Info} {name : String} {args : List Node} {broken : Bool}
      (hc : Remarked info.comment) (hn : Sign.isName name.toList = true)
      (ha : ∀ a ∈ args, Spellable .value a) :
      Spellable (.step op) (.func info (CallKind.ofChain op) name args broken)
  | itemName {ident : Identifier} (hi : ident.Spellable) : Spellable .item (.identifier ident)
  | itemLiteral {n : Node} {g : Sign} (hg : n.literalSign? = some g) (hs : Spells n g)
      (hk : g.kind = .string ∨ g.kind = .star) (hc : Remarked n.comment?) : Spellable .item n
  | declaration {info : Info} {name : Identifier} {value : Node} (hc : Remarked info.comment)
      (hn : name.Spellable) (hv : Spellable .value value) :
      Spellable .statement (.declaration info name value)
  | typeDeclaration {info : Info} {name type : Identifier} (hc : Remarked info.comment)
      (hn : name.Spellable) (ht : type.Spellable) :
      Spellable .statement (.typeDeclaration info name type)
  | express {n : Node} (h : Spellable .value n) : Spellable .statement n

/-- An operation can stand at the beginning of an expression. -/
theorem Spellable.head {n : Node} (h : Spellable .operation n) : Spellable .head n := by
  generalize hp : Place.operation = place at h
  induction h with
  | literal hg hs hc hr => exact .headLiteral hg hs hc hr
  | name hi => exact .headName hi
  | call hc hn _ ih =>
    exact .headCall hc hn fun a ha => .operation (ih a ha rfl)
  | unary hc ho => exact .headUnary hc ho
  | @binary info op left right parenthesized broken hc hx hl hr ihl =>
    cases parenthesized with
    | true => exact .headParens hc hl hr
    | false =>
      refine .headBinary hc (fun h => by simpa using hx h) ?_ hr
      split
      · exact hl
      · exact ihl rfl
  | _ => cases hp

/-- What a chain can start from can stand at the beginning of an expression, or is a chain. -/
theorem Spellable.value_of_base {n : Node} (h : Spellable .base n) : Spellable .value n := by
  cases h with
  | baseName hi => exact .operation (.headName hi)
  | baseCall hc hn ha => exact .operation (.headCall hc hn ha)
  | baseChain hc hl hr => exact .chain hc hl hr

end PipelineScript

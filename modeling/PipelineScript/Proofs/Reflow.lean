import PipelineScript.Proofs.Statements

/-!
The line breaks of a tree that is written and read again.

Whether an operation or a call breaks its line is read off from the offsets of its parts, and the
offset of an operation or of a chain is that of its operator. `Node.reflow` is the tree with the
line breaks that it has when its canonical text is read. It needs no offsets: whether the text of a
tree has a newline in it before or behind some sign can be told from the tree
(`Node.spansLines`, `Spellable.lined`).
-/
namespace PipelineScript

variable {engine : PatternEngine}

/-- Whether a text has a newline in it. -/
def hasNewline (cs : List Char) : Bool := cs.contains '\n'

@[simp] theorem hasNewline_nil : hasNewline [] = false := rfl

@[simp] theorem hasNewline_cons (c : Char) (cs : List Char) :
    hasNewline (c :: cs) = (decide (c = '\n') || hasNewline cs) := by
  rw [hasNewline, List.contains_cons, hasNewline, Bool.beq_eq_decide_eq, decide_eq_decide.2 eq_comm]

@[simp] theorem hasNewline_append (xs ys : List Char) :
    hasNewline (xs ++ ys) = (hasNewline xs || hasNewline ys) :=
  List.contains_append

theorem hasNewline_eq_true {cs : List Char} : hasNewline cs = true ↔ '\n' ∈ cs :=
  List.contains_iff_mem

theorem hasNewline_eq_false {cs : List Char} : hasNewline cs = false ↔ '\n' ∉ cs := by
  rw [← hasNewline_eq_true, Bool.not_eq_true]

namespace Node

mutual

/-- Whether the text of a node has a newline in it. -/
def spansLines : Node → Bool
  | .list info items => info.comment.isSome || spansLinesAny items
  | .unary info _ operand => info.comment.isSome || spansLines operand
  | .binary info _ left right _ broken =>
    info.comment.isSome || (spansLines left || (broken || spansLines right))
  | .identifier ident => ident.info.comment.isSome
  | .chain .. => true
  | .func info _ _ args broken =>
    info.comment.isSome || (broken && !args.isEmpty || spansLinesAny args)
  | .lambda info body => info.comment.isSome || spansLines body
  | .declaration info name value =>
    info.comment.isSome || (name.info.comment.isSome || spansLines value)
  | .typeDeclaration info name type =>
    info.comment.isSome || (name.info.comment.isSome || type.info.comment.isSome)
  | n => n.info.comment.isSome || n.literalSign?.any (hasNewline ·.text)
termination_by structural n => n

/-- Whether the text of one of some nodes has a newline in it. -/
def spansLinesAny : List Node → Bool
  | [] => false
  | n :: ns => spansLines n || spansLinesAny ns
termination_by structural ns => ns

end

/-- Whether there is a newline in the text of a node before the sign that the node stands at: the
operator of an operation or of a chain, and otherwise the first sign. -/
def breaksBefore : Node → Bool
  | .binary info _ left _ _ _ => info.comment.isSome || left.spansLines
  | .chain .. => true
  | n => n.info.comment.isSome

/-- Whether there is a newline in the text of a node from the sign on that the node stands at. -/
def breaksBehind : Node → Bool
  | .list _ items => spansLinesAny items
  | .unary _ _ operand => operand.spansLines
  | .binary _ _ _ right _ broken => broken || right.spansLines
  | .identifier _ => false
  | .chain _ _ _ right => right.spansLines
  | .func _ _ _ args broken => broken && !args.isEmpty || spansLinesAny args
  | .lambda _ body => body.spansLines
  | .declaration _ name value => name.info.comment.isSome || value.spansLines
  | .typeDeclaration _ name type => name.info.comment.isSome || type.info.comment.isSome
  | n => n.literalSign?.any (hasNewline ·.text)

/-- Whether there is a newline in the text of some arguments before the sign of the last one. -/
def breaksBeforeLast : List Node → Bool
  | [] => false
  | [n] => n.breaksBefore
  | n :: ns => n.spansLines || breaksBeforeLast ns

mutual

/-- The tree with the line breaks that it has when its text is read: an operation breaks its line
if there is a newline between the places of its operands, and a call if there is one between its
name and the place of its last argument. -/
def reflow : Node → Node
  | .list info items => .list info (reflowAll items)
  | .unary info op operand => .unary info op (reflow operand)
  | .binary info op left right parenthesized broken =>
    .binary info op (reflow left) (reflow right) parenthesized
      (broken || (left.breaksBehind || right.breaksBefore))
  | .chain info op left right => .chain info op (reflow left) (reflow right)
  | .func info kind name args broken =>
    .func info kind name (reflowAll args) (broken || breaksBeforeLast args)
  | .lambda info body => .lambda info (reflow body)
  | .declaration info name value => .declaration info name (reflow value)
  | .program position statements => .program position (reflowAll statements)
  | n => n
termination_by structural n => n

/-- Several trees with the line breaks that they have when their text is read. -/
def reflowAll : List Node → List Node
  | [] => []
  | n :: ns => reflow n :: reflowAll ns
termination_by structural ns => ns

end

theorem reflowAll_eq_map (ns : List Node) : reflowAll ns = ns.map reflow := by
  induction ns with
  | nil => rfl
  | cons n ns ih => rw [reflowAll, ih, List.map_cons]

/-- The operator of an operation. -/
def operator? : Node → Option BinaryOp
  | .binary _ op _ _ _ _ => some op
  | _ => none

theorem isBinary_eq (n : Node) : n.isBinary = n.operator?.isSome := by
  cases n <;> rfl

theorem looserLeft_eq (k : Nat) (n : Node) :
    looserLeft k n = n.operator?.any fun op => decide (op.precedence < k) := by
  cases n <;> rfl

theorem looserRight_eq (k : Nat) (n : Node) :
    looserRight k n = n.operator?.any fun op => decide (op.precedence ≤ k) := by
  cases n <;> rfl

theorem looserLeft_congr {n q : Node} (h : q.operator? = n.operator?) (k : Nat) :
    looserLeft k q = looserLeft k n := by
  rw [looserLeft_eq, looserLeft_eq, h]

theorem looserRight_congr {n q : Node} (h : q.operator? = n.operator?) (k : Nat) :
    looserRight k q = looserRight k n := by
  rw [looserRight_eq, looserRight_eq, h]

theorem isBinary_congr {n q : Node} (h : q.operator? = n.operator?) :
    q.isBinary = n.isBinary := by
  rw [isBinary_eq, isBinary_eq, h]

/-! ## What the new line breaks leave as it is -/

@[simp] theorem operator?_reflow (n : Node) : n.reflow.operator? = n.operator? := by
  cases n <;> simp [reflow, operator?]

theorem reflow_of_literalSign? {n : Node} {g : Sign} (h : n.literalSign? = some g) :
    n.reflow = n := by
  cases n <;> first | (simp [reflow]; done) | cases h

mutual

/-- Whether every comment of a tree stands before a sign from which the node of the comment is
read. A unary sign, the name of a call inside an operation (`inner`) and an operation without
parentheses of its own (`parens`) have no such sign. -/
def keepsComments (inner parens : Bool) : Node → Bool
  | .unary info _ operand => info.comment.isNone && keepsComments true operand.isBinary operand
  | .binary info op left right parenthesized _ =>
    let parens := parens || parenthesized
    let loose := looserLeft op.precedence left
    (parens || info.comment.isNone) && keepsComments (inner || parens || loose) loose left &&
      keepsComments true (looserRight op.precedence right) right
  | .chain _ _ left right => keepsComments false false left && keepsComments false false right
  | .func info _ _ args _ => (!inner || info.comment.isNone) && keepCommentsAll inner args
  | .lambda _ body => keepsComments true false body
  | .declaration _ _ value => keepsComments false false value
  | .program _ statements => keepCommentsAll false statements
  | _ => true
termination_by structural n => n

/-- Whether every comment of several trees stands before such a sign. -/
def keepCommentsAll (inner : Bool) : List Node → Bool
  | [] => true
  | n :: ns => keepsComments inner false n && keepCommentsAll inner ns
termination_by structural ns => ns

end

theorem keepCommentsAll_eq_all (inner : Bool) (ns : List Node) :
    keepCommentsAll inner ns = ns.all (keepsComments inner false) := by
  induction ns with
  | nil => rfl
  | cons n ns ih => rw [keepCommentsAll, ih, List.all_cons]

end Node

/-! ## Where the newlines are -/

theorem Spaces.hasNewline {indent : List Char} (h : Spaces indent) :
    hasNewline indent = false :=
  hasNewline_eq_false.2 fun hm => by cases h _ hm

theorem Sign.hasNewline_name {text : List Char} (h : Sign.isName text = true) :
    hasNewline text = false := by
  refine hasNewline_eq_false.2 fun hm => ?_
  cases text with
  | nil => cases hm
  | cons c cs =>
    simp only [isName, isWord, Bool.and_eq_true, List.all_eq_true] at h
    rcases List.mem_cons.1 hm with rfl | hm
    · exact absurd h.1.1 (by decide)
    · exact absurd (h.1.2 _ hm) (by decide)

/-- What stands before something has a newline in it if it is a comment. -/
theorem hasNewline_lead {c : Option Comment} {indent tail : List Char} {fresh : Bool}
    (hc : Remarked c) (ht : Spaces tail) :
    hasNewline (spelled (lead c indent tail fresh)) = c.isSome := by
  cases c with
  | none => simp [lead, (ht.lineStart fresh).hasNewline]
  | some c =>
    obtain ⟨line, hline, -⟩ := Comment.TidyLines.exists_line (hc c rfl)
    have hnewline : '\n' ∈ Comment.renderLine indent line := by
      rw [Comment.renderLine]
      split
      · simp
      · split <;> simp
    have hmem : '\n' ∈ c.lines.flatMap (Comment.renderLine indent) :=
      List.mem_flatMap.2 ⟨line, hline, hnewline⟩
    rw [spelled_lead, renderComment, Comment.render, hasNewline_eq_true.2 (by simp [hmem])]
    rfl

theorem Node.hasNewline_head {info : Info} {indent : List Char} {fresh : Bool}
    (hc : Remarked info.comment) (hi : Spaces indent) :
    hasNewline (head info indent fresh) = info.comment.isSome := by
  rw [← Node.spelled_leadOf]
  exact hasNewline_lead hc hi

/-- The text of a node has a newline in it if `spansLines` says so, wherever it is written. -/
def Lined (n : Node) : Prop :=
  ∀ (indent : List Char) (fresh parens : Bool), Spaces indent →
    hasNewline (spelled (n.pieces indent fresh parens)) = n.spansLines

theorem Identifier.Spellable.hasNewline_pieces {ident : Identifier} (h : ident.Spellable)
    {indent : List Char} (hi : Spaces indent) (fresh : Bool) :
    hasNewline (spelled (ident.pieces indent fresh)) = ident.info.comment.isSome := by
  simp [Identifier.pieces, hasNewline_lead h.comment hi, Sign.hasNewline_name h.name]

theorem hasNewline_args {args : List Node} (h : ∀ a ∈ args, Lined a) {indent : List Char}
    (hi : Spaces indent) (broken first : Bool) :
    hasNewline (spelled (Node.argPieces indent broken first args)) =
      ((broken && !args.isEmpty) || Node.spansLinesAny args) := by
  induction args generalizing first with
  | nil => simp [Node.argPieces, Node.spansLinesAny]
  | cons a as ih =>
    have ih := ih (fun b hb => h b (by simp [hb])) false
    have ha := h a (by simp) indent broken false hi
    cases broken <;> cases first <;>
      simp [Node.argPieces, Node.spansLinesAny, ha, ih]

theorem hasNewline_items {items : List Node} (h : ∀ a ∈ items, Lined a) {indent : List Char}
    (hi : Spaces indent) :
    hasNewline (spelled (Node.itemPieces indent items)) = Node.spansLinesAny items := by
  induction items with
  | nil => rfl
  | cons a as ih =>
    have ih := ih fun b hb => h b (by simp [hb])
    have ha := h a (by simp) indent false false hi
    cases as with
    | nil => simpa [Node.itemPieces, Node.spansLinesAny] using ha
    | cons b bs =>
      rw [Node.itemPieces]
      · simp [Node.spansLinesAny, ha, ih]
      · simp

theorem Node.spansLines_of_literalSign? {n : Node} {g : Sign} (h : n.literalSign? = some g) :
    n.spansLines = (n.info.comment.isSome || hasNewline g.text) := by
  cases n with
  | number | duration | bool | string | regex | reference | star =>
    cases h
    simp [spansLines, literalSign?]
  | _ => simp [literalSign?] at h

theorem BinaryOp.hasNewline_spelling (op : BinaryOp) : hasNewline op.spelling.toList = false := by
  cases op <;> decide

theorem UnaryOp.hasNewline_spelling (op : UnaryOp) : hasNewline op.spelling.toList = false := by
  cases op <;> decide

theorem ChainOp.hasNewline_spelling (op : ChainOp) : hasNewline op.spelling.toList = false := by
  cases op <;> decide

theorem lined_binary {info : Info} {op : BinaryOp} {left right : Node}
    {parenthesized broken : Bool} (hc : Remarked info.comment) (hl : Lined left)
    (hr : Lined right) : Lined (.binary info op left right parenthesized broken) := by
  intro indent fresh parens hi
  have hinner : Spaces (if parens || parenthesized then indent ++ indentStep else indent) := by
    split
    · exact hi.indentStep
    · exact hi
  cases hp : parens || parenthesized <;>
    (rw [hp] at hinner
     simp only [Bool.false_eq_true, if_true, if_false] at hinner
     simp [Node.pieces, hp, Node.spansLines, Node.hasNewline_head hc hi, hl _ _ _ hinner,
       hr _ _ _ hinner, op.hasNewline_spelling])

/-- The text of a call from its name on. -/
theorem hasNewline_call {name : String} {args : List Node} (hn : Sign.isName name.toList = true)
    (ha : ∀ a ∈ args, Lined a) {indent : List Char} (hi : Spaces indent) (broken : Bool) :
    hasNewline (spelled (.sign ⟨.ident, name.toList⟩ :: .sign ⟨.lparen, ['(']⟩ ::
        (Node.argPieces (indent ++ indentStep) broken true args ++
          [.blank (if broken && !args.isEmpty then '\n' :: indent else []),
            .sign ⟨.rparen, [')']⟩]))) =
      (broken && !args.isEmpty || Node.spansLinesAny args) := by
  have hclose : hasNewline (if broken && !args.isEmpty then '\n' :: indent else []) =
      (broken && !args.isEmpty) := by
    cases broken && !args.isEmpty <;> simp
  simp only [spelled_append, spelled_sign, spelled_blank, spelled_nil, hasNewline_append,
    hasNewline_cons, hasNewline_nil, Sign.hasNewline_name hn, hasNewline_args ha hi.indentStep,
    hclose]
  cases broken && !args.isEmpty <;> simp

theorem lined_call {info : Info} {kind : CallKind} {name : String} {args : List Node}
    {broken : Bool} (hc : Remarked info.comment) (hn : Sign.isName name.toList = true)
    (ha : ∀ a ∈ args, Lined a) : Lined (.func info kind name args broken) := by
  intro indent fresh parens hi
  simp only [Node.pieces, List.append_assoc, List.cons_append]
  rw [spelled_append, hasNewline_append, hasNewline_call hn ha hi, Node.spelled_leadOf,
    Node.hasNewline_head hc hi, Node.spansLines]

/-- The text of a spellable tree has a newline in it if `spansLines` says so. -/
theorem Spellable.lined {place : Place} {n : Node} (h : Spellable place n) : Lined n := by
  induction h with
  | literal hg _ hc _ | headLiteral hg _ hc _ | itemLiteral hg _ _ hc =>
    intro indent fresh parens hi
    rw [Node.pieces_of_literalSign? hg, Node.spansLines_of_literalSign? hg]
    simp [Node.hasNewline_head hc hi]
  | name h | headName h | baseName h | stepName _ h | itemName h =>
    intro indent fresh parens hi
    exact h.hasNewline_pieces hi fresh
  | call hc hn _ ih | headCall hc hn _ ih | baseCall hc hn _ ih | stepCall hc hn _ ih =>
    exact lined_call hc hn ih
  | @unary _ op _ hc _ ih | @headUnary _ op _ hc _ ih =>
    intro indent fresh parens hi
    simp [Node.pieces, Node.spansLines, Node.hasNewline_head hc hi, op.hasNewline_spelling,
      ih _ _ _ hi]
  | binary hc _ _ _ ihl ihr | headParens hc _ _ ihl ihr | headBinary hc _ _ _ ihl ihr =>
    exact lined_binary hc ihl ihr
  | operation _ ih | express _ ih => exact ih
  | lambda hc _ ih =>
    intro indent fresh parens hi
    have hsign : hasNewline Sign.lambdaText = false := by decide
    simp [Node.pieces, Node.spansLines, Node.hasNewline_head hc hi, hsign, ih _ _ _ hi]
  | list hc _ ih =>
    intro indent fresh parens hi
    simp [Node.pieces, Node.spansLines, Node.hasNewline_head hc hi, hasNewline_items ih hi]
  | chain | baseChain =>
    intro indent fresh parens hi
    simp [Node.pieces, Node.spansLines]
  | declaration hc hn _ ih =>
    intro indent fresh parens hi
    simp [Node.pieces, Node.spansLines, hasNewline_lead hc spaces_nil, hn.hasNewline_pieces hi,
      ih _ _ _ hi]
  | typeDeclaration hc hn ht =>
    intro indent fresh parens hi
    simp [Node.pieces, Node.spansLines, hasNewline_lead hc spaces_nil, hn.hasNewline_pieces hi,
      ht.hasNewline_pieces hi]

end PipelineScript

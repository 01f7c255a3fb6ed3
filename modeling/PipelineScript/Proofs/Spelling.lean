import PipelineScript.Proofs.Pieces

/-!
Canonical text as pieces.

`Node.pieces` divides the text of a node into blanks and signs, with the same arguments as
`Node.renderIn`, and `spelled_pieces` says that nothing else is written. Later modules speak of the
pieces: of their signs when they ask what the grammar sees, and of their neighbours when they ask
what the scanner sees.

The lines of a comment make one token up to the next empty line. That token takes the indentation
of the line behind it, so a comment is divided together with what stands between it and the node.
-/
namespace PipelineScript

variable {engine : PatternEngine}

namespace Comment

/-- One line of a comment with its newline. -/
def lineText (line : String) : List Char :=
  if line.isEmpty then ['/', '/', '\n'] else '/' :: '/' :: ' ' :: (line.toList ++ ['\n'])

theorem renderLine_eq (indent : List Char) {line : String} (h : line ≠ gap) :
    renderLine indent line = indent ++ lineText line := by
  rw [renderLine, if_neg h, lineText]
  split <;> simp

mutual

/-- The lines behind a line of a comment: what still belongs to its token, and the pieces behind
the token. `tail` is the indentation behind the last line. -/
def continued (indent tail : List Char) : List String → List Char × List Piece
  | [] => (tail, [])
  | line :: lines =>
    if line = gap then ([], .blank ['\n'] :: remarks indent tail lines)
    else
      (indent ++ lineText line ++ (continued indent tail lines).1, (continued indent tail lines).2)
termination_by structural lines => lines

/-- The pieces of the lines of a comment and of the indentation behind them. -/
def remarks (indent tail : List Char) : List String → List Piece
  | [] => [.blank tail]
  | line :: lines =>
    if line = gap then .blank ['\n'] :: remarks indent tail lines
    else
      .blank indent ::
        .sign ⟨.comment, lineText line ++ (continued indent tail lines).1⟩ ::
        (continued indent tail lines).2
termination_by structural lines => lines

end

/-- Nothing of a comment is lost. -/
theorem spelled_lines (indent tail : List Char) (lines : List String) :
    (continued indent tail lines).1 ++ spelled (continued indent tail lines).2 =
        lines.flatMap (renderLine indent) ++ tail ∧
      spelled (remarks indent tail lines) = lines.flatMap (renderLine indent) ++ tail := by
  induction lines with
  | nil => simp [continued, remarks]
  | cons line lines ih =>
    obtain ⟨ih₁, ih₂⟩ := ih
    by_cases h : line = gap
    · subst h
      simp [continued, remarks, renderLine, ih₂]
    · simp [continued, remarks, h, renderLine_eq, ih₁]

end Comment

/-- The pieces before something: the comment there, and the indentation `tail` if the something
begins on a fresh line. -/
def lead (c : Option Comment) (indent tail : List Char) (fresh : Bool) : List Piece :=
  match c with
  | none => [.blank (lineStart tail fresh)]
  | some c => .blank (if fresh then [] else ['\n']) :: Comment.remarks indent tail c.lines

theorem spelled_lead (c : Option Comment) (indent tail : List Char) (fresh : Bool) :
    spelled (lead c indent tail fresh) =
      renderComment c indent fresh ++ lineStart tail (fresh || c.isSome) := by
  cases c with
  | none => simp [lead, renderComment]
  | some c => simp [lead, renderComment, Comment.render, Comment.spelled_lines, lineStart]

/-- The pieces of a name. -/
def Identifier.pieces (ident : Identifier) (indent : List Char) (fresh : Bool) : List Piece :=
  lead ident.info.comment indent indent fresh ++ [.sign ⟨.ident, ident.name.toList⟩]

theorem Identifier.spelled_pieces (ident : Identifier) (indent : List Char) (fresh : Bool) :
    spelled (ident.pieces indent fresh) = ident.render indent fresh := by
  simp [Identifier.pieces, Identifier.render, spelled_lead]

namespace Node

/-- The pieces before a node. -/
def leadOf (info : Info) (indent : List Char) (fresh : Bool) : List Piece :=
  lead info.comment indent indent fresh

@[simp] theorem spelled_leadOf (info : Info) (indent : List Char) (fresh : Bool) :
    spelled (leadOf info indent fresh) = head info indent fresh :=
  spelled_lead info.comment indent indent fresh

mutual

/-- The pieces of a node. -/
def pieces (indent : List Char) (fresh parens : Bool) : Node → List Piece
  | .number info value => leadOf info indent fresh ++ [.sign ⟨.number, value.render⟩]
  | .duration info span literal =>
    leadOf info indent fresh ++
      [.sign ⟨.duration, (if literal.isEmpty then span.render else literal).toList⟩]
  | .bool info value =>
    leadOf info indent fresh ++
      [.sign ⟨.bool value, (if value then "TRUE" else "FALSE").toList⟩]
  | .string info literal triple =>
    leadOf info indent fresh ++
      [.sign ⟨.string,
        if triple then "'''".toList ++ literal.toList ++ "'''".toList else quotedBy '\'' literal⟩]
  | .regex info _ literal =>
    leadOf info indent fresh ++ [.sign ⟨.regex, '/' :: (literal.toList ++ ['/'])⟩]
  | .reference info name =>
    leadOf info indent fresh ++ [.sign ⟨.reference, quotedBy '"' name⟩]
  | .star info => leadOf info indent fresh ++ [.sign ⟨.star, ['*']⟩]
  | .list info items =>
    leadOf info indent fresh ++
      .sign ⟨.lbracket, ['[']⟩ :: (itemPieces indent items ++ [.sign ⟨.rbracket, [']']⟩])
  | .unary info op operand =>
    leadOf info indent fresh ++
      .sign ⟨op.tokenKind, op.spelling.toList⟩ :: pieces indent false operand.isBinary operand
  | .binary info op left right parenthesized broken =>
    let parens := parens || parenthesized
    let inner := if parens then indent ++ indentStep else indent
    leadOf info indent fresh ++
      (if parens then [.sign ⟨.lparen, ['(']⟩] else []) ++
      pieces inner false (looserLeft op.precedence left) left ++
      .blank [' '] :: .sign ⟨.binary op, op.spelling.toList⟩ ::
      .blank [if broken then '\n' else ' '] ::
      pieces inner broken (looserRight op.precedence right) right ++
      (if parens then [.sign ⟨.rparen, [')']⟩] else [])
  | .identifier ident => ident.pieces indent fresh
  | .chain info op left right =>
    let step := stepIndent op indent
    pieces indent fresh false left ++
      .blank ['\n'] :: lead info.comment step step true ++
      .sign ⟨.chain op, op.spelling.toList⟩ :: pieces step false false right
  | .func info _ name args broken =>
    leadOf info indent fresh ++
      .sign ⟨.ident, name.toList⟩ :: .sign ⟨.lparen, ['(']⟩ ::
      argPieces (indent ++ indentStep) broken true args ++
      .blank (if broken && !args.isEmpty then '\n' :: indent else []) ::
      [.sign ⟨.rparen, [')']⟩]
  | .lambda info body =>
    leadOf info indent fresh ++
      .sign ⟨.lambda, Sign.lambdaText⟩ :: .blank [' '] :: pieces indent false false body
  | .declaration info name value =>
    lead info.comment indent [] fresh ++
      .sign ⟨.var, "var".toList⟩ :: .blank [' '] :: name.pieces indent false ++
      .blank [' '] :: .sign ⟨.assign, ['=']⟩ :: .blank [' '] :: pieces indent false false value
  | .typeDeclaration info name type =>
    lead info.comment indent [] fresh ++
      .sign ⟨.var, "var".toList⟩ :: .blank [' '] :: name.pieces indent false ++
      .blank [' '] :: type.pieces indent false
  | .program _ statements => statementPieces indent true statements
  | .comment block => lead (some block) indent [] fresh
termination_by structural n => n

/-- The pieces of the items of a list. -/
def itemPieces (indent : List Char) : List Node → List Piece
  | [] => []
  | [item] => pieces indent false false item
  | item :: items =>
    pieces indent false false item ++
      .sign ⟨.comma, [',']⟩ :: .blank [' '] :: itemPieces indent items
termination_by structural ns => ns

/-- The pieces of the arguments of a call. -/
def argPieces (indent : List Char) (broken first : Bool) : List Node → List Piece
  | [] => []
  | arg :: args =>
    (if first then [] else [.sign ⟨.comma, [',']⟩]) ++
      .blank (if broken then ['\n'] else if first then [] else [' ']) ::
      pieces indent broken false arg ++ argPieces indent broken false args
termination_by structural ns => ns

/-- The pieces of the statements of a program. -/
def statementPieces (indent : List Char) (first : Bool) : List Node → List Piece
  | [] => []
  | statement :: statements =>
    .blank (if first then [] else ['\n']) :: pieces indent true false statement ++
      .blank ['\n'] :: statementPieces indent false statements
termination_by structural ns => ns

end

/-! ## Nothing else is written -/

mutual

theorem spelled_pieces (indent : List Char) (fresh parens : Bool) (n : Node) :
    spelled (n.pieces indent fresh parens) = n.renderIn indent fresh parens := by
  cases n with
  | number | duration | bool | string | regex | reference | star =>
    simp [pieces, renderIn]
  | list info items => simp [pieces, renderIn, spelled_itemPieces indent items]
  | unary info op operand => simp [pieces, renderIn, spelled_pieces _ _ _ operand]
  | binary info op left right parenthesized broken =>
    cases hp : parens || parenthesized <;>
    simp [pieces, renderIn, hp, spelled_pieces _ _ _ left, spelled_pieces _ _ _ right]
  | identifier ident => simp [pieces, renderIn, Identifier.spelled_pieces]
  | chain info op left right =>
    simp [pieces, renderIn, spelled_pieces _ _ _ left, spelled_pieces _ _ _ right, spelled_lead,
      lineStart]
  | func info kind name args broken => simp [pieces, renderIn, spelled_argPieces _ _ _ args]
  | lambda info body =>
    simp [pieces, renderIn, spelled_pieces _ _ _ body, Sign.lambdaText]
  | declaration info name value =>
    simp [pieces, renderIn, spelled_pieces _ _ _ value, spelled_lead, Identifier.spelled_pieces,
      lineStart]
  | typeDeclaration info name type =>
    simp [pieces, renderIn, spelled_lead, Identifier.spelled_pieces, lineStart]
  | program position statements => simp [pieces, renderIn, spelled_statementPieces _ _ statements]
  | comment block => simp [pieces, renderIn, spelled_lead, renderComment, lineStart]
termination_by structural n

theorem spelled_itemPieces (indent : List Char) (items : List Node) :
    spelled (itemPieces indent items) = renderItems indent items := by
  match items with
  | [] => rfl
  | [item] => simp [itemPieces, renderItems, spelled_pieces _ _ _ item]
  | item :: item' :: items =>
    simp [itemPieces, renderItems, spelled_pieces _ _ _ item, spelled_itemPieces _ (item' :: items)]
termination_by structural items

theorem spelled_argPieces (indent : List Char) (broken first : Bool) (args : List Node) :
    spelled (argPieces indent broken first args) = renderArgs indent broken first args := by
  match args with
  | [] => rfl
  | arg :: args =>
    cases first <;> cases broken <;>
    simp [argPieces, renderArgs, spelled_pieces _ _ _ arg, spelled_argPieces _ _ _ args]
termination_by structural args

theorem spelled_statementPieces (indent : List Char) (first : Bool) (statements : List Node) :
    spelled (statementPieces indent first statements) =
      renderStatements indent first statements := by
  match statements with
  | [] => rfl
  | statement :: statements =>
    simp [statementPieces, renderStatements, spelled_pieces _ _ _ statement,
      spelled_statementPieces _ _ statements]
termination_by structural statements

end

theorem render_eq_spelled (n : Node) :
    n.render = String.ofList (spelled (n.pieces [] true false)) := by
  rw [render, renderAt, spelled_pieces]
  rfl

end Node

end PipelineScript

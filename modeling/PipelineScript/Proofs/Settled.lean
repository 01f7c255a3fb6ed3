import Mathlib.Logic.Function.Iterate
import PipelineScript.Proofs.Reflow

/-!
Setting the line breaks of a tree anew.

`Node.reflow` moves no sign and no comment: the tree is spellable as before, its comments are kept
as before, and the scanner meets the same signs in the same modes. What it does is to break
operations and calls that stand on one line, as many as `Node.missingBreaks` says. None is ever
joined again, so the line breaks settle (`Node.exists_settled`).
-/
namespace PipelineScript

variable {engine : PatternEngine}

namespace Node

/-! ## What stays as it is -/

theorem leadsRegex_reflow (parens : Bool) (n : Node) :
    n.reflow.leadsRegex parens = n.leadsRegex parens := by
  cases n with
  | binary info op left right parenthesized broken =>
    rw [reflow, leadsRegex, leadsRegex, looserLeft_congr (operator?_reflow left),
      leadsRegex_reflow _ left]
  | _ => simp [reflow, leadsRegex]
termination_by structural n

theorem endsInName_reflow (parens : Bool) (n : Node) :
    n.reflow.endsInName parens = n.endsInName parens := by
  cases n with
  | unary info op operand =>
    rw [reflow, endsInName, endsInName, isBinary_congr (operator?_reflow operand),
      endsInName_reflow _ operand]
  | binary info op left right parenthesized broken =>
    rw [reflow, endsInName, endsInName, looserRight_congr (operator?_reflow right),
      endsInName_reflow _ right]
  | chain info op left right => rw [reflow, endsInName, endsInName, endsInName_reflow _ right]
  | lambda info body => rw [reflow, endsInName, endsInName, endsInName_reflow _ body]
  | declaration info name value =>
    rw [reflow, endsInName, endsInName, endsInName_reflow _ value]
  | _ => simp [reflow, endsInName]
termination_by structural n

theorem takesOperator_reflow (n : Node) : n.reflow.takesOperator = n.takesOperator := by
  cases n with
  | declaration info name value => rw [reflow, takesOperator, takesOperator, takesOperator_reflow]
  | _ => simp [reflow, takesOperator]
termination_by structural n

mutual

theorem keepsComments_reflow (inner parens : Bool) (n : Node) :
    n.reflow.keepsComments inner parens = n.keepsComments inner parens := by
  cases n with
  | unary info op operand =>
    rw [reflow, keepsComments, keepsComments, isBinary_congr (operator?_reflow operand),
      keepsComments_reflow _ _ operand]
  | binary info op left right parenthesized broken =>
    simp only [reflow, keepsComments, looserLeft_congr (operator?_reflow left),
      looserRight_congr (operator?_reflow right), keepsComments_reflow _ _ left,
      keepsComments_reflow _ _ right]
  | chain info op left right =>
    rw [reflow, keepsComments, keepsComments, keepsComments_reflow _ _ left,
      keepsComments_reflow _ _ right]
  | func info kind name args broken =>
    rw [reflow, keepsComments, keepsComments, keepCommentsAll_reflow inner args]
  | lambda info body => rw [reflow, keepsComments, keepsComments, keepsComments_reflow _ _ body]
  | declaration info name value =>
    rw [reflow, keepsComments, keepsComments, keepsComments_reflow _ _ value]
  | program position statements =>
    rw [reflow, keepsComments, keepsComments, keepCommentsAll_reflow false statements]
  | _ => simp [reflow, keepsComments]
termination_by structural n

theorem keepCommentsAll_reflow (inner : Bool) (ns : List Node) :
    keepCommentsAll inner (reflowAll ns) = keepCommentsAll inner ns := by
  cases ns with
  | nil => rfl
  | cons n ns =>
    rw [reflowAll, keepCommentsAll, keepCommentsAll, keepsComments_reflow _ _ n,
      keepCommentsAll_reflow inner ns]
termination_by structural ns

end

end Node

/-- A tree with new line breaks can stand where it stood. -/
theorem Spellable.reflow {place : Place} {n : Node} (h : Spellable place n) :
    Spellable place n.reflow := by
  have hall {args : List Node} {place : Place} (ih : ∀ a ∈ args, Spellable place a.reflow) :
      ∀ a ∈ Node.reflowAll args, Spellable place a := by
    rw [Node.reflowAll_eq_map]
    exact List.forall_mem_map.2 ih
  induction h with
  | literal hg hs hc hr =>
    rw [Node.reflow_of_literalSign? hg]
    exact .literal hg hs hc hr
  | headLiteral hg hs hc hr =>
    rw [Node.reflow_of_literalSign? hg]
    exact .headLiteral hg hs hc hr
  | itemLiteral hg hs hk hc =>
    rw [Node.reflow_of_literalSign? hg]
    exact .itemLiteral hg hs hk hc
  | name hi => exact .name hi
  | headName hi => exact .headName hi
  | baseName hi => exact .baseName hi
  | stepName ho hi => exact .stepName ho hi
  | itemName hi => exact .itemName hi
  | call hc hn _ ih => exact .call hc hn (hall ih)
  | headCall hc hn _ ih => exact .headCall hc hn (hall ih)
  | baseCall hc hn _ ih => exact .baseCall hc hn (hall ih)
  | stepCall hc hn _ ih => exact .stepCall hc hn (hall ih)
  | unary hc _ ih => exact .unary hc ih
  | headUnary hc _ ih => exact .headUnary hc ih
  | @binary info op left right parenthesized broken hc hx _ _ ihl ihr =>
    refine .binary hc (fun hsome => ?_) ihl ihr
    rw [Node.looserLeft_congr (Node.operator?_reflow left), Node.leadsRegex_reflow]
    exact hx hsome
  | headParens hc _ _ ihl ihr => exact .headParens hc ihl ihr
  | @headBinary info op left right broken hc hx _ _ ihl ihr =>
    rw [← Node.looserLeft_congr (Node.operator?_reflow left)] at ihl
    refine .headBinary hc (fun hsome => ?_) ihl ihr
    rw [Node.looserLeft_congr (Node.operator?_reflow left), Node.leadsRegex_reflow]
    exact hx hsome
  | operation _ ih => exact .operation ih
  | lambda hc _ ih => exact .lambda hc ih
  | list hc _ ih => exact .list hc (hall ih)
  | chain hc _ _ ihl ihr => exact .chain hc ihl ihr
  | baseChain hc _ _ ihl ihr => exact .baseChain hc ihl ihr
  | declaration hc hn _ ih => exact .declaration hc hn ih
  | typeDeclaration hc hn ht => exact .typeDeclaration hc hn ht
  | express _ ih => exact .express ih

/-! ## The signs that the scanner meets -/

/-- A sign as it bears on the modes of the scanner: the text of a comment does not. -/
def Sign.bare (g : Sign) : Sign := if g.kind = .comment then ⟨.comment, []⟩ else g

theorem Sign.kind_bare (g : Sign) : g.bare.kind = g.kind := by
  rw [bare]
  split
  · exact Eq.symm ‹_›
  · rfl

theorem Sign.suits_bare (g : Sign) (mode : ScanMode) : g.bare.suits mode = g.suits mode := by
  rw [bare]
  split
  · next h => simp [suits, h]
  · rfl

/-- Pieces without their blanks and without the texts of their comments. -/
def stripped : List Piece → List Piece
  | [] => []
  | .blank _ :: ps => stripped ps
  | .sign g :: ps => .sign g.bare :: stripped ps

@[simp] theorem stripped_nil : stripped [] = [] := rfl

@[simp] theorem stripped_blank (b : List Char) (ps : List Piece) :
    stripped (.blank b :: ps) = stripped ps := rfl

@[simp] theorem stripped_sign (g : Sign) (ps : List Piece) :
    stripped (.sign g :: ps) = .sign g.bare :: stripped ps := rfl

@[simp] theorem stripped_append (ps qs : List Piece) :
    stripped (ps ++ qs) = stripped ps ++ stripped qs := by
  induction ps with
  | nil => rfl
  | cons p ps ih => cases p <;> simp [ih]

theorem placed_stripped (mode : ScanMode) (ps : List Piece) :
    Placed mode (stripped ps) = Placed mode ps := by
  induction ps generalizing mode with
  | nil => rfl
  | cons p ps ih =>
    cases p with
    | blank b => exact ih mode
    | sign g => rw [stripped_sign, Placed, Placed, ih, g.suits_bare, g.kind_bare]

theorem signsOf_stripped (ps : List Piece) : signsOf (stripped ps) = signsOf ps := by
  induction ps with
  | nil => rfl
  | cons p ps ih =>
    cases p with
    | blank b => exact ih
    | sign g =>
      by_cases h : g.kind = .comment
      · rw [stripped_sign, signsOf_comment _ (g.kind_bare.trans h), signsOf_comment _ h, ih]
      · rw [stripped_sign, Sign.bare, if_neg h, signsOf_sign _ h, signsOf_sign _ h, ih]

/-- The signs of a comment do not depend on where it is written. -/
theorem Comment.stripped_lines (indent tail indent' tail' : List Char) (lines : List String) :
    stripped (continued indent tail lines).2 = stripped (continued indent' tail' lines).2 ∧
      stripped (remarks indent tail lines) = stripped (remarks indent' tail' lines) := by
  induction lines with
  | nil => exact ⟨rfl, rfl⟩
  | cons line lines ih =>
    by_cases h : line = gap
    · simpa [continued, remarks, h] using ih.2
    · simpa [continued, remarks, h, Sign.bare] using ih.1

theorem stripped_lead (c : Option Comment) (indent tail indent' tail' : List Char)
    (fresh fresh' : Bool) :
    stripped (lead c indent tail fresh) = stripped (lead c indent' tail' fresh') := by
  cases c with
  | none => rfl
  | some c => exact (Comment.stripped_lines indent tail indent' tail' c.lines).2

theorem Identifier.stripped_pieces (ident : Identifier) (indent indent' : List Char)
    (fresh fresh' : Bool) :
    stripped (ident.pieces indent fresh) = stripped (ident.pieces indent' fresh') := by
  rw [pieces, pieces, stripped_append, stripped_append, stripped_lead]

namespace Node

mutual

/-- New line breaks leave the signs of a tree as they are. -/
theorem stripped_pieces_reflow (indent indent' : List Char) (fresh fresh' parens : Bool)
    (n : Node) :
    stripped (n.reflow.pieces indent fresh parens) =
      stripped (n.pieces indent' fresh' parens) := by
  cases n with
  | list info items =>
    simp only [reflow, pieces, leadOf, stripped_append, stripped_sign,
      stripped_lead _ indent indent indent' indent' fresh fresh',
      stripped_itemPieces_reflow indent indent' items]
  | unary info op operand =>
    simp only [reflow, pieces, leadOf, stripped_append, stripped_sign,
      stripped_lead _ indent indent indent' indent' fresh fresh',
      isBinary_congr (operator?_reflow operand),
      stripped_pieces_reflow indent indent' false false _ operand]
  | binary info op left right parenthesized broken =>
    -- Whether there are parentheses is told by the operators, which stay the same.
    have hl := stripped_pieces_reflow
      (if parens || parenthesized then indent ++ indentStep else indent)
      (if parens || parenthesized then indent' ++ indentStep else indent') false false
      (looserLeft op.precedence left) left
    have hr := stripped_pieces_reflow
      (if parens || parenthesized then indent ++ indentStep else indent)
      (if parens || parenthesized then indent' ++ indentStep else indent')
      (broken || (left.breaksBehind || right.breaksBefore)) broken
      (looserRight op.precedence right) right
    simp only [reflow, pieces, leadOf, stripped_append, stripped_sign, stripped_blank,
      stripped_lead _ indent indent indent' indent' fresh fresh',
      looserLeft_congr (operator?_reflow left), looserRight_congr (operator?_reflow right), hl, hr]
  | identifier ident => exact ident.stripped_pieces _ _ _ _
  | chain info op left right =>
    simp only [reflow, pieces, stripped_append, stripped_sign, stripped_blank,
      stripped_lead _ (stepIndent op indent) (stepIndent op indent) (stepIndent op indent')
        (stepIndent op indent') true true,
      stripped_pieces_reflow indent indent' fresh fresh' false left,
      stripped_pieces_reflow (stepIndent op indent) (stepIndent op indent') false false false right]
  | func info kind name args broken =>
    simp only [reflow, pieces, leadOf, stripped_append, stripped_sign, stripped_blank,
      stripped_lead _ indent indent indent' indent' fresh fresh',
      stripped_argPieces_reflow (indent ++ indentStep) (indent' ++ indentStep) _ broken true args]
  | lambda info body =>
    simp only [reflow, pieces, leadOf, stripped_append, stripped_sign, stripped_blank,
      stripped_lead _ indent indent indent' indent' fresh fresh',
      stripped_pieces_reflow indent indent' false false false body]
  | declaration info name value =>
    simp only [reflow, pieces, stripped_append, stripped_sign, stripped_blank,
      stripped_lead _ indent [] indent' [] fresh fresh',
      name.stripped_pieces indent indent' false false,
      stripped_pieces_reflow indent indent' false false false value]
  | typeDeclaration info name type =>
    simp only [reflow, pieces, stripped_append, stripped_sign, stripped_blank,
      stripped_lead _ indent [] indent' [] fresh fresh',
      name.stripped_pieces indent indent' false false,
      type.stripped_pieces indent indent' false false]
  | program position statements =>
    exact stripped_statementPieces_reflow indent indent' true true statements
  | comment block => exact stripped_lead _ _ _ _ _ _ _
  | _ =>
    simp only [reflow, pieces, leadOf, stripped_append,
      stripped_lead _ indent indent indent' indent' fresh fresh']
termination_by structural n

theorem stripped_itemPieces_reflow (indent indent' : List Char) (items : List Node) :
    stripped (itemPieces indent (reflowAll items)) = stripped (itemPieces indent' items) := by
  match items with
  | [] => rfl
  | [item] => exact stripped_pieces_reflow _ _ _ _ _ item
  | item :: item' :: items =>
    have ih := stripped_itemPieces_reflow indent indent' (item' :: items)
    simp only [reflowAll, itemPieces, stripped_append, stripped_sign, stripped_blank,
      stripped_pieces_reflow indent indent' false false _ item] at ih ⊢
    rw [ih]
termination_by structural items

theorem stripped_argPieces_reflow (indent indent' : List Char) (broken broken' first : Bool)
    (args : List Node) :
    stripped (argPieces indent broken first (reflowAll args)) =
      stripped (argPieces indent' broken' first args) := by
  match args with
  | [] => rfl
  | arg :: args =>
    simp only [reflowAll, argPieces, stripped_append, stripped_blank,
      stripped_pieces_reflow indent indent' broken broken' _ arg,
      stripped_argPieces_reflow indent indent' broken broken' false args]
termination_by structural args

theorem stripped_statementPieces_reflow (indent indent' : List Char) (first first' : Bool)
    (statements : List Node) :
    stripped (statementPieces indent first (reflowAll statements)) =
      stripped (statementPieces indent' first' statements) := by
  match statements with
  | [] => rfl
  | statement :: statements =>
    simp only [reflowAll, statementPieces, stripped_append, stripped_blank, List.cons_append,
      stripped_pieces_reflow indent indent' true true _ statement,
      stripped_statementPieces_reflow indent indent' false false statements]
termination_by structural statements

end

theorem placed_reflow (mode : ScanMode) (statements : List Node) :
    Placed mode (statementPieces [] true (reflowAll statements)) =
      Placed mode (statementPieces [] true statements) := by
  rw [← placed_stripped, stripped_statementPieces_reflow [] [] true true, placed_stripped]

theorem leavesOff_reflow (n m : Node) : n.reflow.leavesOff m.reflow = n.leavesOff m := by
  rw [leavesOff, leavesOff, ← signsOf_stripped, stripped_pieces_reflow [] [] true true false m,
    signsOf_stripped, endsInName_reflow, takesOperator_reflow]

theorem keptApart_reflow (ns : List Node) : keptApart (reflowAll ns) = keptApart ns := by
  match ns with
  | [] | [_] => rfl
  | n :: m :: ns =>
    have ih := keptApart_reflow (m :: ns)
    rw [reflowAll] at ih
    rw [reflowAll, reflowAll, keptApart, keptApart, ih, leavesOff_reflow]

/-! ## The line breaks that are missing -/

mutual

/-- How many operations and calls of a tree stand on one line. -/
def unbroken : Node → Nat
  | .list _ items => unbrokenAll items
  | .unary _ _ operand => unbroken operand
  | .binary _ _ left right _ broken => (!broken).toNat + (unbroken left + unbroken right)
  | .chain _ _ left right => unbroken left + unbroken right
  | .func _ _ _ args broken => (!broken).toNat + unbrokenAll args
  | .lambda _ body => unbroken body
  | .declaration _ _ value => unbroken value
  | .program _ statements => unbrokenAll statements
  | _ => 0
termination_by structural n => n

/-- How many operations and calls of several trees stand on one line. -/
def unbrokenAll : List Node → Nat
  | [] => 0
  | n :: ns => unbroken n + unbrokenAll ns
termination_by structural ns => ns

end

mutual

/-- How many operations and calls of a tree stand on one line although there is a newline in their
text between the places that the reader compares. -/
def missingBreaks : Node → Nat
  | .list _ items => missingBreaksAll items
  | .unary _ _ operand => missingBreaks operand
  | .binary _ _ left right _ broken =>
    (!broken && (left.breaksBehind || right.breaksBefore)).toNat +
      (missingBreaks left + missingBreaks right)
  | .chain _ _ left right => missingBreaks left + missingBreaks right
  | .func _ _ _ args broken =>
    (!broken && breaksBeforeLast args).toNat + missingBreaksAll args
  | .lambda _ body => missingBreaks body
  | .declaration _ _ value => missingBreaks value
  | .program _ statements => missingBreaksAll statements
  | _ => 0
termination_by structural n => n

/-- How many line breaks are missing in several trees. -/
def missingBreaksAll : List Node → Nat
  | [] => 0
  | n :: ns => missingBreaks n + missingBreaksAll ns
termination_by structural ns => ns

end

theorem toNat_not_or (broken missing : Bool) :
    (!(broken || missing)).toNat + (!broken && missing).toNat = (!broken).toNat := by
  cases broken <;> cases missing <;> rfl

theorem or_eq_left_of_missing {broken missing : Bool} (h : (!broken && missing) = false) :
    (broken || missing) = broken := by
  cases broken
  · exact h
  · rfl

mutual

/-- Every missing line break is set. -/
theorem unbroken_reflow (n : Node) : n.reflow.unbroken + n.missingBreaks = n.unbroken := by
  cases n with
  | list info items => exact unbrokenAll_reflowAll items
  | unary info op operand => exact unbroken_reflow operand
  | binary info op left right parenthesized broken =>
    have hl := unbroken_reflow left
    have hr := unbroken_reflow right
    have hbreak := toNat_not_or broken (left.breaksBehind || right.breaksBefore)
    simp only [reflow, unbroken, missingBreaks]
    omega
  | chain info op left right =>
    have hl := unbroken_reflow left
    have hr := unbroken_reflow right
    simp only [reflow, unbroken, missingBreaks]
    omega
  | func info kind name args broken =>
    have hargs := unbrokenAll_reflowAll args
    have hbreak := toNat_not_or broken (breaksBeforeLast args)
    simp only [reflow, unbroken, missingBreaks]
    omega
  | lambda info body => exact unbroken_reflow body
  | declaration info name value => exact unbroken_reflow value
  | program position statements => exact unbrokenAll_reflowAll statements
  | _ => simp [reflow, unbroken, missingBreaks]
termination_by structural n

theorem unbrokenAll_reflowAll (ns : List Node) :
    unbrokenAll (reflowAll ns) + missingBreaksAll ns = unbrokenAll ns := by
  cases ns with
  | nil => rfl
  | cons n ns =>
    have hn := unbroken_reflow n
    have hns := unbrokenAll_reflowAll ns
    simp only [reflowAll, unbrokenAll, missingBreaksAll]
    omega
termination_by structural ns

end

mutual

/-- A tree that misses no line break stays as it is. -/
theorem reflow_eq_self {n : Node} (h : n.missingBreaks = 0) : n.reflow = n := by
  cases n with
  | list info items => exact congrArg (list info) (reflowAll_eq_self h)
  | unary info op operand => exact congrArg (unary info op) (reflow_eq_self h)
  | binary info op left right parenthesized broken =>
    simp only [missingBreaks, Nat.add_eq_zero_iff, Bool.toNat_eq_zero] at h
    obtain ⟨hbreak, hl, hr⟩ := h
    rw [reflow, reflow_eq_self hl, reflow_eq_self hr, or_eq_left_of_missing hbreak]
  | chain info op left right =>
    simp only [missingBreaks, Nat.add_eq_zero_iff] at h
    rw [reflow, reflow_eq_self h.1, reflow_eq_self h.2]
  | func info kind name args broken =>
    simp only [missingBreaks, Nat.add_eq_zero_iff, Bool.toNat_eq_zero] at h
    obtain ⟨hbreak, hargs⟩ := h
    rw [reflow, reflowAll_eq_self hargs, or_eq_left_of_missing hbreak]
  | lambda info body => exact congrArg (lambda info) (reflow_eq_self h)
  | declaration info name value => exact congrArg (declaration info name) (reflow_eq_self h)
  | program position statements => exact congrArg (program position) (reflowAll_eq_self h)
  | _ => simp [reflow]
termination_by structural n

theorem reflowAll_eq_self {ns : List Node} (h : missingBreaksAll ns = 0) : reflowAll ns = ns := by
  cases ns with
  | nil => rfl
  | cons n ns =>
    rw [missingBreaksAll, Nat.add_eq_zero_iff] at h
    rw [reflowAll, reflow_eq_self h.1, reflowAll_eq_self h.2]
termination_by structural ns

end

/-- **The line breaks settle**: once they have been set anew as often as there are operations and
calls on one line, at the latest, none is missing. -/
theorem exists_settled (n : Node) : ∃ k ≤ n.unbroken, (reflow^[k] n).missingBreaks = 0 := by
  induction hm : n.unbroken using Nat.strong_induction_on generalizing n with
  | _ m ih =>
    by_cases hzero : n.missingBreaks = 0
    · exact ⟨0, Nat.zero_le _, hzero⟩
    · have hlt : n.reflow.unbroken < m := by
        have := n.unbroken_reflow
        omega
      obtain ⟨k, hk, hsettled⟩ := ih _ hlt n.reflow rfl
      exact ⟨k + 1, by omega, hsettled⟩

end Node

/-! ## A line break that is set shows in the text -/

/-- The text `ys` has more newlines than `xs`, or as many and `m` characters fewer. -/
def Widens (m : Nat) (xs ys : List Char) : Prop :=
  xs.count '\n' < ys.count '\n' ∨
    xs.count '\n' = ys.count '\n' ∧ ys.length + m = xs.length

namespace Widens

variable {l m : Nat} {xs ys us vs : List Char}

theorem refl (xs : List Char) : Widens 0 xs xs := .inr ⟨rfl, rfl⟩

theorem append (h : Widens l xs ys) (h' : Widens m us vs) :
    Widens (l + m) (xs ++ us) (ys ++ vs) := by
  simp only [Widens, List.count_append, List.length_append] at *
  omega

theorem append_left (us : List Char) (h : Widens m xs ys) : Widens m (us ++ xs) (us ++ ys) := by
  simpa using (refl us).append h

theorem append_right (us : List Char) (h : Widens m xs ys) : Widens m (xs ++ us) (ys ++ us) :=
  h.append (refl us)

theorem cons (c : Char) (h : Widens m xs ys) : Widens m (c :: xs) (c :: ys) :=
  h.append_left [c]

theorem count_le (h : Widens m xs ys) : xs.count '\n' ≤ ys.count '\n' := by
  simp only [Widens] at h
  omega

theorem eq_zero (h : Widens m xs xs) : m = 0 := by
  simp only [Widens] at h
  omega

end Widens

/-- A text `xs` that does not begin on a fresh line, and what it becomes if it does: it loses the
newline that its comment begins with, or no newline at all. -/
def Freshens (xs ys : List Char) : Prop := xs = '\n' :: ys ∨ xs.count '\n' ≤ ys.count '\n'

theorem Freshens.append {xs ys : List Char} (h : Freshens xs ys) (zs : List Char) :
    Freshens (xs ++ zs) (ys ++ zs) := by
  rcases h with rfl | h
  · exact .inl rfl
  · refine .inr ?_
    rw [List.count_append, List.count_append]
    exact Nat.add_le_add_right h _

theorem Freshens.count_le {xs ys : List Char} (h : Freshens xs ys) :
    xs.count '\n' ≤ ys.count '\n' + 1 := by
  rcases h with rfl | h
  · rw [List.count_cons_self]
  · exact Nat.le_succ_of_le h

theorem freshens_comment (c : Option Comment) (indent : List Char) :
    Freshens (renderComment c indent false) (renderComment c indent true) := by
  cases c with
  | none => exact .inr (Nat.le_refl _)
  | some c => exact .inl rfl

theorem freshens_lead (c : Option Comment) (indent : List Char) :
    Freshens (renderComment c indent false ++ lineStart indent (false || c.isSome))
      (renderComment c indent true ++ lineStart indent (true || c.isSome)) := by
  cases c with
  | none => exact .inr (by simp [renderComment, lineStart])
  | some c => exact .inl rfl

namespace Node

theorem freshens_renderIn (indent : List Char) (parens : Bool) (n : Node) :
    Freshens (n.renderIn indent false parens) (n.renderIn indent true parens) := by
  cases n with
  | chain info op left right =>
    exact ((freshens_renderIn indent false left).append _).append _
  | declaration info name value =>
    exact ((((freshens_comment _ _).append _).append _).append _).append _
  | typeDeclaration info name type => exact (((freshens_comment _ _).append _).append _).append _
  | program position statements => exact .inr (Nat.le_refl _)
  | comment block => exact .inl rfl
  | unary info op operand => exact ((freshens_lead _ _).append _).append _
  | binary info op left right parenthesized broken =>
    exact (((((freshens_lead _ _).append _).append _).append _).append _).append _
  | func info kind name args broken =>
    exact ((((freshens_lead _ _).append _).append _).append _).append _
  | lambda info body => exact ((freshens_lead _ _).append _).append _
  | _ => exact (freshens_lead _ _).append _
termination_by structural n

/-- Arguments on lines of their own have no fewer newlines than arguments on one line. -/
theorem count_renderArgs_le (indent : List Char) (first : Bool) (args : List Node) :
    (renderArgs indent false first args).count '\n' ≤
      (renderArgs indent true first args).count '\n' := by
  induction args generalizing first with
  | nil => exact Nat.le_refl _
  | cons arg args ih =>
    have harg := (freshens_renderIn indent false arg).count_le
    have ih := ih false
    cases first <;>
      (simp [renderArgs]
       omega)

/-- A right operand, with the character before it, that may come to stand on a new line. -/
theorem widens_right {n : Node} {m : Nat} {indent : List Char} {parens : Bool}
    (h : ∀ fresh, Widens m (n.renderIn indent fresh parens) (n.reflow.renderIn indent fresh parens))
    (broken missing : Bool) :
    Widens ((!broken && missing).toNat + m)
      ((if broken then '\n' else ' ') :: n.renderIn indent broken parens)
      ((if broken || missing then '\n' else ' ') ::
        n.reflow.renderIn indent (broken || missing) parens) := by
  cases broken with
  | true => simpa using (h true).cons '\n'
  | false =>
    cases missing with
    | false => simpa using (h false).cons ' '
    | true =>
      have hwide := h false
      rcases freshens_renderIn indent parens n.reflow with hcomment | hcount
      · -- The newline of a comment becomes the line break, and the space before it goes.
        rw [hcomment] at hwide
        simp only [Widens] at hwide ⊢
        simp
        simp at hwide
        omega
      · refine .inl ?_
        have hle := hwide.count_le
        simp
        omega

/-- The arguments of a call, with what stands before its closing parenthesis, that may come to
stand on lines of their own. -/
theorem widens_args {args : List Node} {m : Nat} {inner : List Char}
    (h : ∀ broken, Widens m (renderArgs inner broken true args)
      (renderArgs inner broken true (reflowAll args)))
    (indent : List Char) (broken : Bool) :
    Widens ((!broken && breaksBeforeLast args).toNat + m)
      (renderArgs inner broken true args ++
        (if broken && !args.isEmpty then '\n' :: indent else []))
      (renderArgs inner (broken || breaksBeforeLast args) true (reflowAll args) ++
        (if (broken || breaksBeforeLast args) && !(reflowAll args).isEmpty then '\n' :: indent
          else [])) := by
  have hempty : (reflowAll args).isEmpty = args.isEmpty := by cases args <;> rfl
  rw [hempty]
  cases broken with
  | true => simpa using (h true).append_right _
  | false =>
    cases hmissing : breaksBeforeLast args with
    | false => simpa using h false
    | true =>
      -- The closing parenthesis comes to stand on a new line.
      have hnonempty : args.isEmpty = false := by
        cases args with
        | nil => cases hmissing
        | cons => rfl
      have hle := count_renderArgs_le inner true args
      have hwide := (h true).count_le
      refine .inl ?_
      simp [hnonempty]
      omega

mutual

/-- Each line break that was missing makes the text wider. -/
theorem widens_reflow (indent : List Char) (fresh parens : Bool) (n : Node) :
    Widens n.missingBreaks (n.renderIn indent fresh parens)
      (n.reflow.renderIn indent fresh parens) := by
  cases n with
  | list info items =>
    exact (((widens_reflowItems indent items).append_right [']']).cons '[').append_left _
  | unary info op operand =>
    simp only [reflow, renderIn, isBinary_congr (operator?_reflow operand)]
    exact (widens_reflow indent false operand.isBinary operand).append_left _
  | binary info op left right parenthesized broken =>
    let inner := if parens || parenthesized then indent ++ indentStep else indent
    have hl := widens_reflow inner false (looserLeft op.precedence left) left
    have hr := widens_right (m := right.missingBreaks)
      (fun fresh => widens_reflow inner fresh (looserRight op.precedence right) right) broken
      (left.breaksBehind || right.breaksBefore)
    simp only [reflow, renderIn, missingBreaks, looserLeft_congr (operator?_reflow left),
      looserRight_congr (operator?_reflow right), List.append_assoc, List.cons_append,
      List.nil_append]
    rw [Nat.add_left_comm]
    exact ((hl.append (((hr.append_right _).append_left _).cons ' ')).append_left _).append_left _
  | chain info op left right =>
    have hl := widens_reflow indent fresh false left
    have hr := widens_reflow (stepIndent op indent) false false right
    exact (hl.append_right _).append hr
  | func info kind name args broken =>
    have hargs := widens_args (m := missingBreaksAll args)
      (fun broken => widens_reflowArgs (indent ++ indentStep) broken true args) indent broken
    have hcall := (((hargs.append_right [')']).cons '(').append_left name.toList).append_left
      (head info indent fresh)
    simpa only [reflow, renderIn, missingBreaks, List.append_assoc, List.cons_append] using hcall
  | lambda info body => exact (widens_reflow indent false false body).append_left _
  | declaration info name value => exact (widens_reflow indent false false value).append_left _
  | program position statements => exact widens_reflowStatements indent true statements
  | _ =>
    simp only [reflow, missingBreaks]
    exact .refl _
termination_by structural n

theorem widens_reflowItems (indent : List Char) (items : List Node) :
    Widens (missingBreaksAll items) (renderItems indent items)
      (renderItems indent (reflowAll items)) := by
  match items with
  | [] => exact .refl _
  | [item] => exact widens_reflow indent false false item
  | item :: item' :: items =>
    have hitem := widens_reflow indent false false item
    have hitems := widens_reflowItems indent (item' :: items)
    simp only [reflowAll, renderItems] at hitems ⊢
    exact hitem.append ((hitems.cons ' ').cons ',')
termination_by structural items

theorem widens_reflowArgs (indent : List Char) (broken first : Bool) (args : List Node) :
    Widens (missingBreaksAll args) (renderArgs indent broken first args)
      (renderArgs indent broken first (reflowAll args)) := by
  match args with
  | [] => exact .refl _
  | arg :: args =>
    have harg := widens_reflow indent broken false arg
    have hargs := widens_reflowArgs indent broken false args
    exact (harg.append_left _).append hargs
termination_by structural args

theorem widens_reflowStatements (indent : List Char) (first : Bool) (statements : List Node) :
    Widens (missingBreaksAll statements) (renderStatements indent first statements)
      (renderStatements indent first (reflowAll statements)) := by
  match statements with
  | [] => exact .refl _
  | statement :: statements =>
    have hstatement := widens_reflow indent true false statement
    have hstatements := widens_reflowStatements indent false statements
    exact (hstatement.append_left _).append (hstatements.cons '\n')
termination_by structural statements

end

/-- The text of a tree shows whether a line break was missing. -/
theorem renderIn_reflow_eq_iff {n : Node} {indent : List Char} {fresh parens : Bool} :
    n.reflow.renderIn indent fresh parens = n.renderIn indent fresh parens ↔
      n.missingBreaks = 0 := by
  constructor
  · intro h
    have hwide := widens_reflow indent fresh parens n
    rw [h] at hwide
    exact hwide.eq_zero
  · intro h
    rw [reflow_eq_self h]

end Node

end PipelineScript

import PipelineScript.Proofs.SameTokens
import PipelineScript.Proofs.Calls

/-!
The fuel of a parser.

The functions of the grammar call each other with less and less fuel, and so does each round of a
loop the next. More fuel never changes an outcome (`Extends`; there is one lemma for each function),
and a parser needs no more than four for each token of the script and four on top
(`ParserCall.ample_within`). So from there on the outcome is that of a parser without a bound, and
it is a tree, a rejection, or where the tokens stop without an end (`ParserCall.runOn_cases`).
-/
namespace PipelineScript

variable {engine : PatternEngine}

/-! ## More fuel -/

namespace Parser

/-- Whenever `x` ends before its fuel does, `y` ends the same way. -/
def Extends {α : Type} (x y : Parser α) : Prop :=
  ∀ s, (∀ s', x s ≠ .error .exhausted s') → y s = x s

section

variable {α β : Type} {fuel : Nat}

theorem Extends.bind {x y : Parser α} {f g : α → Parser β} (h : Extends x y)
    (hf : ∀ a, Extends (f a) (g a)) : Extends (x >>= f) (y >>= g) := by
  intro s hs
  cases hx : x s with
  | error e s₁ =>
    have hy : y s = x s := by
      refine h s fun s' he => hs s' ?_
      rw [bind_error he]
    rw [bind_error hx, bind_error (hy.trans hx)]
  | ok a s₁ =>
    rw [bind_ok hx] at hs ⊢
    have hy : y s = x s := h s fun s' he => by rw [hx] at he; cases he
    rw [bind_ok (hy.trans hx)]
    exact hf a s₁ hs

theorem extends_refl (x : Parser α) : Extends x x := fun _ _ => rfl

theorem extends_exhausted (y : Parser α) : Extends (throw .exhausted) y :=
  fun s hs => absurd rfl (hs s)

theorem Extends.ite {x y x' y' : Parser α} (c : Prop) [Decidable c] (h : Extends x y)
    (h' : Extends x' y') : Extends (if c then x else x') (if c then y else y') := by
  split
  · exact h
  · exact h'

/-- What follows steps that have no fuel. -/
theorem Extends.after (x : Parser α) {f g : α → Parser β} (hf : ∀ a, Extends (f a) (g a)) :
    Extends (x >>= f) (x >>= g) := (extends_refl x).bind hf

/-- What is done with a result needs no fuel. -/
theorem Extends.and_then {x y : Parser α} (h : Extends x y) (f : α → Parser β) :
    Extends (x >>= f) (y >>= f) := h.bind fun _ => extends_refl _

/-! ### Operands and operations -/

/-- One more unit of fuel changes no outcome of the operations. -/
structure OperationsExtend [PatternEngine] (fuel : Nat) : Prop where
  operand : Extends (operand fuel) (operand (fuel + 1))
  operation : Extends (operation fuel) (operation (fuel + 1))
  climb : ∀ left least, Extends (climb fuel left least) (climb (fuel + 1) left least)
  climbRight : ∀ op right, Extends (climbRight fuel op right) (climbRight (fuel + 1) op right)
  list : Extends (operationList fuel) (operationList (fuel + 1))

theorem OperationsExtend.operand_succ (ih : OperationsExtend fuel) :
    Extends (Parser.operand (fuel + 1)) (Parser.operand (fuel + 1 + 1)) := by
  rw [Parser.operand, Parser.operand]
  refine .after peek fun token => ?_
  cases token.kind with
  | lparen => exact .after next fun _ => .after takeComment fun _ => ih.operation.and_then _
  | ident =>
    refine .after isCall fun called => .ite _ ?_ (extends_refl _)
    exact .after (expect .ident) fun _ => .after (expect .lparen) fun _ => ih.list.and_then _
  | binary op =>
    cases op with
    | subtract => exact .after next fun _ => ih.operand.and_then _
    | _ => exact extends_refl _
  | not => exact .after next fun _ => ih.operand.and_then _
  | _ => exact extends_refl _

theorem OperationsExtend.operation_succ (ih : OperationsExtend fuel) :
    Extends (Parser.operation (fuel + 1)) (Parser.operation (fuel + 1 + 1)) := by
  rw [Parser.operation, Parser.operation]
  exact ih.operand.bind fun _ => ih.climb _ _

theorem OperationsExtend.climb_succ (ih : OperationsExtend fuel) (left : Node) (least : Nat) :
    Extends (Parser.climb (fuel + 1) left least) (Parser.climb (fuel + 1 + 1) left least) := by
  rw [Parser.climb, Parser.climb]
  refine .after (peekOperator least) fun op? => ?_
  cases op? with
  | none => exact extends_refl _
  | some op =>
    refine .after next fun _ => .after takeComment fun _ => ?_
    refine ih.operand.bind fun _ => (ih.climbRight op _).bind fun _ => ?_
    exact .after (breaksBetween _ _) fun _ => .after (locate _) fun _ => ih.climb _ _

theorem OperationsExtend.climbRight_succ (ih : OperationsExtend fuel) (op : BinaryOp)
    (right : Node) :
    Extends (Parser.climbRight (fuel + 1) op right)
      (Parser.climbRight (fuel + 1 + 1) op right) := by
  rw [Parser.climbRight, Parser.climbRight]
  refine .after (peekOperator _) fun tighter? => ?_
  cases tighter? with
  | none => exact extends_refl _
  | some tighter => exact (ih.climb _ _).bind fun _ => ih.climbRight _ _

/-- A list, whatever its elements are. -/
theorem Extends.list {close : TokenKind} {x y : Parser β} {xs ys : Parser (List β)}
    (h : Extends x y) (hs : Extends xs ys) :
    Extends
      (do
        if (← peek).kind = close then return []
        let first ← x
        if (← next).kind = .comma then return first :: (← xs)
        else
          backup
          return [first])
      (do
        if (← peek).kind = close then return []
        let first ← y
        if (← next).kind = .comma then return first :: (← ys)
        else
          backup
          return [first]) := by
  refine .after peek fun _ => .ite _ (extends_refl _) ?_
  exact h.bind fun _ => .after next fun _ => .ite _ (hs.and_then _) (extends_refl _)

theorem OperationsExtend.list_succ (ih : OperationsExtend fuel) :
    Extends (Parser.operationList (fuel + 1)) (Parser.operationList (fuel + 1 + 1)) := by
  rw [Parser.operationList, Parser.operationList]
  exact ih.operation.list ih.list

theorem operationsExtend [PatternEngine] (fuel : Nat) : OperationsExtend fuel := by
  induction fuel with
  | zero =>
    exact ⟨extends_exhausted _, extends_exhausted _, fun _ _ => extends_exhausted _,
      fun _ _ => extends_exhausted _, extends_exhausted _⟩
  | succ fuel ih =>
    exact ⟨ih.operand_succ, ih.operation_succ, ih.climb_succ, ih.climbRight_succ, ih.list_succ⟩

/-! ### Expressions -/

theorem extends_itemList (fuel : Nat) : Extends (itemList fuel) (itemList (fuel + 1)) := by
  induction fuel with
  | zero => exact extends_exhausted _
  | succ fuel ih =>
    rw [itemList, itemList]
    exact (extends_refl item).list ih

/-- One more unit of fuel changes no outcome of the expressions. -/
structure ExpressionsExtend [PatternEngine] (fuel : Nat) : Prop where
  expression : Extends (expression fuel) (expression (fuel + 1))
  chain : ∀ left, Extends (chain fuel left) (chain (fuel + 1) left)
  step : ∀ op, Extends (step fuel op) (step (fuel + 1) op)
  function : ∀ kind, Extends (function fuel kind) (function (fuel + 1) kind)
  list : Extends (expressionList fuel) (expressionList (fuel + 1))

theorem ExpressionsExtend.expression_succ (ih : ExpressionsExtend fuel) :
    Extends (Parser.expression (fuel + 1)) (Parser.expression (fuel + 1 + 1)) := by
  rw [Parser.expression, Parser.expression]
  have operations := operationsExtend fuel
  refine .after peek fun token => ?_
  cases token.kind with
  | ident =>
    refine .after next fun _ => .after peek fun _ => .after backup fun _ => ?_
    refine .ite _ ?_ (.ite _ ?_ operations.operation)
    · refine (ih.function _).bind fun first => .after peek fun _ => ?_
      exact .ite _ (ih.chain first) (operations.climb first 0)
    · exact .after identifier fun _ => ih.chain _
  | lambda => exact .after next fun _ => .after (infoOf _) fun _ => operations.operation.and_then _
  | lbracket =>
    exact .after (expect .lbracket) fun _ => .after (infoOf _) fun _ =>
      (extends_itemList fuel).and_then _
  | _ => exact operations.operation

theorem ExpressionsExtend.chain_succ (ih : ExpressionsExtend fuel) (left : Node) :
    Extends (Parser.chain (fuel + 1) left) (Parser.chain (fuel + 1 + 1) left) := by
  rw [Parser.chain, Parser.chain]
  refine .after peek fun token => ?_
  cases token.kind with
  | chain op =>
    refine .after next fun _ => .after takeComment fun _ => (ih.step op).bind fun _ => ?_
    exact .after (locate _) fun _ => ih.chain _
  | _ => exact extends_refl _

theorem ExpressionsExtend.step_succ (ih : ExpressionsExtend fuel) (op : ChainOp) :
    Extends (Parser.step (fuel + 1) op) (Parser.step (fuel + 1 + 1) op) := by
  rw [Parser.step, Parser.step]
  refine .after next fun _ => ?_
  have hback (called : Bool) := Extends.after backup fun _ =>
    Extends.ite (called = true) (ih.function (CallKind.ofChain op))
      (extends_refl (do return Node.identifier (← identifier)))
  refine .ite _ ?_ ?_
  · exact .after (pure true) hback
  · exact .after peek fun _ => .after (pure _) hback

theorem ExpressionsExtend.function_succ (ih : ExpressionsExtend fuel) (kind : CallKind) :
    Extends (Parser.function (fuel + 1) kind) (Parser.function (fuel + 1 + 1) kind) := by
  rw [Parser.function, Parser.function]
  exact .after (expect .ident) fun _ => .after takeComment fun _ => .after (expect .lparen) fun _ =>
    ih.list.and_then _

theorem ExpressionsExtend.list_succ (ih : ExpressionsExtend fuel) :
    Extends (Parser.expressionList (fuel + 1)) (Parser.expressionList (fuel + 1 + 1)) := by
  rw [Parser.expressionList, Parser.expressionList]
  exact ih.expression.list ih.list

theorem expressionsExtend (fuel : Nat) : ExpressionsExtend fuel := by
  induction fuel with
  | zero =>
    exact ⟨extends_exhausted _, fun _ => extends_exhausted _, fun _ => extends_exhausted _,
      fun _ => extends_exhausted _, extends_exhausted _⟩
  | succ fuel ih =>
    exact ⟨ih.expression_succ, ih.chain_succ, ih.step_succ, ih.function_succ, ih.list_succ⟩

/-! ### Programs -/

theorem extends_statement (fuel : Nat) : Extends (statement fuel) (statement (fuel + 1)) := by
  have hexpression := (expressionsExtend fuel).expression
  refine .after peek fun _ => .ite _ ?_ hexpression
  refine .after (expect .var) fun _ => .after takeComment fun _ => .after identifier fun _ => ?_
  refine .after (locate _) fun _ => .after peek fun _ => .ite _ ?_ (extends_refl _)
  exact .after (expect .assign) fun _ => hexpression.and_then _

theorem extends_statements (fuel : Nat) : Extends (statements fuel) (statements (fuel + 1)) := by
  induction fuel with
  | zero => exact extends_exhausted _
  | succ fuel ih =>
    rw [statements, statements]
    refine .after peek fun _ => .ite _ (extends_refl _) ?_
    exact (extends_statement fuel).bind fun _ => ih.and_then _

end

end Parser

/-! ## Enough fuel -/

namespace ParserCall

open PipelineScript.Parser

theorem extends_within (call : ParserCall) (fuel : Nat) :
    Extends (call.within fun _ => fuel) (call.within fun _ => fuel + 1) := by
  cases call with
  | program =>
    exact .after (locate 0) fun _ => (extends_statements fuel).and_then _
  | lambda => exact (operationsExtend fuel).operation.and_then _

/-- With more fuel a call ends the same way. -/
theorem within_of_le {call : ParserCall} {fuel fuel' : Nat} {s : Lookahead} (hle : fuel ≤ fuel')
    (h : ∀ s', call.within (fun _ => fuel) s ≠ .error .exhausted s') :
    call.within (fun _ => fuel') s = call.within (fun _ => fuel) s := by
  induction hle with
  | refl => rfl
  | @step fuel' _ ih =>
    rw [← ih]
    exact extends_within call fuel' s (by rwa [ih])

/-- Four for each token and four on top are enough. -/
theorem ample_within [PatternEngine] (call : ParserCall) {source : List Char} {fuel : Nat}
    (hf : 4 * (slotsIn source).length + 4 ≤ fuel) :
    Ample False (call.within (fun _ => fuel) (.ofSource source)) := by
  cases call with
  | program =>
    show Ample False (programWithin fuel _)
    rw [programWithin, bind_ok (locate_at (Lookahead.ofSource_at source) 0)]
    exact ample_statements_to_end hf _
  | lambda => exact ample_operation_to_end hf fun position body => .lambda ⟨position, none⟩ body

/-- A call with enough fuel ends as the parser does. -/
theorem within_of_enough (call : ParserCall) {source : List Char} {fuel : Nat}
    (hf : 4 * (slotsIn source).length + 4 ≤ fuel) :
    call.within (fun _ => fuel) (.ofSource source) = call.parser (.ofSource source) := by
  have hlen := Lookahead.length_slotsIn_le source
  have henough {fuel : Nat} (hf : 4 * (slotsIn source).length + 4 ≤ fuel) (s' : Lookahead) :
      call.within (fun _ => fuel) (.ofSource source) ≠ .error .exhausted s' :=
    fun h => (call.ample_within hf _ _ h).ne_exhausted rfl
  have hleast := henough (Nat.le_refl _)
  have hown : call.parser (.ofSource source) =
      call.within (fun _ => (Lookahead.ofSource source).fuel) (.ofSource source) := by
    rw [← call.within_fuel]
    cases call <;> rfl
  rw [hown]
  exact (within_of_le hf hleast).trans (within_of_le (by omega) hleast).symm

/-- Two calls on the same tokens have outcomes that agree. -/
theorem inStep_within [PatternEngine] (e : Ends) (call : ParserCall) (fuel : Nat) :
    InStep e Whatever (call.within fun _ => fuel) (call.within fun _ => fuel) := by
  cases call with
  | program =>
    exact (inStep_locate 0 0).bind fun _ _ _ => inStep_statements.bind fun _ _ _ =>
      (inStep_expect _).bind fun _ _ _ => inStep_pure trivial
  | lambda =>
    exact (operationsInStep e fuel fuel).operation.bind fun _ _ _ =>
      (inStep_locate 0 0).bind fun _ _ _ => (inStep_expect _).bind fun _ _ _ => inStep_pure trivial

/-- A call comes to a tree, to a rejection, or to where the tokens stop without an end. -/
theorem runOn_cases (call : ParserCall) (source : String) :
    (∃ n, call.parser.runOn (.ofSource source.toList) = .ok n) ∨
      (∃ e, call.parser.runOn (.ofSource source.toList) = .error (.rejected e)) ∨
      (tokenize source).ending ≠ .ended ∧
        call.parser.runOn (.ofSource source.toList) =
          .error (.interrupted (tokenize source).ending) := by
  have henough := Nat.le_refl (4 * (slotsIn source.toList).length + 4)
  have hample := call.ample_within henough
  have hagree := inStep_within (.ofSource source) call
    (4 * (slotsIn source.toList).length + 4) (SameTokens.refl source).twins
  rw [call.within_of_enough henough] at hample hagree
  -- An endless stream is cut off without having come to an end.
  have hcut (h : (Ends.ofSource source).cut) : (tokenize source).ending ≠ .ended := by
    rw [show (tokenize source).ending = .endless from h]
    simp
  rw [Parser.runOn]
  generalize call.parser (.ofSource source.toList) = r at hample hagree
  cases hagree with
  | ok _ _ => exact .inl ⟨_, rfl⟩
  | rejected _ => exact .inr (.inl ⟨_, rfl⟩)
  | interrupted hne => exact .inr (.inr ⟨hne, rfl⟩)
  | cutLeft h => exact .inr (.inr ⟨hcut h, rfl⟩)
  | cutRight h => exact .inr (.inr ⟨hcut h, rfl⟩)
  | exhaustedLeft => exact absurd rfl (hample _ _ rfl).ne_exhausted
  | exhaustedRight => exact absurd rfl (hample _ _ rfl).ne_exhausted

/-- A call comes to a tree or to a rejection, when the tokens come to an end. -/
theorem runOn_cases_of_ended (call : ParserCall) {source : String}
    (h : (tokenize source).ending = .ended) :
    (∃ n, call.parser.runOn (.ofSource source.toList) = .ok n) ∨
      ∃ e, call.parser.runOn (.ofSource source.toList) = .error (.rejected e) :=
  (call.runOn_cases source).imp_right fun hrest => hrest.resolve_right fun hstops => hstops.1 h

end ParserCall

end PipelineScript

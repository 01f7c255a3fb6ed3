import PipelineScript.Proofs.Cursor
import PipelineScript.Parse.Program

/-!
What a rejection is about.

A script is rejected at a token: one that the grammar does not allow where it stands, or a number,
a duration or a regex without a value. The parser holds on to tokens while it looks ahead and puts
them back, so it is to be shown that the token it blames is one that the stream of the script has,
or the end of the text (`exists_blamed_of_parse`, `exists_blamed_of_parseLambda`).

`Grounded` is a triple: a condition on the reader before a parser, and one on the result and one on
the reader behind it. There is one lemma for each function of the parser, and the functions that
call each other are proved together, by induction on the fuel.
-/
namespace PipelineScript

variable {engine : PatternEngine}

/-! ## Blame -/

/-- What a diagnostic calls a token. -/
def Token.found (t : Token) : String := if t.kind = .error then t.text else t.kind.describe

/-- Why a script is rejected at a token. -/
inductive Token.Blamed [PatternEngine] (t : Token) : ParseCause → Prop where
  | unexpected (kinds : List TokenKind) : Blamed t (.unexpected t.found kinds)
  | number {e : NodeError} (hk : t.kind = .number) (h : Number.ofText t.text = .error e) :
      Blamed t (.literal e)
  | duration {info : Info} {e : NodeError} (hk : t.kind = .duration)
      (h : Node.durationOfText info t.text = .error e) : Blamed t (.literal e)
  | regex {info : Info} {e : NodeError} (hk : t.kind = .regex)
      (h : Node.regexOfText info t.text = .error e) : Blamed t (.literal e)

/-- A rejection is about a token: its cause, and the place and the text around it. -/
structure ParseError.Blames [PatternEngine] (bytes : List UInt8) (e : ParseError) (t : Token) :
    Prop where
  blamed : t.Blamed e.cause
  position_eq : e.position = .locate bytes t.offset
  snippet_eq : e.snippet = snippetAt bytes t.offset

/-- The tokens that a parser of a script can meet: those of its stream, and the end of the text. -/
def scriptTokens (source : List Char) : List Token :=
  (TokenStream.ofSource source).tokens ++ [endOfText (Text.bytes source)]

/-- A rejection blames a token of the script. -/
def ParseFailure.Grounded [PatternEngine] (source : List Char) (f : ParseFailure) : Prop :=
  ∀ e, f = .rejected e → ∃ t ∈ scriptTokens source, e.Blames (Text.bytes source) t

/-! ## The tokens that a reader gives out -/

namespace Lookahead

/-- What a reader of a script may still give out: tokens of the script. -/
structure Offers (source : List Char) (s : Lookahead) : Prop where
  bytes_eq : s.bytes = Text.bytes source
  pending : ∀ t ∈ s.pending, t ∈ scriptTokens source
  newest : 1 ≤ s.held → s.newest.token ∈ scriptTokens source
  older : 2 ≤ s.held → s.older.token ∈ scriptTokens source

/-- The token that was given out last may be put back. -/
structure Returns (source : List Char) (s : Lookahead) : Prop where
  offers : s.Offers source
  offers_backup : s.backup.Offers source

variable {source : List Char} {s s' : Lookahead} {t : Token}

theorem offers_ofSource : (ofSource source).Offers source where
  bytes_eq := rfl
  pending := fun _ ht => List.mem_append_left _ ht
  newest := fun h => absurd h (by simp [ofSource])
  older := fun h => absurd h (by simp [ofSource])

theorem Offers.fetch {slot : Slot} {pending : List Token} (h : s.Offers source)
    (hf : s.fetch = .ok (slot, pending)) :
    slot.token ∈ scriptTokens source ∧ ∀ t ∈ pending, t ∈ scriptTokens source := by
  have hmem : ∀ t ∈ s.pending.dropWhile isComment, t ∈ scriptTokens source :=
    fun t ht => h.pending t ((List.dropWhile_suffix _).subset ht)
  simp only [Lookahead.fetch] at hf
  split at hf
  · rename_i t rest hrest
    cases hf
    rwa [hrest, List.forall_mem_cons] at hmem
  · split at hf
    · cases hf
      refine ⟨?_, by simp⟩
      simp [scriptTokens, endOfText, h.bytes_eq]
    · cases hf

theorem Offers.next (h : s.Offers source) (hs : s.next = .ok (t, s')) :
    t ∈ scriptTokens source ∧ s'.Returns source := by
  match hheld : s.held with
  | 0 =>
    simp only [Lookahead.next, hheld] at hs
    split at hs
    · rename_i slot pending hfetch
      cases hs
      obtain ⟨ht, hpending⟩ := h.fetch hfetch
      exact ⟨ht, ⟨h.bytes_eq, hpending, fun _ => ht, by simp⟩,
        ⟨h.bytes_eq, hpending, fun _ => ht, by simp [backup]⟩⟩
    · cases hs
  | 1 =>
    simp only [Lookahead.next, hheld, given] at hs
    cases hs
    have ht := h.newest (by omega)
    exact ⟨ht, ⟨h.bytes_eq, h.pending, fun _ => ht, by simp⟩,
      ⟨h.bytes_eq, h.pending, fun _ => ht, by simp [backup]⟩⟩
  | n + 2 =>
    simp only [Lookahead.next, hheld, given] at hs
    cases hs
    have hnew := h.newest (by omega)
    have hold := h.older (by omega)
    exact ⟨hold, ⟨h.bytes_eq, h.pending, fun _ => hnew, fun _ => hold⟩,
      ⟨h.bytes_eq, h.pending, fun _ => hnew, fun _ => hold⟩⟩

theorem Offers.peek (h : s.Offers source) (hs : s.peek = .ok (t, s')) :
    t ∈ scriptTokens source ∧ s'.Offers source := by
  match hheld : s.held with
  | 0 =>
    simp only [Lookahead.peek, hheld] at hs
    split at hs
    · rename_i slot pending hfetch
      cases hs
      obtain ⟨ht, hpending⟩ := h.fetch hfetch
      exact ⟨ht, h.bytes_eq, hpending, fun _ => ht, by simp⟩
    · cases hs
  | 1 =>
    simp only [Lookahead.peek, hheld] at hs
    cases hs
    exact ⟨h.newest (by omega), h⟩
  | n + 2 =>
    simp only [Lookahead.peek, hheld] at hs
    cases hs
    exact ⟨h.older (by omega), h⟩

/-- A token that may be put back may still be when the one behind it has been looked at. -/
theorem Returns.peek (h : s.Returns source) (hs : s.peek = .ok (t, s')) : s'.Returns source := by
  refine ⟨(h.offers.peek hs).2, ?_⟩
  match hheld : s.held with
  | 0 =>
    have hlast : s.newest.token ∈ scriptTokens source :=
      h.offers_backup.newest (by simp [backup, hheld])
    simp only [Lookahead.peek, hheld] at hs
    split at hs
    · rename_i slot pending hfetch
      cases hs
      obtain ⟨ht, hpending⟩ := h.offers.fetch hfetch
      exact ⟨h.offers.bytes_eq, hpending, fun _ => ht, fun _ => hlast⟩
    · cases hs
  | 1 | n + 2 =>
    simp only [Lookahead.peek, hheld] at hs
    cases hs
    exact h.offers_backup

theorem Offers.takeComment (h : s.Offers source) : s.takeComment.2.Offers source := by
  obtain ⟨hbytes, hpending, hnewest, holder⟩ := h
  rw [Lookahead.takeComment]
  split <;> exact ⟨hbytes, hpending, hnewest, holder⟩

theorem Offers.takeRest (h : s.Offers source) : s.takeRest.2.Offers source := by
  obtain ⟨hbytes, hpending, hnewest, holder⟩ := h
  exact ⟨hbytes, hpending, hnewest, holder⟩

end Lookahead

/-! ## Grounded parsers -/

/-- From a reader of which `pre` holds, a parser comes to a result of which `R` holds and leaves a
reader of which `post` holds, or it fails; if it rejects, it blames a token of the script. -/
def GroundedFrom [PatternEngine] (source : List Char) (pre : Lookahead → Prop) {α : Type}
    (x : Parser α) (R : α → Prop) (post : Lookahead → Prop) : Prop :=
  ∀ ⦃s⦄, pre s →
    match x s with
    | .ok a s' => R a ∧ post s'
    | .error f _ => f.Grounded source

/-- From any reader of the script, a parser leaves one of the script, or fails as it may. -/
abbrev Grounded [PatternEngine] (source : List Char) {α : Type} (x : Parser α) : Prop :=
  GroundedFrom source (Lookahead.Offers source) x (fun _ => True) (Lookahead.Offers source)

section

open PipelineScript.Parser PipelineScript.Lookahead

variable {source : List Char} {pre mid post : Lookahead → Prop} {α β : Type} {R : α → Prop}
  {T : β → Prop} {t : Token} {fuel : Nat}

theorem GroundedFrom.bind {x : Parser α} {f : α → Parser β} (hx : GroundedFrom source pre x R mid)
    (hf : ∀ a, R a → GroundedFrom source mid (f a) T post) :
    GroundedFrom source pre (x >>= f) T post := by
  intro s hs
  have h := hx hs
  simp only [Bind.bind, EStateM.bind]
  cases hr : x s with
  | ok a s₁ =>
    rw [hr] at h
    exact hf a h.1 h.2
  | error e s₁ =>
    rw [hr] at h
    exact h

/-- A parser of whose result nothing is known, and what follows it. -/
theorem GroundedFrom.and_then {x : Parser α} {f : α → Parser β}
    (hx : GroundedFrom source pre x (fun _ => True) mid)
    (hf : ∀ a, GroundedFrom source mid (f a) T post) : GroundedFrom source pre (x >>= f) T post :=
  hx.bind fun a _ => hf a

/-- Less may be said of the result and of the reader behind it. -/
theorem GroundedFrom.mono {x : Parser α} {S : α → Prop} {post' : Lookahead → Prop}
    (h : GroundedFrom source pre x R post) (hR : ∀ a, R a → S a) (hp : ∀ s, post s → post' s) :
    GroundedFrom source pre x S post' := by
  intro s hs
  have h := h hs
  cases hx : x s with
  | ok a s' =>
    rw [hx] at h
    exact ⟨hR a h.1, hp s' h.2⟩
  | error e s' =>
    rw [hx] at h
    exact h

theorem GroundedFrom.of_returns {x : Parser α} (h : GroundedFrom source (Offers source) x R post) :
    GroundedFrom source (Returns source) x R post :=
  fun _ hs => h hs.offers

theorem grounded_pure (a : α) : Grounded source (pure a) := fun _ hs => ⟨trivial, hs⟩

theorem grounded_exhausted : Grounded source (throw .exhausted : Parser α) := by
  intro s _ e he
  cases he

/-- A parser that only asks the reader something. -/
theorem grounded_still {x : Parser α} (h : ∀ s, ∃ a, x s = .ok a s) : Grounded source x := by
  intro s hs
  obtain ⟨a, hx⟩ := h s
  rw [hx]
  exact ⟨trivial, hs⟩

/-! ### Steps -/

theorem grounded_ofStep {name : α → BufferStep}
    {step : Lookahead → Except StreamEnd (α × Lookahead)}
    (h : ∀ s a s', pre s → step s = .ok (a, s') → R a ∧ post s') :
    GroundedFrom source pre (ofStep name step) R post := by
  intro s hs
  cases hstep : step s with
  | ok r =>
    rw [ofStep_ok hstep]
    exact h s r.1 r.2 hs hstep
  | error ending =>
    rw [ofStep_error hstep]
    intro e he
    cases he

/-- A token of the script is taken and may be put back. -/
theorem grounded_next_returns :
    GroundedFrom source (Offers source) next (· ∈ scriptTokens source) (Returns source) :=
  grounded_ofStep fun _ _ _ hs => hs.next

theorem grounded_next : Grounded source next :=
  grounded_next_returns.mono (fun _ _ => trivial) fun _ h => h.offers

theorem grounded_peek :
    GroundedFrom source (Offers source) peek (· ∈ scriptTokens source) (Offers source) :=
  grounded_ofStep fun _ _ _ hs => hs.peek

theorem grounded_peek_returns :
    GroundedFrom source (Returns source) peek (fun _ => True) (Returns source) :=
  grounded_ofStep fun _ _ _ hs h => ⟨trivial, hs.peek h⟩

theorem grounded_backup :
    GroundedFrom source (Returns source) backup (fun _ => True) (Offers source) :=
  fun _ hs => ⟨trivial, hs.offers_backup⟩

theorem grounded_takeComment : Grounded source takeComment :=
  fun _ hs => ⟨trivial, hs.takeComment⟩

theorem grounded_trailingComments : Grounded source trailingComments :=
  fun _ hs => ⟨trivial, hs.takeRest⟩

theorem grounded_locate (offset : Nat) : Grounded source (locate offset) :=
  grounded_still fun _ => ⟨_, rfl⟩

theorem grounded_breaksBetween (start stop : Nat) : Grounded source (breaksBetween start stop) :=
  grounded_still fun _ => ⟨_, rfl⟩

theorem grounded_call (token : Token) (kind : CallKind) (comment : Option Comment)
    (args : List Node) : Grounded source (call token kind comment args) := by
  refine grounded_still fun s => ?_
  rw [call]
  cases args.getLast? <;> exact ⟨_, rfl⟩

theorem grounded_reject {cause : ParseCause} (ht : t ∈ scriptTokens source) (hb : t.Blamed cause) :
    GroundedFrom source (Offers source) (reject t cause) R post := by
  intro s hs e he
  cases he
  rw [TokenReader.buffer_lookahead, hs.bytes_eq]
  exact ⟨t, ht, hb, rfl, rfl⟩

theorem grounded_unexpected (ht : t ∈ scriptTokens source) (kinds : List TokenKind) :
    GroundedFrom source (Offers source) (unexpected t kinds) R post :=
  grounded_reject ht (.unexpected kinds)

/-- A literal without a value is to blame. -/
theorem grounded_literal {value : Except NodeError α} (ht : t ∈ scriptTokens source)
    (hb : ∀ e, value = .error e → t.Blamed (.literal e)) : Grounded source (literal t value) := by
  cases value with
  | ok a => exact grounded_pure a
  | error e => exact grounded_reject ht (hb e rfl)

/-! ### Tokens -/

theorem grounded_infoOf (token : Token) : Grounded source (infoOf token) :=
  grounded_takeComment.and_then fun _ => (grounded_locate _).and_then fun _ => grounded_pure _

theorem grounded_expect_token (kind : TokenKind) :
    GroundedFrom source (Offers source) (expect kind)
      (fun t => t ∈ scriptTokens source ∧ t.kind = kind) (Offers source) := by
  refine grounded_next_returns.bind fun t ht => GroundedFrom.of_returns ?_
  by_cases hk : t.kind = kind
  · rw [if_pos hk]
    exact fun _ hs => ⟨⟨ht, hk⟩, hs⟩
  · rw [if_neg hk]
    exact grounded_unexpected ht [kind]

theorem grounded_expect (kind : TokenKind) : Grounded source (expect kind) :=
  (grounded_expect_token kind).mono (fun _ _ => trivial) fun _ h => h

theorem grounded_identifier : Grounded source identifier :=
  (grounded_expect _).and_then fun _ => (grounded_infoOf _).and_then fun _ => grounded_pure _

theorem grounded_name {f : Identifier → β} : Grounded source (do return f (← identifier)) :=
  grounded_identifier.and_then fun _ => grounded_pure _

theorem grounded_string : Grounded source string := by
  refine (grounded_expect _).and_then fun token => (grounded_infoOf _).and_then fun info => ?_
  cases Node.stringOfText? info token.text with
  | some node => exact grounded_pure node
  | none =>
    intro s _ e he
    cases he

theorem grounded_star : Grounded source star :=
  (grounded_expect _).and_then fun _ => (grounded_infoOf _).and_then fun _ => grounded_pure _

theorem grounded_isCall : Grounded source isCall :=
  grounded_next_returns.bind fun _ _ => grounded_peek_returns.and_then fun _ =>
    grounded_backup.and_then fun _ => grounded_pure _

theorem grounded_peekOperator (least : Nat) : Grounded source (peekOperator least) :=
  grounded_peek.bind fun _ _ => grounded_pure _

/-- Behind an item of a list a comma is taken, and anything else is put back. -/
theorem grounded_comma {x y : Parser α} (hx : Grounded source x) (hy : Grounded source y) :
    Grounded source (do
      if (← next).kind = .comma then x
      else
        backup
        y) := by
  refine grounded_next_returns.bind fun token _ => ?_
  by_cases hc : token.kind = .comma
  · simp only [if_pos hc]
    exact hx.of_returns
  · simp only [if_neg hc]
    exact grounded_backup.and_then fun _ => hy

/-! ### Operands and operations -/

/-- With this fuel the operations are grounded. -/
structure OperationsGrounded [PatternEngine] (source : List Char) (fuel : Nat) : Prop where
  operand : Grounded source (operand fuel)
  operation : Grounded source (operation fuel)
  climb : ∀ left least, Grounded source (climb fuel left least)
  climbRight : ∀ op right, Grounded source (climbRight fuel op right)
  list : Grounded source (operationList fuel)

theorem OperationsGrounded.unary (ih : OperationsGrounded source fuel) (token : Token)
    (op : UnaryOp) :
    Grounded source (do
      let _ ← next
      let inner ← Parser.operand fuel
      return Node.unary (← infoOf token) op inner) :=
  grounded_next.and_then fun _ => ih.operand.and_then fun _ =>
    (grounded_infoOf _).and_then fun _ => grounded_pure _

theorem OperationsGrounded.operand_succ (ih : OperationsGrounded source fuel) :
    Grounded source (Parser.operand (fuel + 1)) := by
  rw [Parser.operand]
  refine grounded_peek.bind fun token htoken => ?_
  cases token.kind with
  | lparen =>
    refine grounded_next.and_then fun _ => grounded_takeComment.and_then fun _ => ?_
    exact ih.operation.and_then fun _ => (grounded_expect _).and_then fun _ => grounded_pure _
  | number =>
    refine (grounded_expect_token _).bind fun t ht => (grounded_infoOf _).and_then fun _ => ?_
    exact (grounded_literal ht.1 fun _ => .number ht.2).and_then fun _ => grounded_pure _
  | string => exact grounded_string
  | bool value =>
    exact grounded_next.and_then fun _ => (grounded_infoOf _).and_then fun _ => grounded_pure _
  | duration =>
    refine (grounded_expect_token _).bind fun t ht => (grounded_infoOf _).and_then fun _ => ?_
    exact grounded_literal ht.1 fun _ => .duration ht.2
  | regex =>
    refine (grounded_expect_token _).bind fun t ht => (grounded_infoOf _).and_then fun _ => ?_
    exact grounded_literal ht.1 fun _ => .regex ht.2
  | star => exact grounded_star
  | reference =>
    exact (grounded_expect _).and_then fun _ => (grounded_infoOf _).and_then fun _ =>
      grounded_pure _
  | ident =>
    refine grounded_isCall.and_then fun called => ?_
    cases called with
    | false => exact grounded_name
    | true =>
      refine (grounded_expect _).and_then fun _ => (grounded_expect _).and_then fun _ => ?_
      exact ih.list.and_then fun _ => (grounded_expect _).and_then fun _ => grounded_call _ _ _ _
  | binary op =>
    cases op with
    | subtract => exact ih.unary token .negate
    | _ => exact grounded_unexpected htoken operandKinds
  | not => exact ih.unary token .not
  | _ => exact grounded_unexpected htoken operandKinds

theorem OperationsGrounded.operation_succ (ih : OperationsGrounded source fuel) :
    Grounded source (Parser.operation (fuel + 1)) := by
  rw [Parser.operation]
  exact ih.operand.and_then fun _ => ih.climb _ _

theorem OperationsGrounded.climb_succ (ih : OperationsGrounded source fuel) (left : Node)
    (least : Nat) : Grounded source (Parser.climb (fuel + 1) left least) := by
  rw [Parser.climb]
  refine (grounded_peekOperator least).and_then fun op? => ?_
  cases op? with
  | none => exact grounded_pure _
  | some op =>
    refine grounded_next.and_then fun _ => grounded_takeComment.and_then fun _ => ?_
    refine ih.operand.and_then fun _ => (ih.climbRight _ _).and_then fun _ => ?_
    exact (grounded_breaksBetween _ _).and_then fun _ => (grounded_locate _).and_then fun _ =>
      ih.climb _ _

theorem OperationsGrounded.climbRight_succ (ih : OperationsGrounded source fuel) (op : BinaryOp)
    (right : Node) : Grounded source (Parser.climbRight (fuel + 1) op right) := by
  rw [Parser.climbRight]
  refine (grounded_peekOperator _).and_then fun tighter? => ?_
  cases tighter? with
  | none => exact grounded_pure _
  | some tighter => exact (ih.climb _ _).and_then fun _ => ih.climbRight _ _

theorem OperationsGrounded.list_succ (ih : OperationsGrounded source fuel) :
    Grounded source (Parser.operationList (fuel + 1)) := by
  rw [Parser.operationList]
  refine grounded_peek.bind fun token _ => ?_
  split
  · exact grounded_pure []
  · refine ih.operation.and_then fun arg => grounded_comma ?_ (grounded_pure [arg])
    exact ih.list.and_then fun _ => grounded_pure _

theorem operationsGrounded [PatternEngine] (source : List Char) (fuel : Nat) :
    OperationsGrounded source fuel := by
  induction fuel with
  | zero =>
    exact ⟨grounded_exhausted, grounded_exhausted, fun _ _ => grounded_exhausted,
      fun _ _ => grounded_exhausted, grounded_exhausted⟩
  | succ fuel ih =>
    exact ⟨ih.operand_succ, ih.operation_succ, ih.climb_succ, ih.climbRight_succ, ih.list_succ⟩

/-! ### Expressions -/

theorem grounded_item : Grounded source item := by
  refine grounded_peek.bind fun token htoken => ?_
  cases token.kind with
  | ident => exact grounded_name
  | string => exact grounded_string
  | star => exact grounded_star
  | _ => exact grounded_unexpected htoken itemKinds

theorem grounded_itemList (fuel : Nat) : Grounded source (itemList fuel) := by
  induction fuel with
  | zero => exact grounded_exhausted
  | succ fuel ih =>
    rw [itemList]
    refine grounded_peek.bind fun token _ => ?_
    split
    · exact grounded_pure []
    · refine grounded_item.and_then fun first => grounded_comma ?_ (grounded_pure [first])
      exact ih.and_then fun _ => grounded_pure _

theorem grounded_list (fuel : Nat) : Grounded source (Parser.list fuel) :=
  (grounded_expect _).and_then fun _ => (grounded_infoOf _).and_then fun _ =>
    (grounded_itemList fuel).and_then fun _ => (grounded_expect _).and_then fun _ =>
      grounded_pure _

theorem grounded_lambda (fuel : Nat) : Grounded source (lambda fuel) :=
  grounded_next.and_then fun _ => (grounded_infoOf _).and_then fun _ =>
    (operationsGrounded source fuel).operation.and_then fun _ => grounded_pure _

/-- With this fuel the expressions are grounded. -/
structure ExpressionsGrounded [PatternEngine] (source : List Char) (fuel : Nat) : Prop where
  expression : Grounded source (expression fuel)
  chain : ∀ left, Grounded source (chain fuel left)
  step : ∀ op, Grounded source (step fuel op)
  function : ∀ kind, Grounded source (function fuel kind)
  list : Grounded source (expressionList fuel)

theorem ExpressionsGrounded.expression_succ (ih : ExpressionsGrounded source fuel) :
    Grounded source (Parser.expression (fuel + 1)) := by
  rw [Parser.expression]
  have operations := operationsGrounded source fuel
  refine grounded_peek.bind fun token _ => ?_
  cases token.kind with
  | ident =>
    refine grounded_next_returns.bind fun _ _ => grounded_peek_returns.and_then fun behind => ?_
    refine grounded_backup.and_then fun _ => ?_
    split
    · refine (ih.function _).and_then fun first => grounded_peek.bind fun after _ => ?_
      split
      · exact ih.chain first
      · exact operations.climb first 0
    · split
      · exact grounded_identifier.and_then fun _ => ih.chain _
      · exact operations.operation
  | lambda => exact grounded_lambda fuel
  | lbracket => exact grounded_list fuel
  | _ => exact operations.operation

theorem ExpressionsGrounded.chain_succ (ih : ExpressionsGrounded source fuel) (left : Node) :
    Grounded source (Parser.chain (fuel + 1) left) := by
  rw [Parser.chain]
  refine grounded_peek.bind fun token _ => ?_
  cases token.kind with
  | chain op =>
    refine grounded_next.and_then fun _ => grounded_takeComment.and_then fun _ => ?_
    exact (ih.step op).and_then fun _ => (grounded_locate _).and_then fun _ => ih.chain _
  | _ => exact grounded_pure left

theorem ExpressionsGrounded.step_succ (ih : ExpressionsGrounded source fuel) (op : ChainOp) :
    Grounded source (Parser.step (fuel + 1) op) := by
  rw [Parser.step]
  refine grounded_next_returns.bind fun _ _ => ?_
  have hback (called : Bool) :
      GroundedFrom source (Returns source)
        (do
          backup
          if called then Parser.function fuel (CallKind.ofChain op)
          else return .identifier (← identifier))
        (fun _ => True) (Offers source) := by
    refine grounded_backup.and_then fun _ => ?_
    cases called with
    | false => exact grounded_name
    | true => exact ih.function _
  -- a pipe is not looked behind
  by_cases hp : op = .pipe
  · simp only [if_pos hp]
    exact hback true
  · simp only [if_neg hp]
    exact grounded_peek_returns.and_then fun behind => hback (behind.kind == .lparen)

theorem ExpressionsGrounded.function_succ (ih : ExpressionsGrounded source fuel)
    (kind : CallKind) : Grounded source (Parser.function (fuel + 1) kind) := by
  rw [Parser.function]
  refine (grounded_expect _).and_then fun _ => grounded_takeComment.and_then fun _ => ?_
  refine (grounded_expect _).and_then fun _ => ih.list.and_then fun _ => ?_
  exact (grounded_expect _).and_then fun _ => grounded_call _ _ _ _

theorem ExpressionsGrounded.list_succ (ih : ExpressionsGrounded source fuel) :
    Grounded source (Parser.expressionList (fuel + 1)) := by
  rw [Parser.expressionList]
  refine grounded_peek.bind fun token _ => ?_
  split
  · exact grounded_pure []
  · refine ih.expression.and_then fun arg => grounded_comma ?_ (grounded_pure [arg])
    exact ih.list.and_then fun _ => grounded_pure _

theorem expressionsGrounded (source : List Char) (fuel : Nat) :
    ExpressionsGrounded source fuel := by
  induction fuel with
  | zero =>
    exact ⟨grounded_exhausted, fun _ => grounded_exhausted, fun _ => grounded_exhausted,
      fun _ => grounded_exhausted, grounded_exhausted⟩
  | succ fuel ih =>
    exact ⟨ih.expression_succ, ih.chain_succ, ih.step_succ, ih.function_succ, ih.list_succ⟩

/-! ### Programs -/

theorem grounded_declaration (fuel : Nat) : Grounded source (declaration fuel) := by
  refine (grounded_expect _).and_then fun _ => grounded_takeComment.and_then fun _ => ?_
  refine grounded_identifier.and_then fun name => (grounded_locate _).and_then fun _ => ?_
  refine grounded_peek.bind fun token _ => ?_
  split
  · refine (grounded_expect _).and_then fun _ => ?_
    exact (expressionsGrounded source fuel).expression.and_then fun _ => grounded_pure _
  · exact grounded_name

theorem grounded_statement (fuel : Nat) : Grounded source (statement fuel) := by
  refine grounded_peek.bind fun token _ => ?_
  split
  · exact grounded_declaration fuel
  · exact (expressionsGrounded source fuel).expression

theorem grounded_statements (fuel : Nat) : Grounded source (statements fuel) := by
  induction fuel with
  | zero => exact grounded_exhausted
  | succ fuel ih =>
    rw [statements]
    refine grounded_peek.bind fun token _ => ?_
    split
    · exact grounded_trailingComments
    · exact (grounded_statement fuel).and_then fun _ => ih.and_then fun _ => grounded_pure _

theorem grounded_depth : Grounded source depth := grounded_still fun _ => ⟨_, rfl⟩

theorem grounded_program : Grounded source program :=
  (grounded_locate 0).and_then fun _ => grounded_depth.and_then fun _ =>
    (grounded_statements _).and_then fun _ => (grounded_expect _).and_then fun _ =>
      grounded_pure _

theorem grounded_lambdaBody : Grounded source lambdaBody :=
  grounded_depth.and_then fun _ => (operationsGrounded source _).operation.and_then fun _ =>
    (grounded_locate 0).and_then fun _ => (grounded_expect _).and_then fun _ => grounded_pure _

end

/-! ## Whole scripts -/

theorem Grounded.exists_blamed {source : List Char} {α : Type} {x : Parser α} {e : ParseError}
    (hx : Grounded source x) (h : x.runOn (.ofSource source) = .error (.rejected e)) :
    ∃ t ∈ scriptTokens source, e.Blames (Text.bytes source) t := by
  have hstart := hx Lookahead.offers_ofSource
  rw [Parser.runOn] at h
  split at h
  · cases h
  · rename_i f s' hrun
    cases h
    rw [hrun] at hstart
    exact hstart e rfl

/-- **A script is rejected at a token**: one of its stream, or the end of the text. -/
theorem exists_blamed_of_parse {source : String} {e : ParseError}
    (h : parse source = .error (.rejected e)) :
    ∃ t ∈ scriptTokens source.toList, e.Blames (Text.bytes source.toList) t :=
  grounded_program.exists_blamed h

theorem exists_blamed_of_parseLambda {source : String} {e : ParseError}
    (h : parseLambda source = .error (.rejected e)) :
    ∃ t ∈ scriptTokens source.toList, e.Blames (Text.bytes source.toList) t :=
  grounded_lambdaBody.exists_blamed h

/-- A rejection that passes a check is found by running the check. -/
theorem exists_rejected_of_any {α : Type} {x : Except ParseFailure α} {P : ParseError → Bool}
    (h : (match x with
      | .error (.rejected e) => P e
      | _ => false) = true) : ∃ e, x = .error (.rejected e) ∧ P e = true := by
  split at h
  · exact ⟨_, rfl, h⟩
  · cases h

end PipelineScript

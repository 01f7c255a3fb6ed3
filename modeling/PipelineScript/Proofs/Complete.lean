import PipelineScript.Proofs.Grammar

/-!
The parser follows the grammar.

Whatever the grammar reads from the slots ahead, the parser reads with the same result, as long as
its fuel is four for each token of the phrase. The proof is by induction on the fuel, one lemma for
each function of the parser; every lemma assumes that calls with less fuel follow the grammar.
-/
namespace PipelineScript

variable {engine : PatternEngine}

/-- The function of the parser for a phrase gives the tree of the phrase. -/
def Phrase.Runs (fuel : Nat) (s s' : Lookahead) : Phrase → Prop
  | .operand n => Parser.operand fuel s = .ok n s'
  | .operation n => Parser.operation fuel s = .ok n s'
  | .climb least left _ n => Parser.climb fuel left least s = .ok n s'
  | .item n => Parser.item s = .ok n s'
  | .list .operations ns => Parser.operationList fuel s = .ok ns s'
  | .list .expressions ns => Parser.expressionList fuel s = .ok ns s'
  | .list .items ns => Parser.itemList fuel s = .ok ns s'
  | .expression n => Parser.expression fuel s = .ok n s'
  | .chain left _ n => Parser.chain fuel left s = .ok n s'
  | .step op n => Parser.step fuel op s = .ok n s'
  | .call kind n => Parser.function fuel kind s = .ok n s'
  | .statement n => Parser.statement fuel s = .ok n s'
  | .statements _ ns => Parser.statements fuel s = .ok ns s'

/-- Where a reader must stand to read a phrase: one that goes on behind a tree knows the comment
that the tree left. -/
def Phrase.Starts (s : Lookahead) (last : Slot) : Phrase → Prop
  | .climb _ _ comment _ => last.comment = comment ∧ s.held ≤ 1
  | .chain _ comment _ => last.comment = comment ∧ s.held ≤ 1
  | .statements comment _ => last.comment = comment ∧ s.held ≤ 1
  | _ => True

/-- Where a reader stands behind a phrase. Behind a list the closing token is next, and nothing is
asked about the token before it. -/
def Phrase.Ends (s : Lookahead) (last : Slot) (left : Option Comment) : Phrase → Prop
  | .list .. => True
  | _ => last.comment = left ∧ s.held ≤ 1

/-- How much less fuel than four for each token a phrase needs. -/
def Phrase.slack : Phrase → Nat
  | .operand _ => 3
  | .operation _ => 2
  | .expression _ => 1
  | .step .. => 1
  | .call .. => 2
  | .statement _ => 1
  | .item _ => 4
  | _ => 0

/-- The parser reads a phrase from where it stands. -/
def Phrase.Arrives (ph : Phrase) (fuel : Nat) (s : Lookahead) (bytes : List UInt8)
    (ending : StreamEnd) (after : List Slot) (left : Option Comment) : Prop :=
  ∃ s' last, ph.Runs fuel s s' ∧ s'.At bytes ending last after ∧ ph.Ends s' last left

/-- With this fuel the parser follows the grammar. -/
def Follows [PatternEngine] (bytes : List UInt8) (fuel : Nat) : Prop :=
  ∀ {ph : Phrase} {before after : List Slot} {left : Option Comment},
    Reads bytes ph before after left →
    4 * before.length + 1 ≤ fuel + 4 * after.length + ph.slack →
    ∀ {ending : StreamEnd} {s : Lookahead} {last : Slot}, s.At bytes ending last before →
      ph.Starts s last →
      ph.Arrives fuel s bytes ending after left

/-- With this fuel the parser reads the operators that bind more tightly than the one before. -/
def FollowsRight [PatternEngine] (bytes : List UInt8) (fuel : Nat) : Prop :=
  ∀ {op : BinaryOp} {n₀ n : Node} {left₀ left : Option Comment} {before after : List Slot},
    Reads bytes (.climb (op.precedence + 1) n₀ left₀ n) before after left →
    4 * before.length + 2 ≤ fuel + 4 * after.length →
    ∀ {ending : StreamEnd} {s : Lookahead} {last : Slot}, s.At bytes ending last before →
      last.comment = left₀ → s.held ≤ 1 →
      ∃ s' last', Parser.climbRight fuel op n₀ s = .ok n s' ∧ s'.At bytes ending last' after ∧
        last'.comment = left ∧ s'.held ≤ 1

/-- With this fuel the parser follows the grammar in expressions. A statement calls `expression`
with its own fuel, so it needs this and not the assumption about less fuel. -/
def FollowsExpression [PatternEngine] (bytes : List UInt8) (fuel : Nat) : Prop :=
  ∀ {n : Node} {before after : List Slot} {left : Option Comment},
    Reads bytes (.expression n) before after left →
    4 * before.length + 1 ≤ fuel + 4 * after.length + 1 →
    ∀ {ending : StreamEnd} {s : Lookahead} {last : Slot}, s.At bytes ending last before →
      (Phrase.expression n).Arrives fuel s bytes ending after left

section

open PipelineScript.Parser

variable {bytes : List UInt8} {ending : StreamEnd} {fuel : Nat} {before after : List Slot}
  {left : Option Comment} {s : Lookahead} {last : Slot}

/-- An operand that is one token, and is made of the token and its place. -/
theorem arrives_operand_of_token {n : Node} {t : Slot} {rest : List Slot} {kind : TokenKind}
    (make : Token → Info → Parser Node) (hs : s.At bytes ending last (t :: rest))
    (ht : t.token.kind = kind)
    (hoperand : ∀ s₁, peek s = .ok t.token s₁ → Parser.operand (fuel + 1) s =
      (do
        let token ← expect kind
        let info ← infoOf token
        make token info : Parser Node) s₁)
    (hmake : ∀ s', make t.token (t.info bytes) s' = .ok n s') :
    (Phrase.operand n).Arrives (fuel + 1) s bytes ending rest none := by
  obtain ⟨s₁, hp, hs₁, -⟩ := peek_at hs
  obtain ⟨s₂, s₃, he, hi, hs₃, hh⟩ := expect_info_at hs₁ ht
  refine ⟨s₃, t.bare, ?_, hs₃, rfl, hh⟩
  simp only [Phrase.Runs]
  rw [hoperand s₁ hp, bind_ok he, bind_ok hi, hmake]

/-- An operation in parentheses. -/
theorem Follows.parens (ih : Follows bytes fuel) {t c : Slot} {mid rest : List Slot} {n : Node}
    (ht : t.token.kind = .lparen) (hn : Reads bytes (.operation n) mid (c :: rest) left)
    (hc : c.token.kind = .rparen) (hf : 4 * (t :: mid).length + 1 ≤ fuel + 1 + 4 * rest.length + 3)
    (hs : s.At bytes ending last (t :: mid)) :
    (Phrase.operand (n.parenthesize.setComment t.comment)).Arrives (fuel + 1) s bytes ending rest
      c.comment := by
  obtain ⟨s₁, hp, hs₁, -⟩ := peek_at hs
  obtain ⟨s₂, hx, hs₂, -⟩ := next_at hs₁
  obtain ⟨s₃, hcm, hs₃, -⟩ := takeComment_at hs₂
  have hlen := hn.length_le
  obtain ⟨s₄, _, ho, hs₄, -⟩ :=
    ih hn (by simp [Phrase.slack, Phrase.advances] at *; omega) hs₃ trivial
  obtain ⟨s₅, he, hs₅, hh⟩ := expect_at hs₄ hc
  refine ⟨s₅, c, ?_, hs₅, rfl, hh⟩
  simp only [Phrase.Runs] at ho ⊢
  rw [Parser.operand, bind_ok hp]
  simp only [ht]
  rw [bind_ok hx, bind_ok hcm, bind_ok ho, bind_ok he, pure_ok]

/-- A call among operands. -/
theorem Follows.application (ih : Follows bytes fuel) {t o c : Slot} {mid rest : List Slot}
    {args : List Node} (ht : t.token.kind = .ident) (ho : o.token.kind = .lparen)
    (ha : Reads bytes (.list .operations args) mid (c :: rest) none) (hc : c.token.kind = .rparen)
    (hf : 4 * (t :: o :: mid).length + 1 ≤ fuel + 1 + 4 * rest.length + 3)
    (hs : s.At bytes ending last (t :: o :: mid)) :
    (Phrase.operand (.func ⟨.locate bytes t.token.offset, none⟩ .global t.token.text args
      (callBreaks bytes t.token.offset args))).Arrives (fuel + 1) s bytes ending rest
        c.comment := by
  obtain ⟨s₁, hp, hs₁, -⟩ := peek_at hs
  obtain ⟨s₂, _, hcall, hs₂⟩ := isCall_at hs₁
  obtain ⟨s₃, hi, hs₃, -⟩ := expect_at hs₂ ht
  obtain ⟨s₄, ho', hs₄, -⟩ := expect_at hs₃ ho
  have hlen := ha.length_le
  obtain ⟨s₅, _, hargs, hs₅, -⟩ :=
    ih ha (by simp [Phrase.slack, Phrase.advances] at *; omega) hs₄ trivial
  obtain ⟨s₆, hc', hs₆, hh⟩ := expect_at hs₅ hc
  refine ⟨s₆, c, ?_, hs₆, rfl, hh⟩
  simp only [Phrase.Runs] at hargs ⊢
  rw [Parser.operand, bind_ok hp]
  simp only [ht]
  rw [bind_ok hcall, beq_iff_eq.2 ho]
  simp only [if_true]
  rw [bind_ok hi, bind_ok ho', bind_ok hargs, bind_ok hc', call_at hs₆]

/-- A unary operator and its operand. -/
theorem Follows.unary (ih : Follows bytes fuel) {t : Slot} {mid rest : List Slot} {op : UnaryOp}
    {n : Node} (ht : t.token.kind = op.tokenKind) (hn : Reads bytes (.operand n) mid rest left)
    (hf : 4 * (t :: mid).length + 1 ≤ fuel + 1 + 4 * rest.length + 3)
    (hs : s.At bytes ending last (t :: mid)) :
    (Phrase.operand (.unary ⟨.locate bytes t.token.offset, left⟩ op n)).Arrives (fuel + 1) s bytes
      ending rest none := by
  obtain ⟨s₁, hp, hs₁, -⟩ := peek_at hs
  obtain ⟨s₂, hx, hs₂, -⟩ := next_at hs₁
  have hlen := hn.length_le
  obtain ⟨s₃, last₃, ho, hs₃, hl₃, hh₃⟩ :=
    ih hn (by simp [Phrase.slack, Phrase.advances] at *; omega) hs₂ trivial
  obtain ⟨s₄, hi, hs₄, hh₄⟩ := infoOf_at hs₃ t.token
  -- The comment that the operand leaves goes to the operator.
  refine ⟨s₄, last₃.bare, ?_, hs₄, rfl, hh₄ ▸ hh₃⟩
  simp only [Phrase.Runs] at ho ⊢
  rw [Parser.operand, bind_ok hp]
  cases op with
  | negate =>
    simp only [ht, UnaryOp.tokenKind]
    rw [bind_ok hx, bind_ok ho, bind_ok hi, hl₃, pure_ok]
  | not =>
    simp only [ht, UnaryOp.tokenKind]
    rw [bind_ok hx, bind_ok ho, bind_ok hi, hl₃, pure_ok]

theorem Follows.operand (ih : Follows bytes fuel) {n : Node}
    (h : Reads bytes (.operand n) before after left)
    (hf : 4 * before.length + 1 ≤ fuel + 1 + 4 * after.length + 3)
    (hs : s.At bytes ending last before) :
    (Phrase.operand n).Arrives (fuel + 1) s bytes ending after left := by
  -- The first token of an operand, which the parser peeks at, tells how it goes on; so there is one
  -- case for each rule.
  cases h with
  | paren ht hn hc => exact ih.parens ht hn hc hf hs
  | @number t rest v ht hv =>
    refine arrives_operand_of_token
      (fun token info => do return .number info (← literal token (Number.ofText token.text)))
      hs ht (fun s₁ hp => ?_) fun s' => ?_
    · rw [Parser.operand, bind_ok hp]
      simp only [ht]
    · rw [hv]
      rfl
  | @string t rest n ht hn =>
    obtain ⟨s₁, hp, hs₁, -⟩ := peek_at hs
    obtain ⟨s₂, hx, hs₂, hh⟩ := string_at hs₁ ht hn
    refine ⟨s₂, t.bare, ?_, hs₂, rfl, hh⟩
    simp only [Phrase.Runs]
    rw [Parser.operand, bind_ok hp]
    simp only [ht, hx]
  | @bool t rest value ht =>
    obtain ⟨s₁, hp, hs₁, -⟩ := peek_at hs
    obtain ⟨s₂, hx, hs₂, hh₂⟩ := next_at hs₁
    obtain ⟨s₃, hi, hs₃, hh₃⟩ := infoOf_at hs₂ t.token
    refine ⟨s₃, t.bare, ?_, hs₃, rfl, hh₃ ▸ hh₂⟩
    simp only [Phrase.Runs]
    rw [Parser.operand, bind_ok hp]
    simp only [ht]
    rw [bind_ok hx, bind_ok hi]
    rfl
  | @duration t rest n ht hn =>
    refine arrives_operand_of_token
      (fun token info => literal token (Node.durationOfText info token.text))
      hs ht (fun s₁ hp => ?_) fun s' => ?_
    · rw [Parser.operand, bind_ok hp]
      simp only [ht]
    · rw [hn]
      rfl
  | @regex t rest n ht hn =>
    refine arrives_operand_of_token
      (fun token info => literal token (Node.regexOfText info token.text))
      hs ht (fun s₁ hp => ?_) fun s' => ?_
    · rw [Parser.operand, bind_ok hp]
      simp only [ht]
    · rw [hn]
      rfl
  | @star t rest ht =>
    obtain ⟨s₁, hp, hs₁, -⟩ := peek_at hs
    obtain ⟨s₂, hx, hs₂, hh⟩ := star_at hs₁ ht
    refine ⟨s₂, t.bare, ?_, hs₂, rfl, hh⟩
    simp only [Phrase.Runs]
    rw [Parser.operand, bind_ok hp]
    simp only [ht, hx]
  | @reference t rest ht =>
    refine arrives_operand_of_token
      (fun token info => return Node.referenceOfText info token.text)
      hs ht (fun s₁ hp => ?_) fun s' => rfl
    rw [Parser.operand, bind_ok hp]
    simp only [ht]
  | @name t b rest ht hb =>
    obtain ⟨s₁, hp, hs₁, -⟩ := peek_at hs
    -- What stands behind the name tells it from a call.
    obtain ⟨s₂, _, hc, hs₂⟩ := isCall_at hs₁
    obtain ⟨s₃, hi, hs₃, hh⟩ := identifier_at hs₂ ht
    refine ⟨s₃, t.bare, ?_, hs₃, rfl, hh⟩
    simp only [Phrase.Runs]
    rw [Parser.operand, bind_ok hp]
    simp only [ht]
    rw [bind_ok hc, beq_eq_false_iff_ne.2 hb]
    simp only [Bool.false_eq_true, if_false]
    rw [bind_ok hi, pure_ok]
  | applied ht ho ha hc => exact ih.application ht ho ha hc hf hs
  | unary ht hx => exact ih.unary ht hx hf hs

theorem Follows.operation (ih : Follows bytes fuel) {n : Node}
    (h : Reads bytes (.operation n) before after left)
    (hf : 4 * before.length + 1 ≤ fuel + 1 + 4 * after.length + 2)
    (hs : s.At bytes ending last before) :
    (Phrase.operation n).Arrives (fuel + 1) s bytes ending after left := by
  cases h with
  | @operation _ mid _ first _ left₁ _ hfirst hn =>
    have hlen₁ := hfirst.length_le
    have hlen₂ := hn.length_le
    obtain ⟨s₁, last₁, ho, hs₁, hl₁⟩ :=
      ih hfirst (by simp [Phrase.slack, Phrase.advances] at *; omega) hs trivial
    obtain ⟨s₂, last₂, hc, hs₂, hl₂⟩ :=
      ih hn (by simp [Phrase.slack, Phrase.advances] at *; omega) hs₁ hl₁
    refine ⟨s₂, last₂, ?_, hs₂, hl₂⟩
    simp only [Phrase.Runs] at ho hc ⊢
    rw [Parser.operation, bind_ok ho, hc]

theorem Follows.climb (ih : Follows bytes fuel) (ihr : FollowsRight bytes fuel) {least : Nat}
    {n₀ n : Node} {left₀ : Option Comment}
    (h : Reads bytes (.climb least n₀ left₀ n) before after left)
    (hf : 4 * before.length + 1 ≤ fuel + 1 + 4 * after.length) (hs : s.At bytes ending last before)
    (hl : last.comment = left₀) (hh : s.held ≤ 1) :
    (Phrase.climb least n₀ left₀ n).Arrives (fuel + 1) s bytes ending after left := by
  cases h with
  | @stop t rest _ _ _ ht =>
    obtain ⟨s₁, hp, hs₁, hh₁⟩ := peekOperator_at hs least
    refine ⟨s₁, last, ?_, hs₁, hl, Nat.le_of_eq (hh₁ hh)⟩
    simp only [Phrase.Runs]
    rw [Parser.climb, bind_ok hp]
    rw [TokenKind.joining?] at ht
    simp only [ht]
    rfl
  | @join t toks mid₁ mid₂ rest _ op _ first right _ _ left₁ left₂ _ ht hop hfirst hr hn =>
    have hlen₁ := hfirst.length_le
    have hlen₂ := hr.length_le
    have hlen₃ := hn.length_le
    obtain ⟨s₁, hp, hs₁, -⟩ := peekOperator_at hs least
    obtain ⟨s₂, hx, hs₂, -⟩ := next_at hs₁
    obtain ⟨s₃, hcm, hs₃, -⟩ := takeComment_at hs₂
    obtain ⟨s₄, last₄, ho, hs₄, hl₄, hh₄⟩ :=
      ih hfirst (by simp [Phrase.slack, Phrase.advances] at *; omega) hs₃ trivial
    obtain ⟨s₅, last₅, hcr, hs₅, hl₅, hh₅⟩ :=
      ihr hr (by simp [Phrase.advances] at *; omega) hs₄ hl₄ hh₄
    obtain ⟨s₆, last₆, hc, hs₆, hl₆⟩ :=
      ih hn (by simp [Phrase.slack, Phrase.advances] at *; omega) hs₅ ⟨hl₅, hh₅⟩
    refine ⟨s₆, last₆, ?_, hs₆, hl₆⟩
    simp only [Phrase.Runs] at ho hc ⊢
    rw [Parser.climb, bind_ok hp]
    have hj := TokenKind.joining?_binary hop
    rw [TokenKind.joining?] at hj
    simp only [ht, hj]
    rw [bind_ok hx, bind_ok hcm, bind_ok ho, bind_ok hcr, bind_ok (breaksBetween_at hs₅ _ _),
      bind_ok (locate_at hs₅ _)]
    exact hc

/-- One round of climbing at the strength of the next operator, then on with what is left. -/
theorem Follows.climbRight (ih : Follows bytes fuel) (ihr : FollowsRight bytes fuel) :
    FollowsRight bytes (fuel + 1) := by
  intro op n₀ n left₀ left before after h hf ending s last hs hl hh
  match before, h, hs with
  | [], h, _ =>
    cases h
  | t :: toks, h, hs =>
    obtain ⟨s₁, hp, hs₁, hh₁⟩ := peekOperator_at hs (op.precedence + 1)
    rw [← TokenKind.joining?] at hp
    cases hj : t.token.kind.joining? (op.precedence + 1) with
    | none =>
      cases h with
      | stop _ =>
        refine ⟨s₁, last, ?_, hs₁, hl, Nat.le_of_eq (hh₁ hh)⟩
        rw [Parser.climbRight, bind_ok hp, hj]
        rfl
      | join ht hop _ _ _ =>
        rw [ht, TokenKind.joining?_binary hop] at hj
        contradiction
    | some tighter =>
      obtain ⟨hk, hop⟩ := TokenKind.joining?_eq_some hj
      -- The grammar reads the tighter operators in one run, the parser in rounds. The run is cut
      -- where the round ends.
      obtain ⟨m, mid, left₁, hm, hn⟩ := h.cut hop
      have hlen₁ := hm.length_of_join hk (Nat.le_refl _)
      have hlen₂ := hn.length_le
      obtain ⟨s₂, last₂, hc, hs₂, hl₂, hh₂⟩ :=
        ih hm (by simp [Phrase.slack, Phrase.advances] at *; omega) hs₁ ⟨hl, Nat.le_of_eq (hh₁ hh)⟩
      obtain ⟨s₃, last₃, hcr, hs₃, hl₃⟩ :=
        ihr hn (by simp [Phrase.advances] at *; omega) hs₂ hl₂ hh₂
      refine ⟨s₃, last₃, ?_, hs₃, hl₃⟩
      rw [Parser.climbRight, bind_ok hp, hj]
      simp only [Phrase.Runs] at hc
      dsimp only
      rw [bind_ok hc, hcr]

theorem Reads.item {n : Node} (h : Reads bytes (.item n) before after left)
    (hs : s.At bytes ending last before) :
    (Phrase.item n).Arrives fuel s bytes ending after left := by
  cases h with
  | @itemName t rest ht =>
    obtain ⟨s₁, hp, hs₁, -⟩ := peek_at hs
    obtain ⟨s₂, hi, hs₂, hh⟩ := identifier_at hs₁ ht
    refine ⟨s₂, t.bare, ?_, hs₂, rfl, hh⟩
    simp only [Phrase.Runs]
    rw [Parser.item, bind_ok hp]
    simp only [ht]
    rw [bind_ok hi, pure_ok]
  | @itemString t rest _ ht hn =>
    obtain ⟨s₁, hp, hs₁, -⟩ := peek_at hs
    obtain ⟨s₂, hx, hs₂, hh⟩ := string_at hs₁ ht hn
    refine ⟨s₂, t.bare, ?_, hs₂, rfl, hh⟩
    simp only [Phrase.Runs]
    rw [Parser.item, bind_ok hp]
    simp only [ht, hx]
  | @itemStar t rest ht =>
    obtain ⟨s₁, hp, hs₁, -⟩ := peek_at hs
    obtain ⟨s₂, hx, hs₂, hh⟩ := star_at hs₁ ht
    refine ⟨s₂, t.bare, ?_, hs₂, rfl, hh⟩
    simp only [Phrase.Runs]
    rw [Parser.item, bind_ok hp]
    simp only [ht, hx]

/-- The function of the parser for the elements of a list. -/
def ListSort.parseElement [PatternEngine] (fuel : Nat) : ListSort → Parser Node
  | .operations => Parser.operation fuel
  | .expressions => Parser.expression fuel
  | .items => Parser.item

/-- The function of the parser for a list. -/
def ListSort.parse [PatternEngine] (fuel : Nat) : ListSort → Parser (List Node)
  | .operations => Parser.operationList fuel
  | .expressions => Parser.expressionList fuel
  | .items => Parser.itemList fuel

theorem ListSort.runs_iff (sort : ListSort) {ns : List Node} {s s' : Lookahead} :
    (Phrase.list sort ns).Runs fuel s s' ↔ sort.parse fuel s = .ok ns s' := by
  cases sort <;> rfl

theorem ListSort.runs_element_iff (sort : ListSort) {n : Node} {s s' : Lookahead} :
    (sort.element n).Runs fuel s s' ↔ sort.parseElement fuel s = .ok n s' := by
  cases sort <;> rfl

theorem ListSort.starts_element (sort : ListSort) (n : Node) :
    (sort.element n).Starts s last := by
  cases sort <;> trivial

theorem ListSort.slack_element [PatternEngine] (sort : ListSort) (n : Node) :
    1 ≤ (sort.element n).slack := by
  cases sort <;> simp [ListSort.element, Phrase.slack]

/-- The three lists are read by one rule. -/
theorem ListSort.parse_succ (sort : ListSort) (fuel : Nat) :
    sort.parse (fuel + 1) = (do
      if (← peek).kind = sort.close then return []
      let first ← sort.parseElement fuel
      if (← next).kind = .comma then
        return first :: (← sort.parse fuel)
      else
        backup
        return [first]) := by
  cases sort <;> rfl

theorem Follows.list (ih : Follows bytes fuel) {sort : ListSort} {ns : List Node}
    (h : Reads bytes (.list sort ns) before after left)
    (hf : 4 * before.length + 1 ≤ fuel + 1 + 4 * after.length)
    (hs : s.At bytes ending last before) :
    (Phrase.list sort ns).Arrives (fuel + 1) s bytes ending after left := by
  cases h with
  | @listEnd t rest _ ht =>
    obtain ⟨s₁, hp, hs₁, -⟩ := peek_at hs
    refine ⟨s₁, last, ?_, hs₁, trivial⟩
    rw [sort.runs_iff, sort.parse_succ, bind_ok hp, if_pos ht]
    rfl
  | @listLast a t toks rest _ n _ ha hn ht =>
    have hlen := hn.length_le
    have hslack := sort.slack_element n
    rw [sort.advances_element] at hlen
    obtain ⟨s₁, hp, hs₁, -⟩ := peek_at hs
    obtain ⟨s₂, last₂, he, hs₂, -⟩ :=
      ih hn (by simp at *; omega) hs₁ (sort.starts_element n)
    obtain ⟨s₃, hx, hs₃, hh₃⟩ := next_at hs₂
    -- The token behind the last element is taken in search of a comma, and put back.
    obtain ⟨s₄, last₄, hb, hs₄⟩ := backup_at hs₃ hh₃
    refine ⟨s₄, last₄, ?_, hs₄, trivial⟩
    rw [sort.runs_element_iff] at he
    rw [sort.runs_iff, sort.parse_succ, bind_ok hp, if_neg ha, bind_ok he,
      bind_ok hx, if_neg ht, bind_ok hb, pure_ok]
  | @listMore a t toks mid rest _ n ns _ ha hn ht hns =>
    have hlen₁ := hn.length_le
    have hlen₂ := hns.length_le
    have hslack := sort.slack_element n
    rw [sort.advances_element] at hlen₁
    obtain ⟨s₁, hp, hs₁, -⟩ := peek_at hs
    obtain ⟨s₂, last₂, he, hs₂, -⟩ :=
      ih hn (by simp [Phrase.advances] at *; omega) hs₁ (sort.starts_element n)
    obtain ⟨s₃, hx, hs₃, hh₃⟩ := next_at hs₂
    obtain ⟨s₄, last₄, hl, hs₄, -⟩ :=
      ih hns (by simp [Phrase.slack, Phrase.advances] at *; omega) hs₃ trivial
    refine ⟨s₄, last₄, ?_, hs₄, trivial⟩
    rw [sort.runs_element_iff] at he
    rw [sort.runs_iff] at hl
    rw [sort.runs_iff, sort.parse_succ, bind_ok hp, if_neg ha, bind_ok he,
      bind_ok hx, if_pos ht, bind_ok hl, pure_ok]

theorem Follows.call (ih : Follows bytes fuel) {kind : CallKind} {n : Node}
    (h : Reads bytes (.call kind n) before after left)
    (hf : 4 * before.length + 1 ≤ fuel + 1 + 4 * after.length + 2)
    (hs : s.At bytes ending last before) :
    (Phrase.call kind n).Arrives (fuel + 1) s bytes ending after left := by
  cases h with
  | @function t o c mid rest _ args ht ho ha hc =>
    have hlen := ha.length_le
    obtain ⟨s₁, hi, hs₁, -⟩ := expect_at hs ht
    obtain ⟨s₂, hcm, hs₂, -⟩ := takeComment_at hs₁
    obtain ⟨s₃, ho', hs₃, -⟩ := expect_at hs₂ ho
    obtain ⟨s₄, _, hargs, hs₄, -⟩ :=
      ih ha (by simp [Phrase.slack, Phrase.advances] at *; omega) hs₃ trivial
    obtain ⟨s₅, hc', hs₅, hh⟩ := expect_at hs₄ hc
    refine ⟨s₅, c, ?_, hs₅, rfl, hh⟩
    simp only [Phrase.Runs] at hargs ⊢
    rw [Parser.function, bind_ok hi, bind_ok hcm, bind_ok ho', bind_ok hargs, bind_ok hc',
      call_at hs₅]
    rfl

theorem Follows.step (ih : Follows bytes fuel) {op : ChainOp} {n : Node}
    (h : Reads bytes (.step op n) before after left)
    (hf : 4 * before.length + 1 ≤ fuel + 1 + 4 * after.length + 1)
    (hs : s.At bytes ending last before) :
    (Phrase.step op n).Arrives (fuel + 1) s bytes ending after left := by
  cases h with
  | @stepCall t b toks rest _ f _ hb hf' =>
    by_cases hop : op = .pipe
    · -- behind a pipe the second token is not looked at
      obtain ⟨s₁, hx, hs₁, hh₁⟩ := next_at hs
      obtain ⟨s₂, last₂, hbk, hs₂⟩ := backup_at hs₁ hh₁
      obtain ⟨s₃, last₃, hc, hs₃, hl₃⟩ :=
        ih hf' (by simp [Phrase.slack] at *; omega) hs₂ trivial
      refine ⟨s₃, last₃, ?_, hs₃, hl₃⟩
      simp only [Phrase.Runs] at hc ⊢
      rw [Parser.step, bind_ok hx, if_pos hop, bind_ok (pure_ok true)]
      dsimp only
      rw [bind_ok hbk, if_pos rfl, hc]
    · obtain ⟨s₁, s₂, s₃, last₃, hx, hp, hbk, hs₃⟩ := behind_at hs
      obtain ⟨s₄, last₄, hc, hs₄, hl₄⟩ :=
        ih hf' (by simp [Phrase.slack] at *; omega) hs₃ trivial
      refine ⟨s₄, last₄, ?_, hs₄, hl₄⟩
      simp only [Phrase.Runs] at hc ⊢
      have hlp : (b.token.kind == .lparen) = true := by simpa using hb.resolve_left hop
      rw [Parser.step, bind_ok hx, if_neg hop, bind_ok hp, bind_ok (pure_ok _)]
      dsimp only
      rw [bind_ok hbk, if_pos hlp, hc]
  | @stepName t b toks _ hop ht hb =>
    obtain ⟨s₁, s₂, s₃, last₃, hx, hp, hbk, hs₃⟩ := behind_at hs
    obtain ⟨s₄, hi, hs₄, hh⟩ := identifier_at hs₃ ht
    refine ⟨s₄, t.bare, ?_, hs₄, rfl, hh⟩
    simp only [Phrase.Runs]
    have hlp : ¬ (b.token.kind == .lparen) = true := by simpa using hb
    rw [Parser.step, bind_ok hx, if_neg hop, bind_ok hp, bind_ok (pure_ok _)]
    dsimp only
    rw [bind_ok hbk, if_neg hlp, bind_ok hi, pure_ok]

theorem Follows.chain (ih : Follows bytes fuel) {n₀ n : Node} {left₀ : Option Comment}
    (h : Reads bytes (.chain n₀ left₀ n) before after left)
    (hf : 4 * before.length + 1 ≤ fuel + 1 + 4 * after.length) (hs : s.At bytes ending last before)
    (hl : last.comment = left₀) (hh : s.held ≤ 1) :
    (Phrase.chain n₀ left₀ n).Arrives (fuel + 1) s bytes ending after left := by
  cases h with
  | @chainEnd t rest _ _ ht =>
    obtain ⟨s₁, hp, hs₁, hh₁⟩ := peek_at hs
    refine ⟨s₁, last, ?_, hs₁, hl, Nat.le_of_eq (hh₁ hh)⟩
    simp only [Phrase.Runs]
    rw [Parser.chain, bind_ok hp]
    cases hk : t.token.kind with
    | chain op => exact absurd hk (ht op)
    | _ => rfl
  | @chainStep t toks mid rest op _ right _ _ left₁ _ ht hr hn =>
    have hlen₁ := hr.length_le
    have hlen₂ := hn.length_le
    obtain ⟨s₁, hp, hs₁, -⟩ := peek_at hs
    obtain ⟨s₂, hx, hs₂, -⟩ := next_at hs₁
    obtain ⟨s₃, hcm, hs₃, -⟩ := takeComment_at hs₂
    obtain ⟨s₄, last₄, hst, hs₄, hl₄⟩ :=
      ih hr (by simp [Phrase.slack, Phrase.advances] at *; omega) hs₃ trivial
    obtain ⟨s₅, last₅, hc, hs₅, hl₅⟩ :=
      ih hn (by simp [Phrase.slack, Phrase.advances] at *; omega) hs₄ hl₄
    refine ⟨s₅, last₅, ?_, hs₅, hl₅⟩
    simp only [Phrase.Runs] at hst hc ⊢
    rw [Parser.chain, bind_ok hp]
    simp only [ht]
    rw [bind_ok hx, bind_ok hcm, bind_ok hst, bind_ok (locate_at hs₄ _)]
    exact hc

/-- An expression that begins with a call. The token behind the call tells how it goes on. -/
theorem Follows.expression_call (ih : Follows bytes fuel) {t b c : Slot} {toks mid : List Slot}
    {f : Node} (ht : t.token.kind = .ident) (hb : b.token.kind = .lparen)
    (h : Reads bytes (.call .global f) (t :: b :: toks) (c :: mid) left)
    (hf : 4 * (t :: b :: toks).length + 1 ≤ fuel + 4 * (c :: mid).length + 2)
    (hs : s.At bytes ending last (t :: b :: toks)) :
    ∃ s' last',
      Parser.expression (fuel + 1) s =
        (if continuesChain c.token.kind then Parser.chain fuel f else Parser.climb fuel f 0) s' ∧
      s'.At bytes ending last' (c :: mid) ∧ last'.comment = left ∧ s'.held ≤ 1 := by
  obtain ⟨s₁, hp, hs₁, -⟩ := peek_at hs
  obtain ⟨s₂, s₃, s₄, last₄, hx, hp', hbk, hs₄⟩ := behind_at hs₁
  obtain ⟨s₅, last₅, hcl, hs₅, hl₅, hh₅⟩ := ih h hf hs₄ trivial
  obtain ⟨s₆, hp₆, hs₆, hh₆⟩ := peek_at hs₅
  refine ⟨s₆, last₅, ?_, hs₆, hl₅, Nat.le_of_eq (hh₆ hh₅)⟩
  simp only [Phrase.Runs] at hcl
  rw [Parser.expression, bind_ok hp]
  simp only [ht]
  rw [bind_ok hx, bind_ok hp', bind_ok hbk, if_pos hb, bind_ok hcl, bind_ok hp₆]

theorem Follows.expression (ih : Follows bytes fuel) {n : Node}
    (h : Reads bytes (.expression n) before after left)
    (hf : 4 * before.length + 1 ≤ fuel + 1 + 4 * after.length + 1)
    (hs : s.At bytes ending last before) :
    (Phrase.expression n).Arrives (fuel + 1) s bytes ending after left := by
  cases h with
  | @lambda t mid rest body _ ht hn =>
    obtain ⟨s₁, hp, hs₁, -⟩ := peek_at hs
    obtain ⟨s₂, hx, hs₂, -⟩ := next_at hs₁
    obtain ⟨s₃, hi, hs₃, -⟩ := infoOf_at hs₂ t.token
    obtain ⟨s₄, last₄, ho, hs₄, hl₄⟩ :=
      ih hn (by simp [Phrase.slack] at *; omega) hs₃ trivial
    refine ⟨s₄, last₄, ?_, hs₄, hl₄⟩
    simp only [Phrase.Runs] at ho ⊢
    rw [Parser.expression, bind_ok hp]
    simp only [ht]
    rw [Parser.lambda, bind_ok hx, bind_ok hi, bind_ok ho, pure_ok]
    rfl
  | @bracket t c mid rest ns ht hns hc =>
    obtain ⟨s₁, hp, hs₁, -⟩ := peek_at hs
    obtain ⟨s₂, s₃, he, hi, hs₃, -⟩ := expect_info_at hs₁ ht
    obtain ⟨s₄, _, hl, hs₄, -⟩ := ih hns (by simp [Phrase.slack] at *; omega) hs₃ trivial
    obtain ⟨s₅, hc', hs₅, hh⟩ := expect_at hs₄ hc
    refine ⟨s₅, c, ?_, hs₅, rfl, hh⟩
    simp only [Phrase.Runs] at hl ⊢
    rw [Parser.expression, bind_ok hp]
    simp only [ht]
    rw [Parser.list, bind_ok he, bind_ok hi, bind_ok hl, bind_ok hc', pure_ok]
  | @unnamed t toks rest _ _ hi hl hb hn =>
    obtain ⟨s₁, hp, hs₁, -⟩ := peek_at hs
    obtain ⟨s₂, last₂, ho, hs₂, hl₂⟩ := ih hn (by simp [Phrase.slack] at *; omega) hs₁ trivial
    refine ⟨s₂, last₂, ?_, hs₂, hl₂⟩
    simp only [Phrase.Runs] at ho ⊢
    rw [Parser.expression, bind_ok hp]
    cases hk : t.token.kind with
    | ident => exact absurd hk hi
    | lambda => exact absurd hk hl
    | lbracket => exact absurd hk hb
    | _ => exact ho
  | @named t b toks rest _ _ ht hb hc hn =>
    obtain ⟨s₁, hp, hs₁, -⟩ := peek_at hs
    obtain ⟨s₂, s₃, s₄, last₄, hx, hp', hbk, hs₄⟩ := behind_at hs₁
    obtain ⟨s₅, last₅, ho, hs₅, hl₅⟩ := ih hn (by simp [Phrase.slack] at *; omega) hs₄ trivial
    refine ⟨s₅, last₅, ?_, hs₅, hl₅⟩
    simp only [Phrase.Runs] at ho ⊢
    rw [Parser.expression, bind_ok hp]
    simp only [ht]
    rw [bind_ok hx, bind_ok hp', bind_ok hbk, if_neg hb, hc, if_neg (by simp), ho]
  | @chained t b toks rest _ _ ht hc hn =>
    obtain ⟨s₁, hp, hs₁, -⟩ := peek_at hs
    obtain ⟨s₂, s₃, s₄, last₄, hx, hp', hbk, hs₄⟩ := behind_at hs₁
    obtain ⟨s₅, hi, hs₅, hh₅⟩ := identifier_at hs₄ ht
    obtain ⟨s₆, last₆, hch, hs₆, hl₆⟩ :=
      ih hn (by simp [Phrase.slack] at *; omega) hs₅ ⟨rfl, hh₅⟩
    refine ⟨s₆, last₆, ?_, hs₆, hl₆⟩
    -- A chain goes on with an operator, so the name before it is not called.
    have hb : b.token.kind ≠ .lparen := by
      intro hk
      rw [hk] at hc
      simp [continuesChain] at hc
    simp only [Phrase.Runs] at hch ⊢
    rw [Parser.expression, bind_ok hp]
    simp only [ht]
    rw [bind_ok hx, bind_ok hp', bind_ok hbk, if_neg hb, if_pos hc, bind_ok hi, hch]
  | @callChained t b c toks mid rest f _ left₁ _ ht hb hfn hc hn =>
    have hlen₁ := hfn.length_le
    have hlen₂ := hn.length_le
    obtain ⟨s₁, last₁, hcl, hs₁, hend⟩ :=
      ih.expression_call ht hb hfn (by simp [Phrase.advances] at *; omega) hs
    obtain ⟨s₂, last₂, hch, hs₂, hl₂⟩ :=
      ih hn (by simp [Phrase.slack, Phrase.advances] at *; omega) hs₁ hend
    refine ⟨s₂, last₂, ?_, hs₂, hl₂⟩
    simp only [Phrase.Runs] at hch ⊢
    rw [hcl, if_pos hc, hch]
  | @callJoined t b c toks mid rest f _ left₁ _ ht hb hfn hc hn =>
    have hlen₁ := hfn.length_le
    have hlen₂ := hn.length_le
    obtain ⟨s₁, last₁, hcl, hs₁, hend⟩ :=
      ih.expression_call ht hb hfn (by simp [Phrase.advances] at *; omega) hs
    obtain ⟨s₂, last₂, hcm, hs₂, hl₂⟩ :=
      ih hn (by simp [Phrase.slack, Phrase.advances] at *; omega) hs₁ hend
    refine ⟨s₂, last₂, ?_, hs₂, hl₂⟩
    simp only [Phrase.Runs] at hcm ⊢
    rw [hcl, hc, if_neg (by simp), hcm]

theorem FollowsExpression.statement (ih : FollowsExpression bytes fuel) {n : Node}
    (h : Reads bytes (.statement n) before after left)
    (hf : 4 * before.length + 1 ≤ fuel + 4 * after.length + 1)
    (hs : s.At bytes ending last before) :
    (Phrase.statement n).Arrives fuel s bytes ending after left := by
  cases h with
  | @declare t i e mid rest v _ ht hi he hv =>
    obtain ⟨s₁, hp, hs₁, -⟩ := peek_at hs
    obtain ⟨s₂, hx, hs₂, -⟩ := expect_at hs₁ ht
    obtain ⟨s₃, hcm, hs₃, -⟩ := takeComment_at hs₂
    obtain ⟨s₄, hid, hs₄, -⟩ := identifier_at hs₃ hi
    obtain ⟨s₅, hp₅, hs₅, -⟩ := peek_at hs₄
    obtain ⟨s₆, heq, hs₆, -⟩ := expect_at hs₅ he
    obtain ⟨s₇, last₇, hex, hs₇, hl₇⟩ := ih hv (by simp at *; omega) hs₆
    refine ⟨s₇, last₇, ?_, hs₇, hl₇⟩
    simp only [Phrase.Runs] at hex ⊢
    rw [Parser.statement, bind_ok hp, if_pos ht, declaration, bind_ok hx, bind_ok hcm, bind_ok hid,
      bind_ok (locate_at hs₄ _), bind_ok hp₅, if_pos he, bind_ok heq, bind_ok hex, pure_ok]
    rfl
  | @declareType t i y rest ht hi hy =>
    obtain ⟨s₁, hp, hs₁, -⟩ := peek_at hs
    obtain ⟨s₂, hx, hs₂, -⟩ := expect_at hs₁ ht
    obtain ⟨s₃, hcm, hs₃, -⟩ := takeComment_at hs₂
    obtain ⟨s₄, hid, hs₄, -⟩ := identifier_at hs₃ hi
    obtain ⟨s₅, hp₅, hs₅, -⟩ := peek_at hs₄
    obtain ⟨s₆, hty, hs₆, hh⟩ := identifier_at hs₅ hy
    refine ⟨s₆, y.bare, ?_, hs₆, rfl, hh⟩
    have hne : y.token.kind ≠ .assign := by simp [hy]
    simp only [Phrase.Runs]
    rw [Parser.statement, bind_ok hp, if_pos ht, declaration, bind_ok hx, bind_ok hcm, bind_ok hid,
      bind_ok (locate_at hs₄ _), bind_ok hp₅, if_neg hne, bind_ok hty, pure_ok]
    rfl
  | @express t toks rest _ _ ht hn =>
    obtain ⟨s₁, hp, hs₁, -⟩ := peek_at hs
    obtain ⟨s₂, last₂, he, hs₂, hl₂⟩ := ih hn hf hs₁
    refine ⟨s₂, last₂, ?_, hs₂, hl₂⟩
    simp only [Phrase.Runs] at he ⊢
    rw [Parser.statement, bind_ok hp, if_neg ht, he]

theorem Follows.statements (ih : Follows bytes fuel) {ns : List Node} {left₀ : Option Comment}
    (h : Reads bytes (.statements left₀ ns) before after left)
    (hf : 4 * before.length + 1 ≤ fuel + 1 + 4 * after.length) (hs : s.At bytes ending last before)
    (hl : last.comment = left₀) (hh : s.held ≤ 1) :
    (Phrase.statements left₀ ns).Arrives (fuel + 1) s bytes ending after left := by
  cases h with
  | @done t rest _ ht =>
    obtain ⟨s₁, hp, hs₁, hh₁⟩ := peek_at hs
    obtain ⟨hr, hs₂⟩ := hs₁.takeRest (hh₁ hh)
    -- What no node took is kept behind the last statement.
    refine ⟨s₁.takeRest.2, last.bare, ?_, hs₂, rfl, ?_⟩
    · simp only [Phrase.Runs]
      rw [Parser.statements, bind_ok hp, if_pos ht]
      show EStateM.Result.ok (s₁.takeRest.1.map Node.comment) s₁.takeRest.2 = _
      rw [hr, hl]
    · simp [Lookahead.takeRest, hh₁ hh]
  | @more t toks mid rest n ns _ left₁ _ ht hn hns =>
    have hlen₁ := hn.length_le
    have hlen₂ := hns.length_le
    obtain ⟨s₁, hp, hs₁, -⟩ := peek_at hs
    obtain ⟨s₂, last₂, hst, hs₂, hl₂⟩ :=
      ih hn (by simp [Phrase.slack, Phrase.advances] at *; omega) hs₁ trivial
    obtain ⟨s₃, last₃, hss, hs₃, hl₃⟩ :=
      ih hns (by simp [Phrase.slack, Phrase.advances] at *; omega) hs₂ hl₂
    refine ⟨s₃, last₃, ?_, hs₃, hl₃⟩
    simp only [Phrase.Runs] at hst hss ⊢
    rw [Parser.statements, bind_ok hp, if_neg ht, bind_ok hst, bind_ok hss, pure_ok]

end

/-- **The parser follows the grammar**, given fuel for every token. -/
theorem follows (bytes : List UInt8) (fuel : Nat) :
    Follows bytes fuel ∧ FollowsRight bytes fuel := by
  induction fuel with
  | zero =>
    -- Only an item is read without fuel; every other phrase takes a token and asks for some.
    refine ⟨?_, ?_⟩
    · intro ph before after left h hf ending s last hs hstart
      have hlen := h.length_le
      cases ph with
      | item n => exact h.item hs
      | _ => simp [Phrase.slack, Phrase.advances] at hf hlen; omega
    · intro op n₀ n left₀ left before after h hf
      have hlen := h.length_le
      simp [Phrase.advances] at hlen
      omega
  | succ fuel ih =>
    obtain ⟨ih, ihr⟩ := ih
    have hexp : FollowsExpression bytes (fuel + 1) := fun h hf _ _ _ hs => ih.expression h hf hs
    refine ⟨?_, ih.climbRight ihr⟩
    intro ph before after left h hf ending s last hs hstart
    cases ph with
    | operand n => exact ih.operand h hf hs
    | operation n => exact ih.operation h hf hs
    | climb least left n => exact ih.climb ihr h hf hs hstart.1 hstart.2
    | item n => exact h.item hs
    | list sort ns => exact ih.list h hf hs
    | expression n => exact ih.expression h hf hs
    | chain left n => exact ih.chain h hf hs hstart.1 hstart.2
    | step op n => exact ih.step h hf hs
    | call kind n => exact ih.call h hf hs
    | statement n => exact hexp.statement h hf hs
    | statements ns => exact ih.statements h hf hs hstart.1 hstart.2

/-! ## Whole texts -/

theorem length_slotsBehind_le (bytes : List UInt8) (before ts : List Token) :
    (slotsBehind bytes before ts).length ≤ ts.length := by
  induction ts generalizing before with
  | nil => simp [slotsBehind]
  | cons t ts ih =>
    rw [slotsBehind]
    split
    · exact Nat.le_succ_of_le (ih _)
    · simpa using ih _

/-- The slots of a script. -/
def slotsIn (source : List Char) : List Slot :=
  slotsOf (Text.bytes source) (TokenStream.ofSource source).tokens

theorem Lookahead.ofSource_at (source : List Char) :
    (Lookahead.ofSource source).At (Text.bytes source) (TokenStream.ofSource source).ending
      Lookahead.emptySlot (slotsIn source) :=
  ⟨rfl, rfl, rfl, rfl, by simp [Lookahead.ofSource]⟩

theorem Lookahead.length_slotsIn_le (source : List Char) :
    4 * (slotsIn source).length + 16 ≤ (Lookahead.ofSource source).fuel := by
  have hlen := length_slotsBehind_le (Text.bytes source) [] (TokenStream.ofSource source).tokens
  simp only [Lookahead.fuel, Lookahead.ofSource]
  simp only [slotsIn, slotsOf]
  omega

/-- The statements of a program reach the end of the text and take the comment before it. -/
theorem Reads.statements_end {bytes : List UInt8} {ns : List Node} {left₀ left : Option Comment}
    {before after : List Slot} (h : Reads bytes (.statements left₀ ns) before after left) :
    ∃ (t : Slot) (rest : List Slot), after = t.bare :: rest ∧ t.token.kind = .eof := by
  generalize hph : Phrase.statements left₀ ns = ph at h
  induction h generalizing left₀ ns with
  | done ht => exact ⟨_, _, rfl, ht⟩
  | more _ _ _ _ ih => cases hph; exact ih rfl
  | _ => cases hph

/-- A script whose slots are the statements of a program is parsed to that program. -/
theorem parse_of_reads {source : List Char} {ns : List Node} {after : List Slot}
    {left : Option Comment}
    (h : Reads (Text.bytes source) (.statements none ns) (slotsIn source) after left) :
    parse (String.ofList source) = .ok (.program (.locate (Text.bytes source) 0) ns) := by
  have hs := Lookahead.ofSource_at source
  have hfuel := Lookahead.length_slotsIn_le source
  obtain ⟨t, rest, rfl, ht⟩ := h.statements_end
  obtain ⟨s₁, last₁, hrun, hs₁, -⟩ :=
    (follows _ (Lookahead.ofSource source).fuel).1 h (by simp only [Phrase.slack]; omega) hs
      ⟨rfl, by simp [Lookahead.ofSource]⟩
  obtain ⟨s₂, heof, -, -⟩ := Parser.expect_at hs₁ ht
  simp only [Phrase.Runs] at hrun
  rw [parse, String.toList_ofList, Parser.runOn, Parser.program,
    Parser.bind_ok (Parser.locate_at hs 0), Parser.depth_bind, Parser.bind_ok hrun,
    Parser.bind_ok heof, Parser.pure_ok]

/-- A text whose slots are an operation and the end is parsed to the lambda with that body. -/
theorem parseLambda_of_reads {source : List Char} {n : Node} {t : Slot} {after : List Slot}
    {left : Option Comment} (ht : t.token.kind = .eof)
    (h : Reads (Text.bytes source) (.operation n) (slotsIn source) (t :: after) left) :
    parseLambda (String.ofList source) =
      .ok (.lambda ⟨.locate (Text.bytes source) 0, none⟩ n) := by
  have hs := Lookahead.ofSource_at source
  have hfuel := Lookahead.length_slotsIn_le source
  obtain ⟨s₁, last₁, hrun, hs₁, -⟩ :=
    (follows _ (Lookahead.ofSource source).fuel).1 h (by simp only [Phrase.slack]; omega) hs trivial
  obtain ⟨s₂, heof, -, -⟩ := Parser.expect_at hs₁ ht
  simp only [Phrase.Runs] at hrun
  rw [parseLambda, String.toList_ofList, Parser.runOn, Parser.lambdaBody,
    Parser.depth_bind, Parser.bind_ok hrun, Parser.bind_ok (Parser.locate_at hs₁ 0),
    Parser.bind_ok heof, Parser.pure_ok]

end PipelineScript

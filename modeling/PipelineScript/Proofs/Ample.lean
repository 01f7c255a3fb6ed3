import PipelineScript.Proofs.Idle
import PipelineScript.Proofs.Sound

/-!
How parsing does not fail.

The bound on the depth of the grammar is never reached. The functions of the grammar call each
other with less and less fuel, and a parser starts with four for each token and a little more.
Between two calls that take no token there are at most three others, so that is enough, whether the
script is parsed or not.

A scanner that stands still gives idle tokens without end, and a stream holds the first of them. No
statement comes to where they have been cut off, as long as there are three of them.

Both are proved together, by induction on the fuel, one lemma for each function; a call behind
another one starts where the first has ended, and what the first has read tells how many tokens are
left.
-/
namespace PipelineScript

variable {engine : PatternEngine}

/-- A failure that may come: not that the bound on the depth was reached, and not, where that is
`safe`, that the tokens were cut off. -/
structure ParseFailure.Proper (safe : Prop) (f : ParseFailure) : Prop where
  ne_exhausted : f ≠ .exhausted
  ne_endless : safe → f ≠ .interrupted .endless

theorem ParseFailure.Proper.rejected {safe : Prop} (e : ParseError) :
    (ParseFailure.rejected e).Proper safe where
  ne_exhausted := by simp
  ne_endless := by simp

/-- If the outcome is a failure, it is a proper one. -/
def Ample (safe : Prop) {α : Type} (r : EStateM.Result ParseFailure Lookahead α) : Prop :=
  ∀ f s, r = .error f s → f.Proper safe

namespace Parser

variable {safe : Prop} {α β : Type} {s : Lookahead}

theorem ample_bind {x : Parser α} {f : α → Parser β} (hx : Ample safe (x s))
    (hf : ∀ r s', x s = .ok r s' → Ample safe (f r s')) : Ample safe ((x >>= f) s) := by
  intro g s' h
  simp only [Bind.bind, EStateM.bind] at h
  cases hr : x s with
  | ok r s₁ =>
    rw [hr] at h
    exact hf r s₁ hr g s' h
  | error e s₁ =>
    rw [hr] at h
    cases h
    exact hx _ _ hr

/-- A parser that fails properly, wherever it starts. -/
def Steady (safe : Prop) (x : Parser α) : Prop := ∀ s, Ample safe (x s)

theorem Steady.bind {x : Parser α} {f : α → Parser β} (hx : Steady safe x)
    (hf : ∀ r, Steady safe (f r)) : Steady safe (x >>= f) :=
  fun s => ample_bind (hx s) fun r s' _ => hf r s'

theorem steady_pure (r : α) : Steady safe (pure r : Parser α) := by
  intro s f s' h
  cases h

theorem steady_reject (token : Token) (cause : ParseCause) :
    Steady safe (reject token cause : Parser α) := by
  intro s f s' h
  cases h
  exact .rejected _

theorem steady_unexpected (token : Token) (kinds : List TokenKind) :
    Steady safe (unexpected token kinds : Parser α) := steady_reject _ _

theorem steady_backup : Steady safe backup := by
  intro s f s' h
  cases h

theorem steady_takeComment : Steady safe takeComment := by
  intro s f s' h
  cases h

theorem steady_locate (offset : Nat) : Steady safe (locate offset) := by
  intro s f s' h
  cases h

theorem steady_breaksBetween (start stop : Nat) : Steady safe (breaksBetween start stop) := by
  intro s f s' h
  cases h

theorem steady_infoOf (token : Token) : Steady safe (infoOf token) :=
  steady_takeComment.bind fun _ => (steady_locate _).bind fun _ => steady_pure _

theorem steady_literal (token : Token) (value : Except NodeError α) :
    Steady safe (literal token value) := by
  cases value with
  | ok a => exact steady_pure a
  | error e => exact steady_reject _ _

theorem steady_call (token : Token) (kind : CallKind) (comment : Option Comment)
    (args : List Node) : Steady safe (call token kind comment args) := by
  rw [call]
  have hrest (broken : Bool) : Steady safe (do
      return .func ⟨← locate token.offset, comment⟩ kind token.text args broken : Parser Node) :=
    (steady_locate _).bind fun _ => steady_pure _
  split
  · exact (steady_breaksBetween _ _).bind hrest
  · exact (steady_pure _).bind hrest

/-! ## Steps that need a token -/

section

variable {bytes : List UInt8} {ending : StreamEnd} {last : Slot} {ahead : List Slot}

theorem ample_ofStep {name : α → BufferStep} {step : Lookahead → Except StreamEnd (α × Lookahead)}
    (h : safe → ∃ r, step s = .ok r) : Ample safe (ofStep name step s) := by
  intro f s' hf
  cases hstep : step s with
  | ok r =>
    rw [ofStep_ok hstep] at hf
    cases hf
  | error e =>
    rw [ofStep_error hstep] at hf
    cases hf
    constructor
    · simp
    · intro hsafe
      obtain ⟨r, hr⟩ := h hsafe
      rw [hstep] at hr
      cases hr

theorem ample_next (hs : s.At bytes ending last ahead) (hn : safe → ahead ≠ []) :
    Ample safe (next s) := by
  refine ample_ofStep fun hsafe => ?_
  obtain ⟨a, as, rfl⟩ := List.exists_cons_of_ne_nil (hn hsafe)
  obtain ⟨s', hx, -⟩ := hs.next
  exact ⟨_, hx⟩

theorem ample_peek (hs : s.At bytes ending last ahead) (hn : safe → ahead ≠ []) :
    Ample safe (peek s) := by
  refine ample_ofStep fun hsafe => ?_
  obtain ⟨a, as, rfl⟩ := List.exists_cons_of_ne_nil (hn hsafe)
  obtain ⟨s', hx, -⟩ := hs.peek
  exact ⟨_, hx⟩

theorem ample_expect (kind : TokenKind) (hs : s.At bytes ending last ahead)
    (hn : safe → ahead ≠ []) : Ample safe (expect kind s) := by
  refine ample_bind (ample_next hs hn) fun token s' _ => ?_
  split
  · exact steady_pure _ s'
  · exact steady_unexpected _ _ s'

/-- A token of one kind, and what is made of it without reading on. -/
theorem ample_expect_bind {kind : TokenKind} {f : Token → Parser α}
    (hs : s.At bytes ending last ahead) (hn : safe → ahead ≠ []) (hf : ∀ t, Steady safe (f t)) :
    Ample safe ((expect kind >>= f) s) :=
  ample_bind (ample_expect kind hs hn) fun t s' _ => hf t s'

theorem ample_identifier (hs : s.At bytes ending last ahead) (hn : safe → ahead ≠ []) :
    Ample safe (identifier s) :=
  ample_expect_bind hs hn fun _ => (steady_infoOf _).bind fun _ => steady_pure _

theorem ample_name (hs : s.At bytes ending last ahead) (hn : safe → ahead ≠ []) :
    Ample safe ((do return .identifier (← identifier) : Parser Node) s) :=
  ample_bind (ample_identifier hs hn) fun _ s' _ => steady_pure _ s'

theorem ample_string (hs : s.At bytes ending last ahead) (hn : safe → ahead ≠ []) :
    Ample safe (string s) := by
  refine ample_expect_bind hs hn fun _ => (steady_infoOf _).bind fun _ => ?_
  split
  · exact steady_pure _
  · intro s' f s'' h
    cases h
    constructor
    · simp
    · simp

theorem ample_star (hs : s.At bytes ending last ahead) (hn : safe → ahead ≠ []) :
    Ample safe (star s) :=
  ample_expect_bind hs hn fun _ => (steady_infoOf _).bind fun _ => steady_pure _

theorem ample_peekOperator (least : Nat) (hs : s.At bytes ending last ahead)
    (hn : safe → ahead ≠ []) : Ample safe (peekOperator least s) :=
  ample_bind (ample_peek hs hn) fun _ s' _ => steady_pure _ s'

theorem ample_item (hs : s.At bytes ending last ahead) (hb : Sealed ending ahead)
    (hn : safe → ahead ≠ []) : Ample safe (item s) := by
  refine ample_bind (ample_peek hs hn) fun token s₁ hp => ?_
  obtain ⟨a, as, rfl, rfl, hs₁, -⟩ := peek_eq_ok hp hs hb
  cases a.token.kind with
  | ident => exact ample_name hs₁ hn
  | string => exact ample_string hs₁ hn
  | star => exact ample_star hs₁ hn
  | _ => exact steady_unexpected _ _ s₁

end

end Parser

/-! ## One lemma for each function of the parser -/

/-- The function of the parser for a phrase fails properly. Only the sort of the phrase matters,
not its tree. -/
def Phrase.IsAmple (safe : Prop) (fuel : Nat) (s : Lookahead) : Phrase → Prop
  | .operand _ => Ample safe (Parser.operand fuel s)
  | .operation _ => Ample safe (Parser.operation fuel s)
  | .climb least left _ _ => Ample safe (Parser.climb fuel left least s)
  | .item _ => Ample safe (Parser.item s)
  | .list sort _ => Ample safe (sort.parse fuel s)
  | .expression _ => Ample safe (Parser.expression fuel s)
  | .chain left _ _ => Ample safe (Parser.chain fuel left s)
  | .step op _ => Ample safe (Parser.step fuel op s)
  | .call kind _ => Ample safe (Parser.function fuel kind s)
  | .statement _ => Ample safe (Parser.statement fuel s)
  | .statements _ _ => Ample safe (Parser.statements fuel s)

/-- With this fuel the parser fails properly where at most a fourth as many slots are ahead and,
where that is to be `safe`, idle tokens enough. -/
def Suffices [PatternEngine] (safe : Prop) (bytes : List UInt8) (fuel : Nat) : Prop :=
  ∀ (ph : Phrase) {ending : StreamEnd} {before : List Slot} {s : Lookahead} {last : Slot},
    s.At bytes ending last before → ph.Starts s last → Sealed ending before →
    4 * before.length + 4 ≤ fuel + ph.slack → (safe → ph.Roomy before) → ph.IsAmple safe fuel s

/-- With this fuel the parser fails properly behind the right operand of an operator. -/
def SufficesRight [PatternEngine] (safe : Prop) (bytes : List UInt8) (fuel : Nat) : Prop :=
  ∀ {op : BinaryOp} {n₀ : Node} {ending : StreamEnd} {before : List Slot} {s : Lookahead}
    {last : Slot}, s.At bytes ending last before → s.held ≤ 1 → Sealed ending before →
    4 * before.length + 5 ≤ fuel → (safe → Idling before) →
    Ample safe (Parser.climbRight fuel op n₀ s)

/-- With this fuel the parser fails properly in expressions. A statement calls `expression` with
its own fuel. -/
def SufficesExpression [PatternEngine] (safe : Prop) (bytes : List UInt8) (fuel : Nat) : Prop :=
  ∀ {ending : StreamEnd} {before : List Slot} {s : Lookahead} {last : Slot},
    s.At bytes ending last before → Sealed ending before → 4 * before.length + 3 ≤ fuel →
    (safe → EndsIdle 3 before) → Ample safe (Parser.expression fuel s)

section

open PipelineScript.Parser

variable {safe : Prop} {bytes : List UInt8} {ending : StreamEnd} {fuel : Nat} {before : List Slot}
  {s : Lookahead} {last : Slot}

theorem Suffices.unary (ih : Suffices safe bytes fuel) (op : UnaryOp) {a : Slot} {as : List Slot}
    (hs : s.At bytes ending last (a :: as)) (hk : a.token.kind = op.tokenKind)
    (hb : Sealed ending (a :: as)) (hf : 4 * (a :: as).length ≤ fuel)
    (hi : safe → EndsIdle 3 (a :: as)) :
    Ample safe ((do
      let _ ← next
      let inner ← Parser.operand fuel
      return .unary (← infoOf a.token) op inner : Parser Node) s) := by
  obtain ⟨s₁, hx, hs₁, -⟩ := next_at hs
  rw [bind_ok hx]
  have hsmall : 4 * as.length + 4 ≤ fuel + 3 := by
    simp only [List.length_cons] at hf
    omega
  have hinner : Ample safe (Parser.operand fuel s₁) :=
    ih (.operand default) hs₁ trivial (hb.tail hk op.isLast_tokenKind) hsmall
      fun h => (hi h).behind hk op.isRegex_tokenKind
  refine ample_bind hinner fun inner s₂ _ => ?_
  exact ((steady_infoOf _).bind fun _ => steady_pure _) s₂

theorem Suffices.operand (ih : Suffices safe bytes fuel) (hs : s.At bytes ending last before)
    (hb : Sealed ending before) (hf : 4 * before.length ≤ fuel) (hi : safe → EndsIdle 3 before) :
    Ample safe (Parser.operand (fuel + 1) s) := by
  rw [Parser.operand]
  refine ample_bind (ample_peek hs fun h => (hi h).ne_nil) fun token s₁ hp => ?_
  obtain ⟨a, as, rfl, rfl, hs₁, -⟩ := peek_eq_ok hp hs hb
  have hlen : 4 * as.length + 4 ≤ fuel := by simpa [Nat.mul_add] using hf
  have hn : safe → a :: as ≠ [] := fun _ => List.cons_ne_nil a as
  -- A literal needs no fuel. Every other operand takes a token first, which pays for the call that
  -- follows.
  cases hk : a.token.kind with
  | lparen =>
    obtain ⟨s₂, hx, hs₂, -⟩ := next_at hs₁
    obtain ⟨s₃, hcm, hs₃, -⟩ := takeComment_at hs₂
    simp only
    rw [bind_ok hx, bind_ok hcm]
    have hb' := hb.tail hk rfl
    have hi' : safe → EndsIdle 3 as := fun h => (hi h).behind hk rfl
    have hin : Ample safe (Parser.operation fuel s₃) :=
      ih (.operation default) hs₃ trivial hb' (by simp only [Phrase.slack]; omega) hi'
    refine ample_bind hin fun m s₄ hm => ?_
    -- What was read is in the grammar, so a slot is left for the closing parenthesis.
    obtain ⟨mid, left, last₄, hreads, hs₄, -⟩ :=
      (keeps bytes fuel).1 (.operation m) hm hs₃ trivial hb'
    exact ample_expect_bind hs₄ (fun h => (hreads.idling (hi' h)).ne_nil) fun _ => steady_pure _
  | number =>
    exact ample_expect_bind hs₁ hn fun _ => (steady_infoOf _).bind fun _ =>
      (steady_literal _ _).bind fun _ => steady_pure _
  | string => exact ample_string hs₁ hn
  | bool value =>
    exact ample_bind (ample_next hs₁ hn) fun _ s₂ _ =>
      ((steady_infoOf _).bind fun _ => steady_pure _) s₂
  | duration | regex =>
    exact ample_expect_bind hs₁ hn fun _ => (steady_infoOf _).bind fun _ => steady_literal _ _
  | star => exact ample_star hs₁ hn
  | reference =>
    exact ample_expect_bind hs₁ hn fun _ => (steady_infoOf _).bind fun _ => steady_pure _
  | ident =>
    have hi' : safe → EndsIdle 3 as := fun h => (hi h).behind hk rfl
    obtain ⟨s₂, hx, hs₂, hh₂⟩ := next_at hs₁
    simp only
    -- The parser looks behind the name and puts it back.
    rw [isCall, bind_assoc, bind_ok hx, bind_assoc]
    refine ample_bind (ample_peek hs₂ fun h => (hi' h).ne_nil) fun token s₃ hp₃ => ?_
    obtain ⟨b, bs, rfl, rfl, hs₃, hh₃⟩ := peek_eq_ok hp₃ hs₂ (hb.tail hk rfl)
    obtain ⟨s₄, last₄, hback, hs₄⟩ := backup_at hs₃ (Nat.le_of_eq (hh₃ hh₂))
    rw [bind_assoc, bind_ok hback, bind_ok (pure_ok _)]
    cases hbk : b.token.kind == .lparen with
    | false => exact ample_name hs₄ hn
    | true =>
      have hlp : b.token.kind = .lparen := by simpa using hbk
      obtain ⟨s₅, hname, hs₅, -⟩ := expect_at hs₄ hk
      obtain ⟨s₆, ho, hs₆, -⟩ := expect_at hs₅ hlp
      simp only [if_true]
      rw [bind_ok hname, bind_ok ho]
      have hb' := (hb.tail hk rfl).tail hlp rfl
      have hi'' : safe → EndsIdle 3 bs := fun h => (hi' h).behind hlp rfl
      have hin : Ample safe (Parser.operationList fuel s₆) :=
        ih (.list .operations []) hs₆ trivial hb'
          (by simp only [Phrase.slack, List.length_cons] at hlen ⊢; omega) hi''
      refine ample_bind hin fun args s₇ hargs => ?_
      obtain ⟨mid, left, last₇, hreads, hs₇, -⟩ :=
        (keeps bytes fuel).1 (.list .operations args) hargs hs₆ trivial hb'
      exact ample_expect_bind hs₇ (fun h => (hreads.idling (hi'' h)).ne_nil) fun _ =>
        steady_call _ _ _ _
  | binary op =>
    cases op with
    | subtract => exact ih.unary .negate hs₁ hk hb hf hi
    | _ => exact steady_unexpected _ _ s₁
  | not => exact ih.unary .not hs₁ hk hb hf hi
  | _ => exact steady_unexpected _ _ s₁

theorem Suffices.operation (ih : Suffices safe bytes fuel) (hs : s.At bytes ending last before)
    (hb : Sealed ending before) (hf : 4 * before.length + 1 ≤ fuel)
    (hi : safe → EndsIdle 3 before) : Ample safe (Parser.operation (fuel + 1) s) := by
  rw [Parser.operation]
  have hfirst : Ample safe (Parser.operand fuel s) :=
    ih (.operand default) hs trivial hb (by simp only [Phrase.slack]; omega) hi
  refine ample_bind hfirst fun first s₁ ho => ?_
  obtain ⟨mid, left, last₁, hreads, hs₁, hl, hh⟩ :=
    (keeps bytes fuel).1 (.operand first) ho hs trivial hb
  have hlen := hreads.length_lt rfl
  exact ih (.climb 0 first left default) hs₁ ⟨hl, hh⟩ (hreads.sealed hb)
    (by simp only [Phrase.slack]; omega) fun h => hreads.idling (hi h)

theorem Suffices.climb (ih : Suffices safe bytes fuel) (ihr : SufficesRight safe bytes fuel)
    {least : Nat} {n₀ : Node} (hs : s.At bytes ending last before) (hb : Sealed ending before)
    (hf : 4 * before.length + 3 ≤ fuel) (hi : safe → Idling before) :
    Ample safe (Parser.climb (fuel + 1) n₀ least s) := by
  rw [Parser.climb]
  refine ample_bind (ample_peekOperator _ hs fun h => (hi h).ne_nil) fun next? s₁ hp => ?_
  obtain ⟨a, as, rfl, rfl, hs₁, -⟩ := peekOperator_eq_ok hp hs hb
  cases hj : a.token.kind.joining? least with
  | none => exact steady_pure _ s₁
  | some op =>
    obtain ⟨hk, -⟩ := TokenKind.joining?_eq_some hj
    obtain ⟨s₂, hx, hs₂, -⟩ := next_at hs₁
    obtain ⟨s₃, hcm, hs₃, -⟩ := takeComment_at hs₂
    dsimp only
    rw [bind_ok hx, bind_ok hcm]
    have hb' := hb.tail hk rfl
    have hi' : safe → EndsIdle 3 as := fun h => (hi h).behind hk rfl
    simp only [List.length_cons] at hf
    have hfirst : Ample safe (Parser.operand fuel s₃) :=
      ih (.operand default) hs₃ trivial hb' (by simp only [Phrase.slack]; omega) hi'
    refine ample_bind hfirst fun first s₄ ho => ?_
    obtain ⟨mid₁, left₁, last₄, hfirst, hs₄, -, hh₄⟩ :=
      (keeps bytes fuel).1 (.operand first) ho hs₃ trivial hb'
    have hlen₁ := hfirst.length_lt rfl
    have hright : Ample safe (Parser.climbRight fuel op first s₄) :=
      ihr hs₄ hh₄ (hfirst.sealed hb') (by omega) fun h => hfirst.idling (hi' h)
    refine ample_bind hright fun right s₅ hcr => ?_
    obtain ⟨mid₂, left₂, last₅, hright, hs₅, hl₅, hh₅⟩ :=
      (keeps bytes fuel).2 hcr hs₄ hh₄ (hfirst.sealed hb')
    -- Nothing is taken if no operator binds more tightly, so the operand before has to pay for the
    -- next call.
    have hlen₂ := hright.length_le
    simp only [Phrase.advances, Bool.false_eq_true, if_false, Nat.add_zero] at hlen₂
    rw [bind_ok (breaksBetween_at hs₅ _ _), bind_ok (locate_at hs₅ _)]
    exact ih (.climb least _ left₂ default) hs₅ ⟨hl₅, hh₅⟩ (hright.sealed (hfirst.sealed hb'))
      (by simp only [Phrase.slack]; omega) fun h => hright.idling (hfirst.idling (hi' h))

theorem Suffices.climbRight (ih : Suffices safe bytes fuel) (ihr : SufficesRight safe bytes fuel) :
    SufficesRight safe bytes (fuel + 1) := by
  intro op n₀ ending before s last hs hh hb hf hi
  rw [Parser.climbRight]
  refine ample_bind (ample_peekOperator _ hs fun h => (hi h).ne_nil) fun next? s₁ hp => ?_
  obtain ⟨a, as, rfl, rfl, hs₁, hh₁⟩ := peekOperator_eq_ok hp hs hb
  cases hj : a.token.kind.joining? (op.precedence + 1) with
  | none => exact steady_pure _ s₁
  | some tighter =>
    obtain ⟨hk, -⟩ := TokenKind.joining?_eq_some hj
    have hstart : last.comment = last.comment ∧ s₁.held ≤ 1 := ⟨rfl, Nat.le_of_eq (hh₁ hh)⟩
    have hin : Ample safe (Parser.climb fuel n₀ tighter.precedence s₁) :=
      ih (.climb tighter.precedence n₀ last.comment default) hs₁ hstart hb
        (by simp only [Phrase.slack]; omega) hi
    refine ample_bind hin fun m s₂ hc => ?_
    obtain ⟨mid, left, last₂, hm, hs₂, -, hh₂⟩ :=
      (keeps bytes fuel).1 (.climb tighter.precedence n₀ last.comment m) hc hs₁ hstart hb
    -- The operator that was seen is taken with the operand behind it.
    have hlen := hm.length_of_join hk (Nat.le_refl _)
    simp only [List.length_cons] at hf
    exact ihr hs₂ hh₂ (hm.sealed hb) (by omega) fun h => hm.idling (hi h)

theorem Suffices.list (ih : Suffices safe bytes fuel) (sort : ListSort)
    (hs : s.At bytes ending last before) (hb : Sealed ending before)
    (hf : 4 * before.length + 3 ≤ fuel) (hi : safe → EndsIdle 3 before) :
    Ample safe (sort.parse (fuel + 1) s) := by
  rw [sort.parse_succ]
  refine ample_bind (ample_peek hs fun h => (hi h).ne_nil) fun token s₁ hp => ?_
  obtain ⟨a, as, rfl, rfl, hs₁, -⟩ := peek_eq_ok hp hs hb
  by_cases hk : a.token.kind = sort.close
  · rw [if_pos hk]
    exact steady_pure _ s₁
  · rw [if_neg hk]
    have hi' : safe → (sort.element default).Roomy (a :: as) :=
      fun h => (sort.roomy_element _).2 (hi h)
    have hfirst : Ample safe (sort.parseElement fuel s₁) := by
      have hin := ih (sort.element default) hs₁ (sort.starts_element _) hb
        (by have := sort.slack_element default; omega) hi'
      cases sort <;> exact hin
    refine ample_bind hfirst fun first s₂ he => ?_
    obtain ⟨mid, left, last₂, hreads, hs₂, -⟩ := (keeps bytes fuel).1 (sort.element first)
      (sort.runs_element_iff.2 he) hs₁ (sort.starts_element first) hb
    have hlen := hreads.length_lt (sort.advances_element first)
    have hmid : safe → Idling mid := fun h => hreads.idling ((sort.roomy_element _).2 (hi h))
    refine ample_bind (ample_next hs₂ fun h => (hmid h).ne_nil) fun token s₃ hx => ?_
    obtain ⟨t, rest, rfl, rfl, hs₃, -⟩ := next_eq_ok hx hs₂ (hreads.sealed hb)
    -- The comma pays for the rest of the list.
    by_cases ht : t.token.kind = .comma
    · rw [if_pos ht]
      simp only [List.length_cons] at hf hlen
      have hmore : Ample safe (sort.parse fuel s₃) :=
        ih (.list sort []) hs₃ trivial ((hreads.sealed hb).tail ht rfl)
          (by simp only [Phrase.slack]; omega) fun h => (hmid h).behind ht rfl
      exact ample_bind hmore fun more s₄ _ => steady_pure _ s₄
    · rw [if_neg ht]
      exact (steady_backup.bind fun _ => steady_pure _) s₃

theorem Suffices.call (ih : Suffices safe bytes fuel) {kind : CallKind}
    (hs : s.At bytes ending last before) (hb : Sealed ending before)
    (hf : 4 * before.length + 1 ≤ fuel) (hi : safe → EndsIdle 3 before) :
    Ample safe (Parser.function (fuel + 1) kind s) := by
  rw [Parser.function]
  refine ample_bind (ample_expect _ hs fun h => (hi h).ne_nil) fun token s₁ hname => ?_
  obtain ⟨a, as, rfl, hk, rfl, hs₁, -⟩ := expect_eq_ok hname hs hb
  obtain ⟨s₂, hcm, hs₂, -⟩ := takeComment_at hs₁
  rw [bind_ok hcm]
  have hi₁ : safe → EndsIdle 3 as := fun h => (hi h).behind hk rfl
  refine ample_bind (ample_expect _ hs₂ fun h => (hi₁ h).ne_nil) fun token s₃ ho => ?_
  obtain ⟨o, os, rfl, hlp, -, hs₃, -⟩ := expect_eq_ok ho hs₂ (hb.tail hk rfl)
  simp only [List.length_cons] at hf
  have hb' := (hb.tail hk rfl).tail hlp rfl
  have hi₂ : safe → EndsIdle 3 os := fun h => (hi₁ h).behind hlp rfl
  have hargs : Ample safe (Parser.expressionList fuel s₃) :=
    ih (.list .expressions []) hs₃ trivial hb' (by simp only [Phrase.slack]; omega) hi₂
  refine ample_bind hargs fun args s₄ hargs => ?_
  obtain ⟨mid, left, last₄, hreads, hs₄, -⟩ :=
    (keeps bytes fuel).1 (.list .expressions args) hargs hs₃ trivial hb'
  exact ample_expect_bind hs₄ (fun h => (hreads.idling (hi₂ h)).ne_nil) fun _ =>
    steady_call _ _ _ _

/-- A call is rejected where no name stands. -/
theorem ample_function (hf : 1 ≤ fuel) (kind : CallKind) {a : Slot} {as : List Slot}
    (hs : s.At bytes ending last (a :: as)) (hk : a.token.kind ≠ .ident) :
    Ample safe (Parser.function fuel kind s) := by
  obtain ⟨fuel, rfl⟩ : ∃ k, fuel = k + 1 := ⟨fuel - 1, by omega⟩
  rw [Parser.function]
  refine ample_bind (ample_expect _ hs fun _ => List.cons_ne_nil a as) fun token s₁ hname => ?_
  exact absurd (kind_of_expect hname hs) hk

theorem Suffices.step (ih : Suffices safe bytes fuel) {op : ChainOp}
    (hs : s.At bytes ending last before) (hb : Sealed ending before)
    (hf : 4 * before.length + 2 ≤ fuel) (hi : safe → EndsIdle 3 before) :
    Ample safe (Parser.step (fuel + 1) op s) := by
  rw [Parser.step]
  refine ample_bind (ample_next hs fun h => (hi h).ne_nil) fun token s₁ hx => ?_
  obtain ⟨a, as, rfl, -, hs₁, hh₁⟩ := next_eq_ok hx hs hb
  have hcall {s' : Lookahead} {last' : Slot} (hs' : s'.At bytes ending last' (a :: as)) :
      Ample safe (Parser.function fuel (CallKind.ofChain op) s') :=
    ih (.call (CallKind.ofChain op) default) hs' trivial hb (by simp only [Phrase.slack]; omega) hi
  by_cases hop : op = .pipe
  · rw [if_pos hop, bind_ok (pure_ok true)]
    obtain ⟨s₂, last₂, hbk, hs₂⟩ := backup_at hs₁ hh₁
    dsimp only
    rw [bind_ok hbk, if_pos rfl]
    exact hcall hs₂
  · rw [if_neg hop]
    have has : safe → as ≠ [] := fun h => (hi h).tail.ne_nil
    refine ample_bind (ample_peek hs₁ has) fun token s₂ hp => ?_
    rw [bind_ok (pure_ok _)]
    -- Only behind a name is it known which slot is peeked at. Behind anything else a name is
    -- missed.
    have hlast : ∃ ahead, s₂.At bytes ending a ahead ∧ s₂.held ≤ 1 ∧
        (a.token.kind = .ident → ahead = as) := by
      by_cases hk : a.token.kind = .ident
      · obtain ⟨b, bs, rfl, -, hs₂, hh₂⟩ := peek_eq_ok hp hs₁ (hb.tail hk rfl)
        exact ⟨_, hs₂, Nat.le_of_eq (hh₂ hh₁), fun _ => rfl⟩
      · obtain ⟨ahead, hs₂, hh₂⟩ := peek_keeps hp hs₁ hh₁
        exact ⟨ahead, hs₂, hh₂, fun h => absurd h hk⟩
    obtain ⟨ahead, hs₂, hh₂, hahead⟩ := hlast
    obtain ⟨s₃, last₃, hbk, hs₃⟩ := backup_at hs₂ hh₂
    dsimp only
    rw [bind_ok hbk]
    split
    · by_cases hk : a.token.kind = .ident
      · obtain rfl := hahead hk
        exact hcall hs₃
      · exact ample_function (by omega) _ hs₃ hk
    · exact ample_name hs₃ fun _ => List.cons_ne_nil a ahead

theorem Suffices.chain (ih : Suffices safe bytes fuel) {n₀ : Node}
    (hs : s.At bytes ending last before) (hb : Sealed ending before)
    (hf : 4 * before.length + 3 ≤ fuel) (hi : safe → Idling before) :
    Ample safe (Parser.chain (fuel + 1) n₀ s) := by
  rw [Parser.chain]
  refine ample_bind (ample_peek hs fun h => (hi h).ne_nil) fun token s₁ hp => ?_
  obtain ⟨a, as, rfl, rfl, hs₁, -⟩ := peek_eq_ok hp hs hb
  cases hk : a.token.kind with
  | chain op =>
    obtain ⟨s₂, hx, hs₂, -⟩ := next_at hs₁
    obtain ⟨s₃, hcm, hs₃, -⟩ := takeComment_at hs₂
    dsimp only
    rw [bind_ok hx, bind_ok hcm]
    have hb' := hb.tail hk rfl
    have hi' : safe → EndsIdle 3 as := fun h => (hi h).behind hk rfl
    simp only [List.length_cons] at hf
    have hstep : Ample safe (Parser.step fuel op s₃) :=
      ih (.step op default) hs₃ trivial hb' (by simp only [Phrase.slack]; omega) hi'
    refine ample_bind hstep fun right s₄ hr => ?_
    obtain ⟨mid, left, last₄, hright, hs₄, hl₄, hh₄⟩ :=
      (keeps bytes fuel).1 (.step op right) hr hs₃ trivial hb'
    have hlen := hright.length_lt rfl
    rw [bind_ok (locate_at hs₄ _)]
    exact ih (.chain _ left default) hs₄ ⟨hl₄, hh₄⟩ (hright.sealed hb')
      (by simp only [Phrase.slack]; omega) fun h => hright.idling (hi' h)
  | _ => exact steady_pure _ s₁

/-- An expression that begins with a name: a call, a chain or an operation. -/
theorem Suffices.named (ih : Suffices safe bytes fuel) {a b : Slot} {as : List Slot}
    (hs : s.At bytes ending last (a :: b :: as)) (hk : a.token.kind = .ident)
    (hb : Sealed ending (a :: b :: as)) (hf : 4 * (a :: b :: as).length + 2 ≤ fuel)
    (hi : safe → EndsIdle 3 (a :: b :: as)) :
    Ample safe ((do
      if b.token.kind = .lparen then
        let first ← Parser.function fuel .global
        if continuesChain (← peek).kind then Parser.chain fuel first else Parser.climb fuel first 0
      else if continuesChain b.token.kind then
        let first ← identifier
        Parser.chain fuel (.identifier first)
      else Parser.operation fuel : Parser Node) s) := by
  simp only [List.length_cons] at hf
  by_cases hlp : b.token.kind = .lparen
  · rw [if_pos hlp]
    have hcall : Ample safe (Parser.function fuel .global s) :=
      ih (.call .global default) hs trivial hb
        (by simp only [Phrase.slack, List.length_cons]; omega) hi
    refine ample_bind hcall fun first s₁ hfirst => ?_
    obtain ⟨mid, left, last₁, hreads, hs₁, hl₁, hh₁⟩ :=
      (keeps bytes fuel).1 (.call .global first) hfirst hs trivial hb
    have hlen := hreads.length_lt rfl
    have hmid : safe → Idling mid := fun h => hreads.idling (hi h)
    simp only [List.length_cons] at hlen
    refine ample_bind (ample_peek hs₁ fun h => (hmid h).ne_nil) fun token s₂ hp => ?_
    obtain ⟨c, cs, rfl, rfl, hs₂, hh₂⟩ := peek_eq_ok hp hs₁ (hreads.sealed hb)
    simp only [List.length_cons] at hlen
    -- A chain or an operator goes on behind the call, with the comment that the call left.
    have hstart : last₁.comment = left ∧ s₂.held ≤ 1 := ⟨hl₁, Nat.le_of_eq (hh₂ hh₁)⟩
    split
    · exact ih (.chain first left default) hs₂ hstart (hreads.sealed hb)
        (by simp only [Phrase.slack, List.length_cons]; omega) hmid
    · exact ih (.climb 0 first left default) hs₂ hstart (hreads.sealed hb)
        (by simp only [Phrase.slack, List.length_cons]; omega) hmid
  · rw [if_neg hlp]
    split
    · have hn : safe → a :: b :: as ≠ [] := fun _ => List.cons_ne_nil _ _
      refine ample_bind (ample_identifier hs hn) fun ident s₁ hident => ?_
      obtain ⟨_, _, ⟨⟩, -, -, hs₁, hh₁⟩ := identifier_eq_ok hident hs hb
      exact ih (.chain _ none default) hs₁ ⟨rfl, hh₁⟩ (hb.tail hk rfl)
        (by simp only [Phrase.slack, List.length_cons]; omega)
        fun h => .inl ((hi h).behind hk rfl)
    · exact ih (.operation default) hs trivial hb
        (by simp only [Phrase.slack, List.length_cons]; omega) hi

theorem Suffices.expression (ih : Suffices safe bytes fuel) (hs : s.At bytes ending last before)
    (hb : Sealed ending before) (hf : 4 * before.length + 2 ≤ fuel)
    (hi : safe → EndsIdle 3 before) : Ample safe (Parser.expression (fuel + 1) s) := by
  rw [Parser.expression]
  refine ample_bind (ample_peek hs fun h => (hi h).ne_nil) fun token s₁ hp => ?_
  obtain ⟨a, as, rfl, rfl, hs₁, -⟩ := peek_eq_ok hp hs hb
  have hoperation : Ample safe (Parser.operation fuel s₁) :=
    ih (.operation default) hs₁ trivial hb (by simp only [Phrase.slack]; omega) hi
  have hlen : 4 * as.length + 4 ≤ fuel := by
    simp only [List.length_cons] at hf
    omega
  cases hk : a.token.kind with
  | ident =>
    obtain ⟨s₂, hx, hs₂, hh₂⟩ := next_at hs₁
    simp only
    rw [bind_ok hx]
    have hi' : safe → EndsIdle 3 as := fun h => (hi h).behind hk rfl
    refine ample_bind (ample_peek hs₂ fun h => (hi' h).ne_nil) fun token s₃ hp₃ => ?_
    obtain ⟨b, bs, rfl, rfl, hs₃, hh₃⟩ := peek_eq_ok hp₃ hs₂ (hb.tail hk rfl)
    obtain ⟨s₄, last₄, hbk, hs₄⟩ := backup_at hs₃ (Nat.le_of_eq (hh₃ hh₂))
    rw [bind_ok hbk]
    exact ih.named hs₄ hk hb hf hi
  | lambda =>
    obtain ⟨s₂, hx, hs₂, -⟩ := next_at hs₁
    obtain ⟨s₃, hinfo, hs₃, -⟩ := infoOf_at hs₂ a.token
    simp only [Parser.lambda]
    rw [bind_ok hx, bind_ok hinfo]
    have hbody : Ample safe (Parser.operation fuel s₃) :=
      ih (.operation default) hs₃ trivial (hb.tail hk rfl) (by simp only [Phrase.slack]; omega)
        fun h => (hi h).behind hk rfl
    exact ample_bind hbody fun body s₄ _ => steady_pure _ s₄
  | lbracket =>
    obtain ⟨s₂, hx, hs₂, -⟩ := expect_at hs₁ hk
    obtain ⟨s₃, hinfo, hs₃, -⟩ := infoOf_at hs₂ a.token
    simp only [Parser.list]
    rw [bind_ok hx, bind_ok hinfo]
    have hb' := hb.tail hk rfl
    have hi' : safe → EndsIdle 3 as := fun h => (hi h).behind hk rfl
    have hitems : Ample safe (Parser.itemList fuel s₃) :=
      ih (.list .items []) hs₃ trivial hb' (by simp only [Phrase.slack]; omega) hi'
    refine ample_bind hitems fun items s₄ hitems => ?_
    obtain ⟨mid, left, last₄, hreads, hs₄, -⟩ :=
      (keeps bytes fuel).1 (.list .items items) hitems hs₃ trivial hb'
    exact ample_expect_bind hs₄ (fun h => (hreads.idling (hi' h)).ne_nil) fun _ => steady_pure _
  | _ => exact hoperation

theorem SufficesExpression.statement (ih : SufficesExpression safe bytes fuel)
    (hs : s.At bytes ending last before) (hb : Sealed ending before)
    (hf : 4 * before.length + 3 ≤ fuel) (hi : safe → EndsIdle 3 before) :
    Ample safe (Parser.statement fuel s) := by
  rw [Parser.statement]
  refine ample_bind (ample_peek hs fun h => (hi h).ne_nil) fun token s₁ hp => ?_
  obtain ⟨a, as, rfl, rfl, hs₁, -⟩ := peek_eq_ok hp hs hb
  by_cases hk : a.token.kind = .var
  · rw [if_pos hk, declaration]
    obtain ⟨s₂, hx, hs₂, -⟩ := expect_at hs₁ hk
    obtain ⟨s₃, hcm, hs₃, -⟩ := takeComment_at hs₂
    rw [bind_ok hx, bind_ok hcm]
    have hb₁ := hb.tail hk rfl
    have hi₁ : safe → EndsIdle 3 as := fun h => (hi h).behind hk rfl
    refine ample_bind (ample_identifier hs₃ fun h => (hi₁ h).ne_nil) fun name s₄ hid => ?_
    obtain ⟨i, is, rfl, hik, -, hs₄, -⟩ := identifier_eq_ok hid hs₃ hb₁
    have hb₂ := hb₁.tail hik rfl
    have hi₂ : safe → EndsIdle 3 is := fun h => (hi₁ h).behind hik rfl
    rw [bind_ok (locate_at hs₄ _)]
    refine ample_bind (ample_peek hs₄ fun h => (hi₂ h).ne_nil) fun token s₅ hp₅ => ?_
    obtain ⟨e, es, rfl, rfl, hs₅, -⟩ := peek_eq_ok hp₅ hs₄ hb₂
    -- A value may stand behind the name, or its type, for which no fuel is needed.
    by_cases he : e.token.kind = .assign
    · rw [if_pos he]
      obtain ⟨s₆, hx₆, hs₆, -⟩ := expect_at hs₅ he
      rw [bind_ok hx₆]
      simp only [List.length_cons] at hf
      have hvalue : Ample safe (Parser.expression fuel s₆) :=
        ih hs₆ (hb₂.tail he rfl) (by omega) fun h => (hi₂ h).behind he rfl
      exact ample_bind hvalue fun value s₇ _ => steady_pure _ s₇
    · rw [if_neg he]
      refine ample_bind (ample_identifier hs₅ fun h => (hi₂ h).ne_nil) fun type s₆ _ => ?_
      exact steady_pure _ s₆
  · rw [if_neg hk]
    exact ih hs₁ hb hf hi

theorem Suffices.statements (ih : Suffices safe bytes fuel) (hs : s.At bytes ending last before)
    (hb : Sealed ending before) (hf : 4 * before.length + 3 ≤ fuel) (hi : ¬safe) :
    Ample safe (Parser.statements (fuel + 1) s) := by
  rw [Parser.statements]
  refine ample_bind (ample_peek hs fun h => absurd h hi) fun token s₁ hp => ?_
  obtain ⟨a, as, rfl, rfl, hs₁, -⟩ := peek_eq_ok hp hs hb
  by_cases hk : a.token.kind = .eof
  · rw [if_pos hk]
    -- The end of the text is read without fuel.
    intro f s' h
    cases h
  · rw [if_neg hk]
    have hfirst : Ample safe (Parser.statement fuel s₁) :=
      ih (.statement default) hs₁ trivial hb (by simp only [Phrase.slack]; omega)
        fun h => absurd h hi
    refine ample_bind hfirst fun first s₂ hst => ?_
    obtain ⟨mid, left, last₂, hreads, hs₂, hl₂, hh₂⟩ :=
      (keeps bytes fuel).1 (.statement first) hst hs₁ trivial hb
    have hlen := hreads.length_lt rfl
    have hmore : Ample safe (Parser.statements fuel s₂) :=
      ih (.statements left []) hs₂ ⟨hl₂, hh₂⟩ (hreads.sealed hb)
        (by simp only [Phrase.slack]; omega) hi
    exact ample_bind hmore fun more s₃ _ => steady_pure _ s₃

end

/-- **Parsing fails properly**, as long as the fuel is four for each slot and a little more. -/
theorem suffices_fuel (safe : Prop) (bytes : List UInt8) (fuel : Nat) :
    Suffices safe bytes fuel ∧ SufficesRight safe bytes fuel := by
  induction fuel with
  | zero =>
    refine ⟨?_, fun _ _ _ hf _ => by omega⟩
    intro ph ending before s last hs hstart hb hf hi
    -- Without fuel there is no slot, except for an item, which needs none.
    cases ph with
    | item n => exact Parser.ample_item hs hb fun h => (hi h).ne_nil
    | _ =>
      simp only [Phrase.slack] at hf
      omega
  | succ fuel ih =>
    obtain ⟨ih, ihr⟩ := ih
    have hexp : SufficesExpression safe bytes (fuel + 1) :=
      fun hs hb hf hi => ih.expression hs hb (by omega) hi
    refine ⟨?_, ih.climbRight ihr⟩
    intro ph ending before s last hs hstart hb hf hi
    cases ph with
    | operand n => exact ih.operand hs hb (by simp only [Phrase.slack] at hf; omega) hi
    | operation n => exact ih.operation hs hb (by simp only [Phrase.slack] at hf; omega) hi
    | climb least n₀ comment n =>
      exact ih.climb ihr hs hb (by simp only [Phrase.slack] at hf; omega) hi
    | item n => exact Parser.ample_item hs hb fun h => (hi h).ne_nil
    | list sort ns => exact ih.list sort hs hb (by simp only [Phrase.slack] at hf; omega) hi
    | expression n => exact ih.expression hs hb (by simp only [Phrase.slack] at hf; omega) hi
    | chain n₀ comment n => exact ih.chain hs hb (by simp only [Phrase.slack] at hf; omega) hi
    | step op n => exact ih.step hs hb (by simp only [Phrase.slack] at hf; omega) hi
    | call kind n => exact ih.call hs hb (by simp only [Phrase.slack] at hf; omega) hi
    | statement n => exact hexp.statement hs hb (by simp only [Phrase.slack] at hf; omega) hi
    | statements comment ns =>
      exact ih.statements hs hb (by simp only [Phrase.slack] at hf; omega) hi

/-! ## Whole scripts -/

/-- A parser that does not reach the bound gives something else. -/
theorem Parser.runOn_ne_exhausted {safe : Prop} {α : Type} {x : Parser α} {s : Lookahead}
    (h : Ample safe (x s)) : x.runOn s ≠ .error .exhausted := by
  rw [runOn]
  split
  · intro h'
    cases h'
  · rename_i e s' hx
    intro h'
    cases h'
    exact (h _ s' hx).ne_exhausted rfl

section

variable {source : List Char} {fuel : Nat}

/-- With four for each token and four on top the statements are read up to the end of the text. -/
theorem Parser.ample_statements_to_end (hf : 4 * (slotsIn source).length + 4 ≤ fuel)
    (f : List Node → Node) :
    Ample False
      ((do
        let statements ← statements fuel
        let _ ← expect .eof
        return f statements) (.ofSource source)) := by
  have hs := Lookahead.ofSource_at source
  have hb := sealed_slotsIn source
  have hstatements : Ample False (statements fuel (.ofSource source)) :=
    (suffices_fuel False _ _).1 (.statements none []) hs ⟨rfl, Nat.zero_le _⟩ hb hf False.elim
  refine ample_bind hstatements fun ns s₁ hns => ?_
  obtain ⟨after, left, last, -, hs₁, -⟩ :=
    (keeps _ _).1 (.statements none ns) hns hs ⟨rfl, Nat.zero_le _⟩ hb
  exact ample_expect_bind hs₁ False.elim fun _ => steady_pure _

/-- With as much an operation is read up to the end of the text. -/
theorem Parser.ample_operation_to_end (hf : 4 * (slotsIn source).length + 4 ≤ fuel)
    (f : Position → Node → Node) :
    Ample False
      ((do
        let body ← operation fuel
        let position ← locate 0
        let _ ← expect .eof
        return f position body) (.ofSource source)) := by
  have hs := Lookahead.ofSource_at source
  have hb := sealed_slotsIn source
  have hbody : Ample False (operation fuel (.ofSource source)) :=
    (suffices_fuel False _ _).1 (.operation default) hs trivial hb
      (by simp only [Phrase.slack]; omega) False.elim
  refine ample_bind hbody fun body s₁ hn => ?_
  obtain ⟨after, left, last, -, hs₁, -⟩ := (keeps _ _).1 (.operation body) hn hs trivial hb
  rw [bind_ok (locate_at hs₁ 0)]
  exact ample_expect_bind hs₁ False.elim fun _ => steady_pure _

end

/-- **A script is parsed, or rejected, or its tokens do not come to an end**: the bound on the depth
of the grammar plays no part. -/
theorem parse_ne_exhausted (source : String) : parse source ≠ .error .exhausted := by
  have hs := Lookahead.ofSource_at source.toList
  have hlen := Lookahead.length_slotsIn_le source.toList
  refine Parser.runOn_ne_exhausted (?_ : Ample False _)
  rw [Parser.program, Parser.bind_ok (Parser.locate_at hs 0), Parser.depth_bind]
  exact Parser.ample_statements_to_end (by omega) _

theorem parseLambda_ne_exhausted (source : String) : parseLambda source ≠ .error .exhausted := by
  have hlen := Lookahead.length_slotsIn_le source.toList
  refine Parser.runOn_ne_exhausted (?_ : Ample False _)
  rw [Parser.lambdaBody, Parser.depth_bind]
  exact Parser.ample_operation_to_end (by omega) fun position body => .lambda ⟨position, none⟩ body

end PipelineScript

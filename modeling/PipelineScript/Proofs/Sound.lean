import PipelineScript.Proofs.Comments
import PipelineScript.Proofs.Complete
import PipelineScript.Proofs.Tokens

/-!
What the parser reads is in the grammar.

The converse of the completeness of the parser: if a function of the parser gives a tree, then the
grammar reads that tree from the slots ahead, and the parser stands where the grammar says. The
proof is by induction on the fuel, one lemma for each function.

A stream that ends has the end of the text or a diagnostic as its last token. No phrase takes it,
so as long as the parser succeeds there is a slot ahead; in a stream that does not end the parser
fails where the slots run out.
-/
namespace PipelineScript

variable {engine : PatternEngine}

/-! ## Texts that come to an end -/

/-- One of the slots ends the text. -/
def Bounded (ts : List Slot) : Prop := ∃ t ∈ ts, t.token.kind.isLast = true

theorem Bounded.tail {t : Slot} {ts : List Slot} {kind : TokenKind} (h : Bounded (t :: ts))
    (ht : t.token.kind = kind) (hk : kind.isLast = false) : Bounded ts := by
  obtain ⟨s, hs, hlast⟩ := h
  rcases List.mem_cons.1 hs with rfl | hs
  · rw [ht, hk] at hlast
    cases hlast
  · exact ⟨s, hs, hlast⟩

/-- If the stream ends, one of the slots ends the text. -/
def Sealed (ending : StreamEnd) (ts : List Slot) : Prop := ending = .ended → Bounded ts

theorem Sealed.tail {ending : StreamEnd} {t : Slot} {ts : List Slot} {kind : TokenKind}
    (h : Sealed ending (t :: ts)) (ht : t.token.kind = kind) (hk : kind.isLast = false) :
    Sealed ending ts := fun he => (h he).tail ht hk

theorem UnaryOp.isLast_tokenKind (op : UnaryOp) : op.tokenKind.isLast = false := by
  cases op <;> rfl

/-- No phrase takes a slot that ends the text. -/
theorem Reads.bounded {bytes : List UInt8} {ph : Phrase} {before after : List Slot}
    {left : Option Comment} (h : Reads bytes ph before after left) (hb : Bounded before) :
    Bounded after := by
  induction h with
  | paren ht _ hc ih => exact (ih (hb.tail ht rfl)).tail hc rfl
  | bracket ht _ hc ih => exact (ih (hb.tail ht rfl)).tail hc rfl
  | number ht | string ht | bool ht | duration ht | regex ht | star ht | reference ht
  | name ht | itemName ht | itemString ht | itemStar ht => exact hb.tail ht rfl
  | applied ht ho _ hc ih | function ht ho _ hc ih =>
    exact (ih ((hb.tail ht rfl).tail ho rfl)).tail hc rfl
  | unary ht _ ih => exact ih (hb.tail ht (UnaryOp.isLast_tokenKind _))
  | operation _ _ ihf ihn => exact ihn (ihf hb)
  | stop | listEnd | chainEnd => exact hb
  | join ht _ _ _ _ ihf ihr ihn => exact ihn (ihr (ihf (hb.tail ht rfl)))
  | listLast _ _ _ ih => exact ih hb
  | listMore _ _ ht _ ih ihs => exact ihs ((ih hb).tail ht rfl)
  | lambda ht _ ih => exact ih (hb.tail ht rfl)
  | unnamed _ _ _ _ ih | named _ _ _ _ ih | express _ _ ih | stepCall _ _ ih => exact ih hb
  | chained ht _ _ ih => exact ih (hb.tail ht rfl)
  | callChained _ _ _ _ _ ihf ihn | callJoined _ _ _ _ _ ihf ihn => exact ihn (ihf hb)
  | chainStep ht _ _ ihr ihn => exact ihn (ihr (hb.tail ht rfl))
  | stepName _ ht _ => exact hb.tail ht rfl
  | declare ht hi he _ ih =>
    exact ih (((hb.tail ht rfl).tail hi rfl).tail he rfl)
  | declareType ht hi hy =>
    exact ((hb.tail ht rfl).tail hi rfl).tail hy rfl
  | @done t _ _ ht => exact ⟨t.bare, by simp, by rw [Slot.bare_token, ht]; rfl⟩
  | more _ _ _ ihn ihs => exact ihs (ihn hb)

theorem Reads.sealed {bytes : List UInt8} {ending : StreamEnd} {ph : Phrase}
    {before after : List Slot} {left : Option Comment} (h : Reads bytes ph before after left)
    (hb : Sealed ending before) : Sealed ending after := fun he => h.bounded (hb he)

/-! ## What a step that succeeds has done -/

theorem dropWhile_of_slotsBehind_eq_nil {bytes : List UInt8} {before ts : List Token}
    (h : slotsBehind bytes before ts = []) : ts.dropWhile Lookahead.isComment = [] := by
  induction ts generalizing before with
  | nil => rfl
  | cons t ts ih =>
    by_cases ht : Lookahead.isComment t = true
    · simp only [slotsBehind, ht, if_true] at h
      simpa [ht] using ih h
    · simp [slotsBehind, ht] at h

/-- Where the slots of a stream that does not end run out, no token is fetched. -/
theorem Lookahead.At.fetch_eq_error {s : Lookahead} {bytes : List UInt8} {ending : StreamEnd}
    {last : Slot} (hs : s.At bytes ending last []) (hb : Sealed ending []) :
    s.held = 0 ∧ s.fetch = .error ending := by
  obtain ⟨rfl, rfl, -, ha, -⟩ := hs
  -- Nothing is held back, since a token that is held back is ahead.
  match hheld : s.held with
  | 0 =>
    simp only [ahead, hheld] at ha
    refine ⟨rfl, ?_⟩
    rw [fetch, dropWhile_of_slotsBehind_eq_nil ha]
    cases he : s.ending with
    | ended =>
      obtain ⟨t, ht, -⟩ := hb he
      cases ht
    | lost => rfl
    | endless => rfl
  | 1 => simp [ahead, hheld] at ha
  | n + 2 => simp [ahead, hheld] at ha

namespace Parser

variable {α β : Type} {s s' : Lookahead} {bytes : List UInt8} {ending : StreamEnd} {last : Slot}
  {ahead : List Slot}

theorem bind_eq_ok {x : Parser α} {f : α → Parser β} {r : β} (h : (x >>= f) s = .ok r s') :
    ∃ m s₁, x s = .ok m s₁ ∧ f m s₁ = .ok r s' := by
  simp only [Bind.bind, EStateM.bind] at h
  cases hx : x s with
  | ok m s₁ => exact ⟨m, s₁, rfl, by simpa [hx] using h⟩
  | error e s₁ => simp [hx] at h

theorem pure_eq_ok {r r' : α} (h : (pure r : Parser α) s = .ok r' s') : r = r' ∧ s = s' := by
  cases h
  exact ⟨rfl, rfl⟩

theorem unexpected_ne_ok {token : Token} {kinds : List TokenKind} {r : α} :
    (unexpected token kinds : Parser α) s ≠ .ok r s' := by
  intro h
  cases h

theorem literal_eq_ok {token : Token} {value : Except NodeError α} {r : α}
    (h : literal token value s = .ok r s') : value = .ok r ∧ s = s' := by
  cases value with
  | error e => cases h
  | ok v =>
    obtain ⟨rfl, rfl⟩ := pure_eq_ok h
    exact ⟨rfl, rfl⟩

theorem next_eq_ok {token : Token} (h : next s = .ok token s') (hs : s.At bytes ending last ahead)
    (hb : Sealed ending ahead) :
    ∃ a as, ahead = a :: as ∧ token = a.token ∧ s'.At bytes ending a as ∧ s'.held ≤ 1 := by
  cases ahead with
  | nil =>
    obtain ⟨hh, hf⟩ := hs.fetch_eq_error hb
    simp [next, ofStep, Lookahead.next, hh, hf] at h
  | cons a as =>
    obtain ⟨s₁, hn, hs₁, hh₁⟩ := next_at hs
    rw [hn] at h
    cases h
    exact ⟨a, as, rfl, rfl, hs₁, hh₁⟩

theorem peek_eq_ok {token : Token} (h : peek s = .ok token s') (hs : s.At bytes ending last ahead)
    (hb : Sealed ending ahead) :
    ∃ a as, ahead = a :: as ∧ token = a.token ∧ s'.At bytes ending last (a :: as) ∧
      (s.held ≤ 1 → s'.held = 1) := by
  cases ahead with
  | nil =>
    obtain ⟨hh, hf⟩ := hs.fetch_eq_error hb
    simp [peek, ofStep, Lookahead.peek, hh, hf] at h
  | cons a as =>
    obtain ⟨s₁, hp, hs₁, hh₁⟩ := peek_at hs
    rw [hp] at h
    cases h
    exact ⟨a, as, rfl, rfl, hs₁, hh₁⟩

/-- Peeking keeps what was given out last, also where the slots have run out. -/
theorem peek_keeps {token : Token} (h : peek s = .ok token s') (hs : s.At bytes ending last ahead)
    (hh : s.held ≤ 1) : ∃ ahead', s'.At bytes ending last ahead' ∧ s'.held ≤ 1 := by
  obtain ⟨hb, he, hl, -, -⟩ := hs
  simp only [peek, ofStep_eq, Lookahead.peek] at h
  obtain hheld | hheld : s.held = 0 ∨ s.held = 1 := by omega
  · simp only [hheld] at h
    simp only [Lookahead.last, hheld] at hl
    cases hf : s.fetch with
    | error e => simp [hf] at h
    | ok r =>
      simp only [hf, EStateM.Result.ok.injEq] at h
      obtain ⟨-, rfl⟩ := h
      exact ⟨_, ⟨hb, he, by simp [Lookahead.last, hl], rfl, by simp⟩, by simp⟩
  · simp only [hheld, EStateM.Result.ok.injEq] at h
    obtain ⟨-, rfl⟩ := h
    exact ⟨_, ⟨hb, he, hl, rfl, by omega⟩, by omega⟩

theorem kind_of_expect {kind : TokenKind} {token : Token} {a : Slot} {as : List Slot}
    (h : expect kind s = .ok token s') (hs : s.At bytes ending last (a :: as)) :
    a.token.kind = kind := by
  obtain ⟨s₁, hx, -, -⟩ := next_at hs
  rw [expect, bind_ok hx] at h
  split at h
  · next hk => exact hk
  · exact absurd h unexpected_ne_ok

theorem expect_eq_ok {kind : TokenKind} {token : Token} (h : expect kind s = .ok token s')
    (hs : s.At bytes ending last ahead) (hb : Sealed ending ahead) :
    ∃ a as, ahead = a :: as ∧ a.token.kind = kind ∧ token = a.token ∧ s'.At bytes ending a as ∧
      s'.held ≤ 1 := by
  obtain ⟨token, s₁, hn, h⟩ := bind_eq_ok h
  obtain ⟨a, as, rfl, rfl, hs₁, hh⟩ := next_eq_ok hn hs hb
  split at h
  · next hk =>
    obtain ⟨rfl, rfl⟩ := pure_eq_ok h
    exact ⟨a, as, rfl, hk, rfl, hs₁, hh⟩
  · exact absurd h unexpected_ne_ok

theorem infoOf_eq_ok {token : Token} {info : Info} (h : infoOf token s = .ok info s')
    (hs : s.At bytes ending last ahead) :
    info = ⟨.locate bytes token.offset, last.comment⟩ ∧ s'.At bytes ending last.bare ahead ∧
      s'.held = s.held := by
  obtain ⟨s₁, hi, hs₁, hh⟩ := infoOf_at hs token
  rw [hi] at h
  cases h
  exact ⟨rfl, hs₁, hh⟩

/-- Taking a token of a kind together with the comment before it. -/
theorem expect_info_eq_ok {kind : TokenKind} {f : Token → Info → Parser α} {r : α}
    (h : (do let token ← expect kind; let info ← infoOf token; f token info) s = .ok r s')
    (hs : s.At bytes ending last ahead) (hb : Sealed ending ahead) :
    ∃ a as, ahead = a :: as ∧ a.token.kind = kind ∧ ∃ s₁, f a.token (a.info bytes) s₁ = .ok r s' ∧
      s₁.At bytes ending a.bare as ∧ s₁.held ≤ 1 := by
  obtain ⟨token, s₁, he, h⟩ := bind_eq_ok h
  obtain ⟨a, as, rfl, hk, rfl, hs₁, hh₁⟩ := expect_eq_ok he hs hb
  obtain ⟨info, s₂, hi, h⟩ := bind_eq_ok h
  obtain ⟨rfl, hs₂, hh₂⟩ := infoOf_eq_ok hi hs₁
  exact ⟨a, as, rfl, hk, s₂, h, hs₂, hh₂ ▸ hh₁⟩

theorem identifier_eq_ok {ident : Identifier} (h : identifier s = .ok ident s')
    (hs : s.At bytes ending last ahead) (hb : Sealed ending ahead) :
    ∃ a as, ahead = a :: as ∧ a.token.kind = .ident ∧ ident = ⟨a.info bytes, a.token.text⟩ ∧
      s'.At bytes ending a.bare as ∧ s'.held ≤ 1 := by
  obtain ⟨a, as, rfl, hk, s₁, h, hs₁, hh₁⟩ := expect_info_eq_ok h hs hb
  obtain ⟨rfl, rfl⟩ := pure_eq_ok h
  exact ⟨a, as, rfl, hk, rfl, hs₁, hh₁⟩

theorem string_eq_ok {n : Node} (h : string s = .ok n s') (hs : s.At bytes ending last ahead)
    (hb : Sealed ending ahead) :
    ∃ a as, ahead = a :: as ∧ a.token.kind = .string ∧
      Node.stringOfText? (a.info bytes) a.token.text = some n ∧ s'.At bytes ending a.bare as ∧
      s'.held ≤ 1 := by
  obtain ⟨a, as, rfl, hk, s₁, h, hs₁, hh₁⟩ := expect_info_eq_ok h hs hb
  cases hn : Node.stringOfText? (a.info bytes) a.token.text with
  | none =>
    rw [hn] at h
    cases h
  | some m =>
    rw [hn] at h
    obtain ⟨rfl, rfl⟩ := pure_eq_ok h
    exact ⟨a, as, rfl, hk, hn, hs₁, hh₁⟩

theorem star_eq_ok {n : Node} (h : star s = .ok n s') (hs : s.At bytes ending last ahead)
    (hb : Sealed ending ahead) :
    ∃ a as, ahead = a :: as ∧ a.token.kind = .star ∧ n = .star (a.info bytes) ∧
      s'.At bytes ending a.bare as ∧ s'.held ≤ 1 := by
  obtain ⟨a, as, rfl, hk, s₁, h, hs₁, hh₁⟩ := expect_info_eq_ok h hs hb
  obtain ⟨rfl, rfl⟩ := pure_eq_ok h
  exact ⟨a, as, rfl, hk, rfl, hs₁, hh₁⟩

theorem peekOperator_eq_ok {least : Nat} {op? : Option BinaryOp}
    (h : peekOperator least s = .ok op? s') (hs : s.At bytes ending last ahead)
    (hb : Sealed ending ahead) :
    ∃ a as, ahead = a :: as ∧ op? = a.token.kind.joining? least ∧
      s'.At bytes ending last (a :: as) ∧ (s.held ≤ 1 → s'.held = 1) := by
  obtain ⟨token, s₁, hp, h⟩ := bind_eq_ok h
  obtain ⟨a, as, rfl, rfl, hs₁, hh₁⟩ := peek_eq_ok hp hs hb
  obtain ⟨rfl, rfl⟩ := pure_eq_ok h
  exact ⟨a, as, rfl, rfl, hs₁, hh₁⟩

/-- Looking at the token behind the next one moves nothing. -/
theorem behind_eq_ok {f : Token → Parser α} {r : α}
    (h : (do let _ ← next; let behind ← peek; backup; f behind) s = .ok r s')
    (hs : s.At bytes ending last ahead) (hb : Sealed ending ahead)
    (hk : ∀ a as, ahead = a :: as → a.token.kind.isLast = false) :
    ∃ a b as s₁ last₁, ahead = a :: b :: as ∧ f b.token s₁ = .ok r s' ∧
      s₁.At bytes ending last₁ (a :: b :: as) := by
  obtain ⟨token, s₁, hn, h⟩ := bind_eq_ok h
  obtain ⟨a, as, rfl, rfl, hs₁, hh₁⟩ := next_eq_ok hn hs hb
  obtain ⟨token, s₂, hp, h⟩ := bind_eq_ok h
  obtain ⟨b, bs, rfl, rfl, hs₂, hh₂⟩ := peek_eq_ok hp hs₁ (hb.tail rfl (hk a as rfl))
  obtain ⟨s₃, last₃, hbk, hs₃⟩ := backup_at hs₂ (Nat.le_of_eq (hh₂ hh₁))
  rw [bind_ok hbk] at h
  exact ⟨a, b, bs, s₃, last₃, rfl, h, hs₃⟩

end Parser

/-! ## One lemma for each function of the parser -/

/-- The grammar reads the phrase from the slots `before`, and the parser stands behind it. -/
def Phrase.Explains (ph : Phrase) (bytes : List UInt8) (ending : StreamEnd) (before : List Slot)
    (s' : Lookahead) : Prop :=
  ∃ after left last, Reads bytes ph before after left ∧ s'.At bytes ending last after ∧
    ph.Ends s' last left

/-- With this fuel the parser keeps to the grammar. -/
def Keeps [PatternEngine] (bytes : List UInt8) (fuel : Nat) : Prop :=
  ∀ (ph : Phrase) {ending : StreamEnd} {before : List Slot} {s s' : Lookahead} {last : Slot},
    ph.Runs fuel s s' → s.At bytes ending last before → ph.Starts s last → Sealed ending before →
    ph.Explains bytes ending before s'

/-- With this fuel the parser keeps to the grammar behind the right operand of an operator. -/
def KeepsRight [PatternEngine] (bytes : List UInt8) (fuel : Nat) : Prop :=
  ∀ {op : BinaryOp} {n₀ n : Node} {ending : StreamEnd} {before : List Slot} {s s' : Lookahead}
    {last : Slot},
    Parser.climbRight fuel op n₀ s = .ok n s' → s.At bytes ending last before → s.held ≤ 1 →
    Sealed ending before →
    (Phrase.climb (op.precedence + 1) n₀ last.comment n).Explains bytes ending before s'

/-- With this fuel the parser keeps to the grammar in expressions. A statement calls `expression`
with its own fuel. -/
def KeepsExpression [PatternEngine] (bytes : List UInt8) (fuel : Nat) : Prop :=
  ∀ {n : Node} {ending : StreamEnd} {before : List Slot} {s s' : Lookahead} {last : Slot},
    Parser.expression fuel s = .ok n s' → s.At bytes ending last before → Sealed ending before →
    (Phrase.expression n).Explains bytes ending before s'

section

open PipelineScript.Parser

variable {bytes : List UInt8} {ending : StreamEnd} {fuel : Nat} {before : List Slot}
  {s s' : Lookahead} {last : Slot}

/-- A list leaves no comment behind. -/
theorem Reads.left_of_list {sort : ListSort} {ns : List Node} {after : List Slot}
    {left : Option Comment} (h : Reads bytes (.list sort ns) before after left) : left = none := by
  cases h <;> rfl

/-- A call takes at least two tokens. -/
theorem Reads.call_eq_cons {kind : CallKind} {n : Node} {a : Slot} {as after : List Slot}
    {left : Option Comment} (h : Reads bytes (.call kind n) (a :: as) after left) :
    ∃ b bs, as = b :: bs := by
  cases h with
  | function => exact ⟨_, _, rfl⟩

/-- A unary operator, which is next, and its operand. -/
theorem Keeps.unary (ih : Keeps bytes fuel) (op : UnaryOp) {n : Node} {a : Slot} {as : List Slot}
    (h : (do
      let _ ← next
      let inner ← Parser.operand fuel
      return .unary (← infoOf a.token) op inner : Parser Node) s = .ok n s')
    (hs : s.At bytes ending last (a :: as)) (hk : a.token.kind = op.tokenKind)
    (hb : Sealed ending (a :: as)) : (Phrase.operand n).Explains bytes ending (a :: as) s' := by
  obtain ⟨s₁, hx, hs₁, -⟩ := next_at hs
  rw [bind_ok hx] at h
  obtain ⟨m, s₂, ho, h⟩ := bind_eq_ok h
  obtain ⟨mid, left, last₂, hreads, hs₂, rfl, hh₂⟩ :=
    ih (.operand m) ho hs₁ trivial (hb.tail hk (UnaryOp.isLast_tokenKind op))
  obtain ⟨info, s₃, hi, h⟩ := bind_eq_ok h
  obtain ⟨rfl, hs₃, hh₃⟩ := infoOf_eq_ok hi hs₂
  obtain ⟨rfl, rfl⟩ := pure_eq_ok h
  exact ⟨mid, none, last₂.bare, .unary hk hreads, hs₃, rfl, hh₃ ▸ hh₂⟩

/-- An operation in parentheses, the opening one of which is next. -/
theorem Keeps.parens (ih : Keeps bytes fuel) {n : Node} {a : Slot} {as : List Slot}
    (h : (do
      let _ ← next
      let comment ← takeComment
      let node ← Parser.operation fuel
      let _ ← expect .rparen
      return node.parenthesize.setComment comment : Parser Node) s = .ok n s')
    (hs : s.At bytes ending last (a :: as)) (hk : a.token.kind = .lparen)
    (hb : Sealed ending (a :: as)) : (Phrase.operand n).Explains bytes ending (a :: as) s' := by
  obtain ⟨s₁, hx, hs₁, -⟩ := next_at hs
  obtain ⟨s₂, hcm, hs₂, -⟩ := takeComment_at hs₁
  rw [bind_ok hx, bind_ok hcm] at h
  obtain ⟨m, s₃, ho, h⟩ := bind_eq_ok h
  have hb' := hb.tail hk rfl
  obtain ⟨mid, left, last₃, hreads, hs₃, -⟩ := ih (.operation m) ho hs₂ trivial hb'
  obtain ⟨token, s₄, he, h⟩ := bind_eq_ok h
  obtain ⟨c, rest, rfl, hc, -, hs₄, hh⟩ := expect_eq_ok he hs₃ (hreads.sealed hb')
  obtain ⟨rfl, rfl⟩ := pure_eq_ok h
  exact ⟨rest, c.comment, c, .paren hk hreads hc, hs₄, rfl, hh⟩

/-- A call among operands, the name of which is next. -/
theorem Keeps.application (ih : Keeps bytes fuel) {n : Node} {a b : Slot} {as : List Slot}
    (h : (do
      let name ← expect .ident
      let _ ← expect .lparen
      let args ← Parser.operationList fuel
      let _ ← expect .rparen
      call name .global none args : Parser Node) s = .ok n s')
    (hs : s.At bytes ending last (a :: b :: as)) (hk : a.token.kind = .ident)
    (hlp : b.token.kind = .lparen) (hb : Sealed ending (a :: b :: as)) :
    (Phrase.operand n).Explains bytes ending (a :: b :: as) s' := by
  obtain ⟨s₁, hi, hs₁, -⟩ := expect_at hs hk
  obtain ⟨s₂, ho, hs₂, -⟩ := expect_at hs₁ hlp
  rw [bind_ok hi, bind_ok ho] at h
  obtain ⟨args, s₃, ha, h⟩ := bind_eq_ok h
  have hb' := (hb.tail hk rfl).tail hlp rfl
  obtain ⟨mid, left, last₃, hreads, hs₃, -⟩ := ih (.list .operations args) ha hs₂ trivial hb'
  obtain ⟨token, s₄, he, h⟩ := bind_eq_ok h
  obtain ⟨c, rest, rfl, hc, -, hs₄, hh⟩ := expect_eq_ok he hs₃ (hreads.sealed hb')
  rw [call_at hs₄] at h
  cases h
  obtain rfl := hreads.left_of_list
  exact ⟨rest, c.comment, c, .applied hk hlp hreads hc, hs₄, rfl, hh⟩

theorem Keeps.operand (ih : Keeps bytes fuel) {n : Node}
    (h : Parser.operand (fuel + 1) s = .ok n s') (hs : s.At bytes ending last before)
    (hb : Sealed ending before) : (Phrase.operand n).Explains bytes ending before s' := by
  rw [Parser.operand] at h
  obtain ⟨token, s₁, hp, h⟩ := bind_eq_ok h
  obtain ⟨a, as, rfl, rfl, hs₁, -⟩ := peek_eq_ok hp hs hb
  cases hk : a.token.kind with
  | lparen =>
    simp only [hk] at h
    exact ih.parens h hs₁ hk hb
  | number =>
    simp only [hk] at h
    obtain ⟨_, _, ⟨⟩, -, s₂, h, hs₂, hh⟩ := expect_info_eq_ok h hs₁ hb
    obtain ⟨v, s₃, hl, h⟩ := bind_eq_ok h
    obtain ⟨hv, rfl⟩ := literal_eq_ok hl
    obtain ⟨rfl, rfl⟩ := pure_eq_ok h
    exact ⟨as, none, a.bare, .number hk hv, hs₂, rfl, hh⟩
  | string =>
    simp only [hk] at h
    obtain ⟨_, _, ⟨⟩, -, hn, hs₂, hh⟩ := string_eq_ok h hs₁ hb
    exact ⟨as, none, a.bare, .string hk hn, hs₂, rfl, hh⟩
  | bool value =>
    simp only [hk] at h
    obtain ⟨s₂, hx, hs₂, hh₂⟩ := next_at hs₁
    rw [bind_ok hx] at h
    obtain ⟨info, s₃, hi, h⟩ := bind_eq_ok h
    obtain ⟨rfl, hs₃, hh₃⟩ := infoOf_eq_ok hi hs₂
    obtain ⟨rfl, rfl⟩ := pure_eq_ok h
    exact ⟨as, none, a.bare, .bool hk, hs₃, rfl, hh₃ ▸ hh₂⟩
  | duration =>
    simp only [hk] at h
    obtain ⟨_, _, ⟨⟩, -, s₂, h, hs₂, hh⟩ := expect_info_eq_ok h hs₁ hb
    obtain ⟨hn, rfl⟩ := literal_eq_ok h
    exact ⟨as, none, a.bare, .duration hk hn, hs₂, rfl, hh⟩
  | regex =>
    simp only [hk] at h
    obtain ⟨_, _, ⟨⟩, -, s₂, h, hs₂, hh⟩ := expect_info_eq_ok h hs₁ hb
    obtain ⟨hn, rfl⟩ := literal_eq_ok h
    exact ⟨as, none, a.bare, .regex hk hn, hs₂, rfl, hh⟩
  | star =>
    simp only [hk] at h
    obtain ⟨_, _, ⟨⟩, -, rfl, hs₂, hh⟩ := star_eq_ok h hs₁ hb
    exact ⟨as, none, a.bare, .star hk, hs₂, rfl, hh⟩
  | reference =>
    simp only [hk] at h
    obtain ⟨_, _, ⟨⟩, -, s₂, h, hs₂, hh⟩ := expect_info_eq_ok h hs₁ hb
    obtain ⟨rfl, rfl⟩ := pure_eq_ok h
    exact ⟨as, none, a.bare, .reference hk, hs₂, rfl, hh⟩
  | ident =>
    simp only [hk] at h
    obtain ⟨called, s₂, hcall, h⟩ := bind_eq_ok h
    -- A name does not end the text, so a token stands behind it.
    obtain ⟨_, b, bs, s₃, last₂, ⟨⟩, hcall, hs₂⟩ :=
      behind_eq_ok hcall hs₁ hb (by rintro _ _ ⟨⟩; rw [hk]; rfl)
    obtain ⟨rfl, rfl⟩ := pure_eq_ok hcall
    cases hbk : b.token.kind == .lparen with
    | false =>
      simp only [hbk, Bool.false_eq_true, if_false] at h
      obtain ⟨ident, s₃, hi, h⟩ := bind_eq_ok h
      obtain ⟨_, _, ⟨⟩, -, rfl, hs₃, hh⟩ := identifier_eq_ok hi hs₂ hb
      obtain ⟨rfl, rfl⟩ := pure_eq_ok h
      exact ⟨b :: bs, none, a.bare, .name hk (by simpa using hbk), hs₃, rfl, hh⟩
    | true =>
      simp only [hbk, if_true] at h
      exact ih.application h hs₂ hk (by simpa using hbk) hb
  | binary op =>
    cases op with
    | subtract =>
      simp only [hk] at h
      exact ih.unary .negate h hs₁ hk hb
    | _ =>
      simp only [hk] at h
      exact absurd h unexpected_ne_ok
  | not =>
    simp only [hk] at h
    exact ih.unary .not h hs₁ hk hb
  | _ =>
    simp only [hk] at h
    exact absurd h unexpected_ne_ok

theorem Keeps.operation (ih : Keeps bytes fuel) {n : Node}
    (h : Parser.operation (fuel + 1) s = .ok n s') (hs : s.At bytes ending last before)
    (hb : Sealed ending before) : (Phrase.operation n).Explains bytes ending before s' := by
  rw [Parser.operation] at h
  obtain ⟨first, s₁, ho, h⟩ := bind_eq_ok h
  obtain ⟨mid, left₁, last₁, hfirst, hs₁, rfl, hh₁⟩ := ih (.operand first) ho hs trivial hb
  obtain ⟨after, left, last₂, hn, hs₂, hl₂⟩ :=
    ih (.climb 0 first last₁.comment n) h hs₁ ⟨rfl, hh₁⟩ (hfirst.sealed hb)
  exact ⟨after, left, last₂, .operation hfirst hn, hs₂, hl₂⟩

theorem Keeps.climb (ih : Keeps bytes fuel) (ihr : KeepsRight bytes fuel) {least : Nat}
    {n₀ n : Node} (h : Parser.climb (fuel + 1) n₀ least s = .ok n s')
    (hs : s.At bytes ending last before)
    (hh : s.held ≤ 1) (hb : Sealed ending before) :
    (Phrase.climb least n₀ last.comment n).Explains bytes ending before s' := by
  rw [Parser.climb] at h
  obtain ⟨next?, s₁, hp, h⟩ := bind_eq_ok h
  obtain ⟨a, as, rfl, rfl, hs₁, hh₁⟩ := peekOperator_eq_ok hp hs hb
  cases hj : a.token.kind.joining? least with
  | none =>
    rw [hj] at h
    obtain ⟨rfl, rfl⟩ := pure_eq_ok h
    exact ⟨a :: as, last.comment, last, .stop hj, hs₁, rfl, Nat.le_of_eq (hh₁ hh)⟩
  | some op =>
    rw [hj] at h
    dsimp only at h
    obtain ⟨hk, hop⟩ := TokenKind.joining?_eq_some hj
    obtain ⟨s₂, hx, hs₂, -⟩ := next_at hs₁
    obtain ⟨s₃, hcm, hs₃, -⟩ := takeComment_at hs₂
    rw [bind_ok hx, bind_ok hcm] at h
    obtain ⟨first, s₄, ho, h⟩ := bind_eq_ok h
    have hb' := hb.tail hk rfl
    obtain ⟨mid₁, left₁, last₄, hfirst, hs₄, rfl, hh₄⟩ := ih (.operand first) ho hs₃ trivial hb'
    obtain ⟨right, s₅, hcr, h⟩ := bind_eq_ok h
    obtain ⟨mid₂, left₂, last₅, hright, hs₅, rfl, hh₅⟩ := ihr hcr hs₄ hh₄ (hfirst.sealed hb')
    rw [bind_ok (breaksBetween_at hs₅ _ _), bind_ok (locate_at hs₅ _)] at h
    -- The joined operand is the left one of what follows.
    obtain ⟨after, left, last₆, hn, hs₆, hl₆⟩ := ih
      (.climb least
        (.binary (a.info bytes) op n₀ right false
          (breaksIn bytes n₀.position.offset right.position.offset)) last₅.comment n)
      h hs₅ ⟨rfl, hh₅⟩ (hright.sealed (hfirst.sealed hb'))
    exact ⟨after, left, last₆, .join hk hop hfirst hright hn, hs₆, hl₆⟩

/-- What is joined round by round is one run of operators. -/
theorem Keeps.climbRight (ih : Keeps bytes fuel) (ihr : KeepsRight bytes fuel) :
    KeepsRight bytes (fuel + 1) := by
  intro op n₀ n ending before s s' last h hs hh hb
  rw [Parser.climbRight] at h
  obtain ⟨next?, s₁, hp, h⟩ := bind_eq_ok h
  obtain ⟨a, as, rfl, rfl, hs₁, hh₁⟩ := peekOperator_eq_ok hp hs hb
  cases hj : a.token.kind.joining? (op.precedence + 1) with
  | none =>
    rw [hj] at h
    obtain ⟨rfl, rfl⟩ := pure_eq_ok h
    exact ⟨a :: as, last.comment, last, .stop hj, hs₁, rfl, Nat.le_of_eq (hh₁ hh)⟩
  | some tighter =>
    rw [hj] at h
    dsimp only at h
    obtain ⟨-, hop⟩ := TokenKind.joining?_eq_some hj
    obtain ⟨m, s₂, hc, h⟩ := bind_eq_ok h
    obtain ⟨mid, left₁, last₂, hm, hs₂, rfl, hh₂⟩ :=
      ih (.climb tighter.precedence n₀ last.comment m) hc hs₁ ⟨rfl, Nat.le_of_eq (hh₁ hh)⟩ hb
    obtain ⟨after, left, last₃, hn, hs₃, hl₃⟩ := ihr h hs₂ hh₂ (hm.sealed hb)
    -- The round and what is joined behind it are one run of the grammar.
    exact ⟨after, left, last₃, hm.paste hop hn, hs₃, hl₃⟩

theorem keeps_item {n : Node} (h : Parser.item s = .ok n s') (hs : s.At bytes ending last before)
    (hb : Sealed ending before) : (Phrase.item n).Explains bytes ending before s' := by
  rw [Parser.item] at h
  obtain ⟨token, s₁, hp, h⟩ := bind_eq_ok h
  obtain ⟨a, as, rfl, rfl, hs₁, -⟩ := peek_eq_ok hp hs hb
  cases hk : a.token.kind with
  | ident =>
    simp only [hk] at h
    obtain ⟨ident, s₂, hi, h⟩ := bind_eq_ok h
    obtain ⟨_, _, ⟨⟩, -, rfl, hs₂, hh⟩ := identifier_eq_ok hi hs₁ hb
    obtain ⟨rfl, rfl⟩ := pure_eq_ok h
    exact ⟨as, none, a.bare, .itemName hk, hs₂, rfl, hh⟩
  | string =>
    simp only [hk] at h
    obtain ⟨_, _, ⟨⟩, -, hn, hs₂, hh⟩ := string_eq_ok h hs₁ hb
    exact ⟨as, none, a.bare, .itemString hk hn, hs₂, rfl, hh⟩
  | star =>
    simp only [hk] at h
    obtain ⟨_, _, ⟨⟩, -, rfl, hs₂, hh⟩ := star_eq_ok h hs₁ hb
    exact ⟨as, none, a.bare, .itemStar hk, hs₂, rfl, hh⟩
  | _ =>
    simp only [hk] at h
    exact absurd h unexpected_ne_ok

theorem Keeps.list (ih : Keeps bytes fuel) {sort : ListSort} {ns : List Node}
    (h : sort.parse (fuel + 1) s = .ok ns s') (hs : s.At bytes ending last before)
    (hb : Sealed ending before) : (Phrase.list sort ns).Explains bytes ending before s' := by
  rw [sort.parse_succ] at h
  obtain ⟨token, s₁, hp, h⟩ := bind_eq_ok h
  obtain ⟨a, as, rfl, rfl, hs₁, -⟩ := peek_eq_ok hp hs hb
  by_cases hk : a.token.kind = sort.close
  · rw [if_pos hk] at h
    obtain ⟨rfl, rfl⟩ := pure_eq_ok h
    exact ⟨a :: as, none, last, .listEnd hk, hs₁, trivial⟩
  · rw [if_neg hk] at h
    obtain ⟨first, s₂, he, h⟩ := bind_eq_ok h
    obtain ⟨mid, left, last₂, hfirst, hs₂, -⟩ :=
      ih (sort.element first) (sort.runs_element_iff.2 he) hs₁ (sort.starts_element first) hb
    obtain ⟨token, s₃, hx, h⟩ := bind_eq_ok h
    -- The token behind an element is a comma, or it is put back and the list ends.
    obtain ⟨t, rest, rfl, rfl, hs₃, hh₃⟩ := next_eq_ok hx hs₂ (hfirst.sealed hb)
    by_cases ht : t.token.kind = .comma
    · rw [if_pos ht] at h
      obtain ⟨more, s₄, hl, h⟩ := bind_eq_ok h
      obtain ⟨after, left', last₄, hmore, hs₄, -⟩ :=
        ih (.list sort more) (sort.runs_iff.2 hl) hs₃ trivial
          ((hfirst.sealed hb).tail ht rfl)
      obtain ⟨rfl, rfl⟩ := pure_eq_ok h
      obtain rfl := hmore.left_of_list
      exact ⟨after, none, last₄, .listMore hk hfirst ht hmore, hs₄, trivial⟩
    · rw [if_neg ht] at h
      obtain ⟨s₄, last₄, hbk, hs₄⟩ := backup_at hs₃ hh₃
      rw [bind_ok hbk] at h
      obtain ⟨rfl, rfl⟩ := pure_eq_ok h
      exact ⟨t :: rest, none, last₄, .listLast hk hfirst ht, hs₄, trivial⟩

theorem Keeps.call (ih : Keeps bytes fuel) {kind : CallKind} {n : Node}
    (h : Parser.function (fuel + 1) kind s = .ok n s') (hs : s.At bytes ending last before)
    (hb : Sealed ending before) : (Phrase.call kind n).Explains bytes ending before s' := by
  rw [Parser.function] at h
  obtain ⟨token, s₁, hi, h⟩ := bind_eq_ok h
  obtain ⟨a, as, rfl, hk, rfl, hs₁, -⟩ := expect_eq_ok hi hs hb
  obtain ⟨s₂, hcm, hs₂, -⟩ := takeComment_at hs₁
  rw [bind_ok hcm] at h
  have hb₁ := hb.tail hk rfl
  obtain ⟨token, s₃, ho, h⟩ := bind_eq_ok h
  obtain ⟨o, os, rfl, hlp, -, hs₃, -⟩ := expect_eq_ok ho hs₂ hb₁
  obtain ⟨args, s₄, ha, h⟩ := bind_eq_ok h
  have hb₂ := hb₁.tail hlp rfl
  obtain ⟨mid, left, last₄, hargs, hs₄, -⟩ := ih (.list .expressions args) ha hs₃ trivial hb₂
  obtain ⟨token, s₅, he, h⟩ := bind_eq_ok h
  obtain ⟨c, rest, rfl, hc, -, hs₅, hh⟩ := expect_eq_ok he hs₄ (hargs.sealed hb₂)
  rw [call_at hs₅] at h
  cases h
  obtain rfl := hargs.left_of_list
  exact ⟨rest, c.comment, c, .function hk hlp hargs hc, hs₅, rfl, hh⟩

theorem Keeps.step (ih : Keeps bytes fuel) {op : ChainOp} {n : Node}
    (h : Parser.step (fuel + 1) op s = .ok n s') (hs : s.At bytes ending last before)
    (hb : Sealed ending before) : (Phrase.step op n).Explains bytes ending before s' := by
  rw [Parser.step] at h
  obtain ⟨token, s₁, hx, h⟩ := bind_eq_ok h
  obtain ⟨a, as, rfl, -, hs₁, hh₁⟩ := next_eq_ok hx hs hb
  by_cases hop : op = .pipe
  · rw [if_pos hop, bind_ok (pure_ok true)] at h
    obtain ⟨s₂, last₂, hbk, hs₂⟩ := backup_at hs₁ hh₁
    dsimp only at h
    rw [bind_ok hbk, if_pos rfl] at h
    obtain ⟨after, left, last₃, hf, hs₃, hl₃⟩ :=
      ih (.call (CallKind.ofChain op) n) h hs₂ trivial hb
    obtain ⟨b, bs, rfl⟩ := hf.call_eq_cons
    exact ⟨after, left, last₃, .stepCall (.inl hop) hf, hs₃, hl₃⟩
  · rw [if_neg hop] at h
    obtain ⟨token, s₂, hp, h⟩ := bind_eq_ok h
    rw [bind_ok (pure_ok _)] at h
    dsimp only at h
    -- A step begins with a name, so a token follows that could be peeked at.
    have hident : a.token.kind = .ident := by
      obtain ⟨as', hs₂, hh₂⟩ := peek_keeps hp hs₁ hh₁
      obtain ⟨s₃, last₃, hbk, hs₃⟩ := backup_at hs₂ hh₂
      rw [bind_ok hbk] at h
      split at h
      · cases fuel with
        | zero => cases h
        | succ fuel =>
          rw [Parser.function] at h
          obtain ⟨_, _, he, -⟩ := bind_eq_ok h
          exact kind_of_expect he hs₃
      · obtain ⟨_, _, hi, -⟩ := bind_eq_ok h
        obtain ⟨_, _, he, -⟩ := bind_eq_ok hi
        exact kind_of_expect he hs₃
    obtain ⟨b, bs, rfl, rfl, hs₂, hh₂⟩ := peek_eq_ok hp hs₁ (hb.tail hident rfl)
    obtain ⟨s₃, last₃, hbk, hs₃⟩ := backup_at hs₂ (Nat.le_of_eq (hh₂ hh₁))
    rw [bind_ok hbk] at h
    by_cases hlp : b.token.kind = .lparen
    · rw [if_pos (by simpa using hlp)] at h
      obtain ⟨after, left, last₄, hf, hs₄, hl₄⟩ :=
        ih (.call (CallKind.ofChain op) n) h hs₃ trivial hb
      exact ⟨after, left, last₄, .stepCall (.inr hlp) hf, hs₄, hl₄⟩
    · rw [if_neg (by simpa using hlp)] at h
      obtain ⟨ident, s₄, hi, h⟩ := bind_eq_ok h
      obtain ⟨_, _, ⟨⟩, -, rfl, hs₄, hh₄⟩ := identifier_eq_ok hi hs₃ hb
      obtain ⟨rfl, rfl⟩ := pure_eq_ok h
      exact ⟨b :: bs, none, a.bare, .stepName hop hident hlp, hs₄, rfl, hh₄⟩

theorem Keeps.chain (ih : Keeps bytes fuel) {n₀ n : Node}
    (h : Parser.chain (fuel + 1) n₀ s = .ok n s') (hs : s.At bytes ending last before)
    (hh : s.held ≤ 1) (hb : Sealed ending before) :
    (Phrase.chain n₀ last.comment n).Explains bytes ending before s' := by
  rw [Parser.chain] at h
  obtain ⟨token, s₁, hp, h⟩ := bind_eq_ok h
  obtain ⟨a, as, rfl, rfl, hs₁, hh₁⟩ := peek_eq_ok hp hs hb
  by_cases hk : ∃ op, a.token.kind = .chain op
  · obtain ⟨op, hk⟩ := hk
    simp only [hk] at h
    obtain ⟨s₂, hx, hs₂, -⟩ := next_at hs₁
    obtain ⟨s₃, hcm, hs₃, -⟩ := takeComment_at hs₂
    rw [bind_ok hx, bind_ok hcm] at h
    obtain ⟨right, s₄, hr, h⟩ := bind_eq_ok h
    have hb' := hb.tail hk rfl
    obtain ⟨mid, left₁, last₄, hright, hs₄, rfl, hh₄⟩ := ih (.step op right) hr hs₃ trivial hb'
    rw [bind_ok (locate_at hs₄ _)] at h
    obtain ⟨after, left, last₅, hn, hs₅, hl₅⟩ :=
      ih (.chain (.chain (a.info bytes) op n₀ right) last₄.comment n) h hs₄ ⟨rfl, hh₄⟩
        (hright.sealed hb')
    exact ⟨after, left, last₅, .chainStep hk hright hn, hs₅, hl₅⟩
  · have hne : ∀ op, a.token.kind ≠ .chain op := fun op hop => hk ⟨op, hop⟩
    -- Every other token ends the chain.
    have hend : (pure n₀ : Parser Node) s₁ = .ok n s' := by
      cases hk' : a.token.kind with
      | chain op => exact absurd hk' (hne op)
      | _ => simpa only [hk'] using h
    obtain ⟨rfl, rfl⟩ := pure_eq_ok hend
    exact ⟨a :: as, last.comment, last, .chainEnd hne, hs₁, rfl, Nat.le_of_eq (hh₁ hh)⟩

/-- An expression that begins with a name: a call, a chain or an operation. -/
theorem Keeps.named (ih : Keeps bytes fuel) {n : Node} {a b : Slot} {as : List Slot}
    (h : (do
      if b.token.kind = .lparen then
        let first ← Parser.function fuel .global
        if continuesChain (← peek).kind then Parser.chain fuel first else Parser.climb fuel first 0
      else if continuesChain b.token.kind then
        let first ← identifier
        Parser.chain fuel (.identifier first)
      else Parser.operation fuel : Parser Node) s = .ok n s')
    (hs : s.At bytes ending last (a :: b :: as)) (hk : a.token.kind = .ident)
    (hb : Sealed ending (a :: b :: as)) :
    (Phrase.expression n).Explains bytes ending (a :: b :: as) s' := by
  by_cases hlp : b.token.kind = .lparen
  · rw [if_pos hlp] at h
    obtain ⟨f, s₁, hf, h⟩ := bind_eq_ok h
    obtain ⟨mid, left₁, last₁, hcall, hs₁, rfl, hh₁⟩ := ih (.call .global f) hf hs trivial hb
    obtain ⟨token, s₂, hp, h⟩ := bind_eq_ok h
    obtain ⟨c, cs, rfl, rfl, hs₂, hh₂⟩ := peek_eq_ok hp hs₁ (hcall.sealed hb)
    have hstart : last₁.comment = last₁.comment ∧ s₂.held ≤ 1 := ⟨rfl, Nat.le_of_eq (hh₂ hh₁)⟩
    cases hc : continuesChain c.token.kind with
    | true =>
      rw [if_pos hc] at h
      obtain ⟨after, left, last₃, hn, hs₃, hl₃⟩ :=
        ih (.chain f last₁.comment n) h hs₂ hstart (hcall.sealed hb)
      exact ⟨after, left, last₃, .callChained hk hlp hcall hc hn, hs₃, hl₃⟩
    | false =>
      rw [if_neg (by simp [hc])] at h
      obtain ⟨after, left, last₃, hn, hs₃, hl₃⟩ :=
        ih (.climb 0 f last₁.comment n) h hs₂ hstart (hcall.sealed hb)
      exact ⟨after, left, last₃, .callJoined hk hlp hcall hc hn, hs₃, hl₃⟩
  · rw [if_neg hlp] at h
    cases hc : continuesChain b.token.kind with
    | true =>
      rw [if_pos hc] at h
      obtain ⟨ident, s₁, hi, h⟩ := bind_eq_ok h
      obtain ⟨_, _, ⟨⟩, -, rfl, hs₁, hh₁⟩ := identifier_eq_ok hi hs hb
      obtain ⟨after, left, last₂, hn, hs₂, hl₂⟩ :=
        ih (.chain (.identifier ⟨a.info bytes, a.token.text⟩) none n) h hs₁ ⟨rfl, hh₁⟩
          (hb.tail hk rfl)
      exact ⟨after, left, last₂, .chained hk hc hn, hs₂, hl₂⟩
    | false =>
      rw [if_neg (by simp [hc])] at h
      obtain ⟨after, left, last₁, hn, hs₁, hl₁⟩ := ih (.operation n) h hs trivial hb
      exact ⟨after, left, last₁, .named hk hlp hc hn, hs₁, hl₁⟩

theorem Keeps.expression (ih : Keeps bytes fuel) {n : Node}
    (h : Parser.expression (fuel + 1) s = .ok n s') (hs : s.At bytes ending last before)
    (hb : Sealed ending before) : (Phrase.expression n).Explains bytes ending before s' := by
  rw [Parser.expression] at h
  obtain ⟨token, s₁, hp, h⟩ := bind_eq_ok h
  obtain ⟨a, as, rfl, rfl, hs₁, -⟩ := peek_eq_ok hp hs hb
  by_cases hi : a.token.kind = .ident
  · simp only [hi] at h
    obtain ⟨_, b, bs, s₂, last₂, ⟨⟩, h, hs₂⟩ :=
      behind_eq_ok h hs₁ hb (by rintro _ _ ⟨⟩; rw [hi]; rfl)
    exact ih.named h hs₂ hi hb
  by_cases hl : a.token.kind = .lambda
  · simp only [hl, Parser.lambda] at h
    obtain ⟨s₂, hx, hs₂, -⟩ := next_at hs₁
    rw [bind_ok hx] at h
    obtain ⟨info, s₃, hinfo, h⟩ := bind_eq_ok h
    obtain ⟨rfl, hs₃, -⟩ := infoOf_eq_ok hinfo hs₂
    obtain ⟨body, s₄, ho, h⟩ := bind_eq_ok h
    obtain ⟨after, left, last₄, hbody, hs₄, hl₄⟩ :=
      ih (.operation body) ho hs₃ trivial (hb.tail hl rfl)
    obtain ⟨rfl, rfl⟩ := pure_eq_ok h
    exact ⟨after, left, last₄, .lambda hl hbody, hs₄, hl₄⟩
  by_cases hbr : a.token.kind = .lbracket
  · simp only [hbr, Parser.list] at h
    obtain ⟨_, _, ⟨⟩, -, s₂, h, hs₂, -⟩ := expect_info_eq_ok h hs₁ hb
    obtain ⟨items, s₃, hitems, h⟩ := bind_eq_ok h
    have hb' := hb.tail hbr rfl
    obtain ⟨mid, left, last₃, hlist, hs₃, -⟩ := ih (.list .items items) hitems hs₂ trivial hb'
    obtain ⟨token, s₄, he, h⟩ := bind_eq_ok h
    obtain ⟨c, rest, rfl, hc, -, hs₄, hh⟩ := expect_eq_ok he hs₃ (hlist.sealed hb')
    obtain ⟨rfl, rfl⟩ := pure_eq_ok h
    obtain rfl := hlist.left_of_list
    exact ⟨rest, c.comment, c, .bracket hbr hlist hc, hs₄, rfl, hh⟩
  -- Whatever else comes, an operation is read.
  · have ho : Parser.operation fuel s₁ = .ok n s' := by
      cases hk : a.token.kind with
      | ident => exact absurd hk hi
      | lambda => exact absurd hk hl
      | lbracket => exact absurd hk hbr
      | _ => simpa only [hk] using h
    obtain ⟨after, left, last₂, hn, hs₂, hl₂⟩ := ih (.operation n) ho hs₁ trivial hb
    exact ⟨after, left, last₂, .unnamed hi hl hbr hn, hs₂, hl₂⟩

theorem KeepsExpression.statement (ih : KeepsExpression bytes fuel) {n : Node}
    (h : Parser.statement fuel s = .ok n s') (hs : s.At bytes ending last before)
    (hb : Sealed ending before) : (Phrase.statement n).Explains bytes ending before s' := by
  rw [Parser.statement] at h
  obtain ⟨token, s₁, hp, h⟩ := bind_eq_ok h
  obtain ⟨a, as, rfl, rfl, hs₁, -⟩ := peek_eq_ok hp hs hb
  by_cases hk : a.token.kind = .var
  · rw [if_pos hk, declaration] at h
    obtain ⟨s₂, hx, hs₂, -⟩ := expect_at hs₁ hk
    obtain ⟨s₃, hcm, hs₃, -⟩ := takeComment_at hs₂
    rw [bind_ok hx, bind_ok hcm] at h
    have hb₁ := hb.tail hk rfl
    obtain ⟨name, s₄, hid, h⟩ := bind_eq_ok h
    obtain ⟨i, is, rfl, hi, rfl, hs₄, -⟩ := identifier_eq_ok hid hs₃ hb₁
    have hb₂ := hb₁.tail hi rfl
    rw [bind_ok (locate_at hs₄ _)] at h
    obtain ⟨token, s₅, hp₅, h⟩ := bind_eq_ok h
    obtain ⟨e, es, rfl, rfl, hs₅, -⟩ := peek_eq_ok hp₅ hs₄ hb₂
    -- The token behind the name tells a value from a type.
    by_cases he : e.token.kind = .assign
    · rw [if_pos he] at h
      obtain ⟨s₆, hx₆, hs₆, -⟩ := expect_at hs₅ he
      rw [bind_ok hx₆] at h
      obtain ⟨value, s₇, hv, h⟩ := bind_eq_ok h
      obtain ⟨after, left, last₇, hvalue, hs₇, hl₇⟩ :=
        ih hv hs₆ (hb₂.tail he rfl)
      obtain ⟨rfl, rfl⟩ := pure_eq_ok h
      exact ⟨after, left, last₇, .declare hk hi he hvalue, hs₇, hl₇⟩
    · rw [if_neg he] at h
      obtain ⟨type, s₆, hty, h⟩ := bind_eq_ok h
      obtain ⟨_, _, ⟨⟩, hy, rfl, hs₆, hh₆⟩ := identifier_eq_ok hty hs₅ hb₂
      obtain ⟨rfl, rfl⟩ := pure_eq_ok h
      exact ⟨es, none, e.bare, .declareType hk hi hy, hs₆, rfl, hh₆⟩
  · rw [if_neg hk] at h
    obtain ⟨after, left, last₂, hn, hs₂, hl₂⟩ := ih h hs₁ hb
    exact ⟨after, left, last₂, .express hk hn, hs₂, hl₂⟩

theorem Keeps.statements (ih : Keeps bytes fuel) {ns : List Node}
    (h : Parser.statements (fuel + 1) s = .ok ns s') (hs : s.At bytes ending last before)
    (hh : s.held ≤ 1) (hb : Sealed ending before) :
    (Phrase.statements last.comment ns).Explains bytes ending before s' := by
  rw [Parser.statements] at h
  obtain ⟨token, s₁, hp, h⟩ := bind_eq_ok h
  obtain ⟨a, as, rfl, rfl, hs₁, hh₁⟩ := peek_eq_ok hp hs hb
  by_cases hk : a.token.kind = .eof
  · rw [if_pos hk] at h
    obtain ⟨hrest, hs₂⟩ := hs₁.takeRest (hh₁ hh)
    have hrest' : trailingComments s₁ = .ok (s₁.takeRest.1.map .comment) s₁.takeRest.2 := rfl
    rw [hrest', EStateM.Result.ok.injEq] at h
    obtain ⟨rfl, rfl⟩ := h
    rw [hrest]
    exact ⟨a.bare :: as, none, last.bare, .done hk, hs₂, rfl, by simp [Lookahead.takeRest, hh₁ hh]⟩
  · rw [if_neg hk] at h
    obtain ⟨first, s₂, hst, h⟩ := bind_eq_ok h
    obtain ⟨mid, left₁, last₂, hfirst, hs₂, rfl, hh₂⟩ := ih (.statement first) hst hs₁ trivial hb
    obtain ⟨more, s₃, hss, h⟩ := bind_eq_ok h
    obtain ⟨after, left, last₃, hmore, hs₃, hl₃⟩ :=
      ih (.statements last₂.comment more) hss hs₂ ⟨rfl, hh₂⟩ (hfirst.sealed hb)
    obtain ⟨rfl, rfl⟩ := pure_eq_ok h
    exact ⟨after, left, last₃, .more hk hfirst hmore, hs₃, hl₃⟩

end

/-- **The parser keeps to the grammar**, whatever its fuel. -/
theorem keeps (bytes : List UInt8) (fuel : Nat) : Keeps bytes fuel ∧ KeepsRight bytes fuel := by
  induction fuel with
  | zero =>
    -- Without fuel an item is read, and a statement that declares a type.
    refine ⟨?_, ?_⟩
    · intro ph ending before s s' last h hs hstart hb
      have hexp : KeepsExpression bytes 0 := fun h _ _ => by cases h
      cases ph with
      | item n => exact keeps_item h hs hb
      | statement n => exact hexp.statement h hs hb
      | list sort ns => cases sort <;> cases h
      | _ => cases h
    · intro op n₀ n ending before s s' last h
      cases h
  | succ fuel ih =>
    obtain ⟨ih, ihr⟩ := ih
    have hexp : KeepsExpression bytes (fuel + 1) := fun h hs hb => ih.expression h hs hb
    refine ⟨?_, ih.climbRight ihr⟩
    intro ph ending before s s' last h hs hstart hb
    cases ph with
    | operand n => exact ih.operand h hs hb
    | operation n => exact ih.operation h hs hb
    | climb least n₀ comment n =>
      obtain ⟨rfl, hh⟩ := hstart
      exact ih.climb ihr h hs hh hb
    | item n => exact keeps_item h hs hb
    | list sort ns => exact ih.list (sort.runs_iff.1 h) hs hb
    | expression n => exact ih.expression h hs hb
    | chain n₀ comment n =>
      obtain ⟨rfl, hh⟩ := hstart
      exact ih.chain h hs hh hb
    | step op n => exact ih.step h hs hb
    | call kind n => exact ih.call h hs hb
    | statement n => exact hexp.statement h hs hb
    | statements comment ns =>
      obtain ⟨rfl, hh⟩ := hstart
      exact ih.statements h hs hh hb

/-! ## Whole scripts -/

/-- A slot as a script can have it. -/
structure Slot.Formed (t : Slot) : Prop where
  token : t.token.Formed
  comment : ∀ c, t.comment = some c → c.Tidy

theorem Lookahead.tidy_foldComments {bytes : List UInt8} {ts : List Token} {c : Comment}
    (hts : ∀ t ∈ ts, t.kind = .comment ∧ t.Formed)
    (h : Lookahead.foldComments bytes ts = some c) : c.Tidy := by
  cases ts with
  | nil => cases h
  | cons t ts =>
    cases h
    refine Comment.tidy_ofTexts _ (by simp) fun text htext => ?_
    obtain ⟨t', ht', rfl⟩ := List.mem_map.1 htext
    obtain ⟨hk, hf⟩ := hts t' ht'
    simpa [Token.Formed, hk] using hf

theorem formed_of_mem_slotsBehind {bytes : List UInt8} {before ts : List Token}
    (hb : ∀ t ∈ before, t.kind = .comment ∧ t.Formed) (hts : ∀ t ∈ ts, t.Formed) :
    ∀ t ∈ slotsBehind bytes before ts, t.Formed := by
  -- The comments that wait for a token go along in the induction.
  induction ts generalizing before with
  | nil =>
    intro t ht
    simp [slotsBehind] at ht
  | cons u us ih =>
    have hu := hts u (by simp)
    have hus := fun t (ht : t ∈ us) => hts t (by simp [ht])
    rw [slotsBehind]
    split
    · rename_i hc
      refine ih ?_ hus
      intro t ht
      rcases List.mem_append.1 ht with ht | ht
      · exact hb t ht
      · obtain rfl := List.mem_singleton.1 ht
        exact ⟨by simpa [Lookahead.isComment] using hc, hu⟩
    · intro t ht
      rcases List.mem_cons.1 ht with rfl | ht
      · exact ⟨hu, fun c hc => Lookahead.tidy_foldComments hb hc⟩
      · exact ih (by simp) hus t ht

/-- The slots of a script are as a script can have them. -/
theorem formed_of_mem_slotsIn {source : List Char} {t : Slot} (h : t ∈ slotsIn source) :
    t.Formed :=
  formed_of_mem_slotsBehind (by simp) (TokenStream.ofSource_yields source).1 t h

theorem bounded_slotsBehind {bytes : List UInt8} {before ts : List Token}
    (h : ∃ t ∈ ts, t.kind.isLast = true) : Bounded (slotsBehind bytes before ts) := by
  induction ts generalizing before with
  | nil =>
    obtain ⟨t, ht, -⟩ := h
    cases ht
  | cons u us ih =>
    obtain ⟨t, ht, hlast⟩ := h
    rw [slotsBehind]
    split
    · rename_i hc
      refine ih ?_
      rcases List.mem_cons.1 ht with rfl | ht
      -- A comment is not the last token.
      · rw [Lookahead.isComment, beq_iff_eq] at hc
        rw [hc] at hlast
        cases hlast
      · exact ⟨t, ht, hlast⟩
    · rcases List.mem_cons.1 ht with rfl | ht
      · exact ⟨_, List.mem_cons_self, hlast⟩
      · have hus : Bounded (slotsBehind bytes [] us) := ih ⟨t, ht, hlast⟩
        obtain ⟨s, hs, hlast⟩ := hus
        exact ⟨s, List.mem_cons_of_mem _ hs, hlast⟩

theorem sealed_slotsIn (source : List Char) :
    Sealed (TokenStream.ofSource source).ending (slotsIn source) :=
  fun h => bounded_slotsBehind ((TokenStream.ofSource_yields source).2 h)

/-- **A script that is parsed is in the grammar**: its slots are the statements of the program. -/
theorem reads_of_parse {source : String} {p : Node} (h : parse source = .ok p) :
    ∃ ns after left, p = .program (.locate (Text.bytes source.toList) 0) ns ∧
      Reads (Text.bytes source.toList) (.statements none ns) (slotsIn source.toList) after
        left := by
  have hs := Lookahead.ofSource_at source.toList
  rw [parse, Parser.runOn] at h
  split at h
  · rename_i p' s' hrun
    cases h
    rw [Parser.program, Parser.bind_ok (Parser.locate_at hs 0), Parser.depth_bind] at hrun
    obtain ⟨ns, s₁, hstatements, hrun⟩ := Parser.bind_eq_ok hrun
    obtain ⟨token, s₂, -, hrun⟩ := Parser.bind_eq_ok hrun
    obtain ⟨rfl, -⟩ := Parser.pure_eq_ok hrun
    obtain ⟨after, left, last, hreads, -, -⟩ :=
      (keeps _ _).1 (.statements none ns) hstatements hs ⟨rfl, Nat.zero_le _⟩
        (sealed_slotsIn source.toList)
    exact ⟨ns, after, left, rfl, hreads⟩
  · cases h

/-- A result that passes a test is there. -/
theorem exists_ok_of_any {ε α : Type} {x : Except ε α} {P : α → Bool}
    (h : x.toOption.any P = true) : ∃ a, x = .ok a ∧ P a = true := by
  cases x with
  | error e => cases h
  | ok a => exact ⟨a, rfl, h⟩

end PipelineScript

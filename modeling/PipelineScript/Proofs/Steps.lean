import PipelineScript.Parse.Expression
import PipelineScript.Proofs.Lookahead

/-!
What the small steps of a parser do.

Each lemma starts where the reader stands before some slots and says which result the step gives
and where the reader stands then. The grammar functions are followed through these lemmas alone.
-/
namespace PipelineScript

variable {engine : PatternEngine}

/-- The place of a slot's token with the comment before it. -/
def Slot.info (bytes : List UInt8) (t : Slot) : Info := ⟨.locate bytes t.token.offset, t.comment⟩

/-- The slot once its comment has been taken. -/
def Slot.bare (t : Slot) : Slot := { t with comment := none }

@[simp] theorem Slot.bare_comment (t : Slot) : t.bare.comment = none := rfl

@[simp] theorem Slot.bare_token (t : Slot) : t.bare.token = t.token := rfl

/-- Whether there is a newline from one offset up to another. -/
def breaksIn (bytes : List UInt8) (start stop : Nat) : Bool :=
  decide (stop ≤ bytes.length) && ((bytes.take stop).drop start).contains Position.newline

/-- Whether a call breaks its lines: its last argument begins on another line than its name. -/
def callBreaks (bytes : List UInt8) (start : Nat) (args : List Node) : Bool :=
  match args.getLast? with
  | some last => breaksIn bytes start last.position.offset
  | none => false

namespace Parser

variable {α β : Type}

/-! ### On any reader -/

section

variable {σ : Type} {x : ParserOn σ α} {f : α → ParserOn σ β} {s s' : σ}

theorem bind_ok {r : α} (h : x s = .ok r s') : (x >>= f) s = f r s' := by
  simp only [Bind.bind, EStateM.bind, h]

theorem bind_error {e : ParseFailure} (h : x s = .error e s') : (x >>= f) s = .error e s' := by
  simp only [Bind.bind, EStateM.bind, h]

end

section

open TokenReader (buffer note)

variable {σ : Type} [TokenReader σ] {name : α → BufferStep}
  {step : Lookahead → Except StreamEnd (α × Lookahead)} {s : σ}

theorem ofStep_ok {a : α} {s' : Lookahead} (h : step (buffer s) = .ok (a, s')) :
    ofStep name step s = .ok a (note s (name a) s') := by
  rw [ofStep, h]

theorem ofStep_error {ending : StreamEnd} (h : step (buffer s) = .error ending) :
    ofStep name step s = .error (.interrupted ending) (note s .stuck (buffer s)) := by
  rw [ofStep, h]

end

/-! ### On a buffer -/

variable {s s' : Lookahead} {bytes : List UInt8} {ending : StreamEnd} {last a b : Slot}
  {as : List Slot}

theorem pure_ok (r : α) : (pure r : Parser α) s = .ok r s := rfl

theorem ofStep_eq (name : α → BufferStep)
    (step : Lookahead → Except StreamEnd (α × Lookahead)) (s : Lookahead) :
    ofStep name step s =
      match step s with
      | .ok (a, s') => .ok a s'
      | .error ending => .error (.interrupted ending) s := rfl

theorem depth_bind (f : Nat → Parser α) : (depth >>= f) s = f s.fuel s := bind_ok rfl

theorem next_at (h : s.At bytes ending last (a :: as)) :
    ∃ s', next s = .ok a.token s' ∧ s'.At bytes ending a as ∧ s'.held ≤ 1 := by
  obtain ⟨s', hn, hs, hh⟩ := h.next
  exact ⟨s', ofStep_ok hn, hs, hh⟩

theorem peek_at (h : s.At bytes ending last (a :: as)) :
    ∃ s', peek s = .ok a.token s' ∧ s'.At bytes ending last (a :: as) ∧
      (s.held ≤ 1 → s'.held = 1) := by
  obtain ⟨s', hp, hs, hh⟩ := h.peek
  exact ⟨s', ofStep_ok hp, hs, hh⟩

theorem backup_at (h : s.At bytes ending a as) (hh : s.held ≤ 1) :
    ∃ s' last, backup s = .ok () s' ∧ s'.At bytes ending last (a :: as) :=
  ⟨s.backup, s.backup.last, rfl, h.backup hh⟩

theorem takeComment_at (h : s.At bytes ending last as) :
    ∃ s', takeComment s = .ok last.comment s' ∧ s'.At bytes ending last.bare as ∧
      s'.held = s.held := by
  obtain ⟨s', ht, hs, hh⟩ := h.takeComment
  exact ⟨s', ofStep_ok (congrArg Except.ok ht), hs, hh⟩

theorem locate_at (h : s.At bytes ending last as) (offset : Nat) :
    locate offset s = .ok (.locate bytes offset) s := by
  simp [locate, h.bytes_eq]

/-- The rejection of a script at a token. -/
def rejection (bytes : List UInt8) (token : Token) (cause : ParseCause) : ParseFailure :=
  .rejected ⟨cause, .locate bytes token.offset, snippetAt bytes token.offset⟩

theorem reject_at (h : s.At bytes ending last as) (token : Token) (cause : ParseCause) :
    (reject token cause : Parser α) s = .error (rejection bytes token cause) s := by
  simp [reject, rejection, h.bytes_eq]

theorem breaksBetween_at (h : s.At bytes ending last as) (start stop : Nat) :
    breaksBetween start stop s = .ok (breaksIn bytes start stop) s := by
  simp [breaksBetween, breaksIn, h.bytes_eq]

theorem infoOf_at (h : s.At bytes ending last as) (token : Token) :
    ∃ s', infoOf token s = .ok ⟨.locate bytes token.offset, last.comment⟩ s' ∧
      s'.At bytes ending last.bare as ∧ s'.held = s.held := by
  obtain ⟨s', ht, hs, hh⟩ := takeComment_at h
  exact ⟨s', by rw [infoOf, bind_ok ht, bind_ok (locate_at hs _), pure_ok], hs, hh⟩

theorem expect_at {kind : TokenKind} (h : s.At bytes ending last (a :: as))
    (hk : a.token.kind = kind) :
    ∃ s', expect kind s = .ok a.token s' ∧ s'.At bytes ending a as ∧ s'.held ≤ 1 := by
  obtain ⟨s', hn, hs, hh⟩ := next_at h
  exact ⟨s', by rw [expect, bind_ok hn, if_pos hk, pure_ok], hs, hh⟩

/-- Taking a token of a kind together with the comment before it. -/
theorem expect_info_at {kind : TokenKind} (h : s.At bytes ending last (a :: as))
    (hk : a.token.kind = kind) :
    ∃ s₁ s₂, expect kind s = .ok a.token s₁ ∧ infoOf a.token s₁ = .ok (a.info bytes) s₂ ∧
      s₂.At bytes ending a.bare as ∧ s₂.held ≤ 1 := by
  obtain ⟨s₁, he, hs, hh⟩ := expect_at h hk
  obtain ⟨s₂, hi, hs', hh'⟩ := infoOf_at hs a.token
  exact ⟨s₁, s₂, he, hi, hs', hh' ▸ hh⟩

theorem identifier_at (h : s.At bytes ending last (a :: as)) (hk : a.token.kind = .ident) :
    ∃ s', identifier s = .ok ⟨a.info bytes, a.token.text⟩ s' ∧ s'.At bytes ending a.bare as ∧
      s'.held ≤ 1 := by
  obtain ⟨s₁, s₂, he, hi, hs, hh⟩ := expect_info_at h hk
  exact ⟨s₂, by rw [identifier, bind_ok he, bind_ok hi, pure_ok], hs, hh⟩

theorem string_at {n : Node} (h : s.At bytes ending last (a :: as)) (hk : a.token.kind = .string)
    (hn : Node.stringOfText? (a.info bytes) a.token.text = some n) :
    ∃ s', string s = .ok n s' ∧ s'.At bytes ending a.bare as ∧ s'.held ≤ 1 := by
  obtain ⟨s₁, s₂, he, hi, hs, hh⟩ := expect_info_at h hk
  refine ⟨s₂, ?_, hs, hh⟩
  rw [string, bind_ok he, bind_ok hi, hn]
  rfl

theorem star_at [PatternEngine] (h : s.At bytes ending last (a :: as)) (hk : a.token.kind = .star) :
    ∃ s', star s = .ok (.star (a.info bytes)) s' ∧ s'.At bytes ending a.bare as ∧ s'.held ≤ 1 := by
  obtain ⟨s₁, s₂, he, hi, hs, hh⟩ := expect_info_at h hk
  exact ⟨s₂, by rw [star, bind_ok he, bind_ok hi, pure_ok], hs, hh⟩

/-- The token behind the next one comes into view without a token being taken. -/
theorem behind_at (h : s.At bytes ending last (a :: b :: as)) :
    ∃ s₁ s₂ s₃ last', next s = .ok a.token s₁ ∧ peek s₁ = .ok b.token s₂ ∧
      backup s₂ = .ok () s₃ ∧ s₃.At bytes ending last' (a :: b :: as) := by
  obtain ⟨s₁, hn, hs₁, hh₁⟩ := next_at h
  obtain ⟨s₂, hp, hs₂, hh₂⟩ := peek_at hs₁
  obtain ⟨s₃, last', hb, hs₃⟩ := backup_at hs₂ (Nat.le_of_eq (hh₂ hh₁))
  exact ⟨s₁, s₂, s₃, last', hn, hp, hb, hs₃⟩

theorem isCall_at (h : s.At bytes ending last (a :: b :: as)) :
    ∃ s' last', isCall s = .ok (b.token.kind == .lparen) s' ∧
      s'.At bytes ending last' (a :: b :: as) := by
  obtain ⟨s₁, s₂, s₃, last', hn, hp, hb, hs⟩ := behind_at h
  exact ⟨s₃, last', by rw [isCall, bind_ok hn, bind_ok hp, bind_ok hb, pure_ok], hs⟩

theorem call_at (h : s.At bytes ending last as) (token : Token) (kind : CallKind)
    (comment : Option Comment) (args : List Node) :
    call token kind comment args s =
      .ok (.func ⟨.locate bytes token.offset, comment⟩ kind token.text args
        (callBreaks bytes token.offset args)) s := by
  rw [call, callBreaks]
  cases args.getLast? with
  | none =>
    dsimp only
    rw [bind_ok (pure_ok false), bind_ok (locate_at h _), pure_ok]
  | some last =>
    dsimp only
    rw [bind_ok (breaksBetween_at h _ _), bind_ok (locate_at h _), pure_ok]

theorem peekOperator_at (h : s.At bytes ending last (a :: as)) (least : Nat) :
    ∃ s', peekOperator least s =
        .ok (a.token.kind.binaryOp?.filter fun op => decide (least ≤ op.precedence)) s' ∧
      s'.At bytes ending last (a :: as) ∧ (s.held ≤ 1 → s'.held = 1) := by
  obtain ⟨s', hp, hs, hh⟩ := peek_at h
  exact ⟨s', by rw [peekOperator, bind_ok hp, pure_ok], hs, hh⟩

end Parser

end PipelineScript

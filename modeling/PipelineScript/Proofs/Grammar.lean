import PipelineScript.Parse.Program
import PipelineScript.Proofs.Steps

/-!
The grammar as a relation.

`Reads bytes phrase before after left` says that the slots `before` begin with the phrase and go on
with the slots `after`. A phrase names the kind of text that is read and the tree that it stands
for, so the relation is the grammar with its attributes. `left` is the comment before the last
token of the phrase if no node of the phrase has taken it.

Operators are joined by one rule: what stands right of an operator is an operand with everything
behind it that binds more tightly. The relation does not say how a reader finds that out; the two
laws at the end, that a run of operators can be cut at any strength and put together again, are
what connects it to a reader that climbs from one strength to the next.
-/
namespace PipelineScript

variable {engine : PatternEngine}

/-- The kind of token that a unary operator is written as. -/
def UnaryOp.tokenKind : UnaryOp → TokenKind
  | .negate => .binary .subtract
  | .not => .not

/-- The operator that a token stands for, if it binds at least as tightly as `least`. -/
def TokenKind.joining? (least : Nat) (kind : TokenKind) : Option BinaryOp :=
  kind.binaryOp?.filter fun op => decide (least ≤ op.precedence)

/-- The lists of the grammar: the arguments of a call in an operation, the arguments of a call in
an expression, and the items in brackets. -/
inductive ListSort where
  | operations
  | expressions
  | items
deriving DecidableEq

/-- The token that closes a list. -/
def ListSort.close : ListSort → TokenKind
  | .operations => .rparen
  | .expressions => .rparen
  | .items => .rbracket

/-- What is read, and the tree or trees that it stands for. -/
inductive Phrase [PatternEngine] where
  | operand (n : Node)
  | operation (n : Node)
  /-- The operators behind `left` that bind at least as tightly as `least`. The reader of `left`
  has left `comment` in the buffer. -/
  | climb (least : Nat) (left : Node) (comment : Option Comment) (n : Node)
  | item (n : Node)
  | list (sort : ListSort) (ns : List Node)
  | expression (n : Node)
  /-- The steps behind `left`. -/
  | chain (left : Node) (comment : Option Comment) (n : Node)
  | step (op : ChainOp) (n : Node)
  | call (kind : CallKind) (n : Node)
  | statement (n : Node)
  /-- The statements up to the end, and the comments that no node took. -/
  | statements (comment : Option Comment) (ns : List Node)

/-- An element of a list. -/
def ListSort.element : ListSort → Node → Phrase
  | .operations => .operation
  | .expressions => .expression
  | .items => .item

/-- The grammar. -/
inductive Reads (bytes : List UInt8) : Phrase → List Slot → List Slot → Option Comment → Prop where
  | paren {t c : Slot} {mid rest : List Slot} {n : Node} {left : Option Comment}
      (ht : t.token.kind = .lparen) (hn : Reads bytes (.operation n) mid (c :: rest) left)
      (hc : c.token.kind = .rparen) :
      Reads bytes (.operand (n.parenthesize.setComment t.comment)) (t :: mid) rest c.comment
  | number {t : Slot} {rest : List Slot} {v : Number} (ht : t.token.kind = .number)
      (hv : Number.ofText t.token.text = .ok v) :
      Reads bytes (.operand (.number (t.info bytes) v)) (t :: rest) rest none
  | string {t : Slot} {rest : List Slot} {n : Node} (ht : t.token.kind = .string)
      (hn : Node.stringOfText? (t.info bytes) t.token.text = some n) :
      Reads bytes (.operand n) (t :: rest) rest none
  | bool {t : Slot} {rest : List Slot} {value : Bool} (ht : t.token.kind = .bool value) :
      Reads bytes (.operand (.bool (t.info bytes) value)) (t :: rest) rest none
  | duration {t : Slot} {rest : List Slot} {n : Node} (ht : t.token.kind = .duration)
      (hn : Node.durationOfText (t.info bytes) t.token.text = .ok n) :
      Reads bytes (.operand n) (t :: rest) rest none
  | regex {t : Slot} {rest : List Slot} {n : Node} (ht : t.token.kind = .regex)
      (hn : Node.regexOfText (t.info bytes) t.token.text = .ok n) :
      Reads bytes (.operand n) (t :: rest) rest none
  | star {t : Slot} {rest : List Slot} (ht : t.token.kind = .star) :
      Reads bytes (.operand (.star (t.info bytes))) (t :: rest) rest none
  | reference {t : Slot} {rest : List Slot} (ht : t.token.kind = .reference) :
      Reads bytes (.operand (Node.referenceOfText (t.info bytes) t.token.text)) (t :: rest) rest
        none
  | name {t b : Slot} {rest : List Slot} (ht : t.token.kind = .ident)
      (hb : b.token.kind ≠ .lparen) :
      Reads bytes (.operand (.identifier ⟨t.info bytes, t.token.text⟩)) (t :: b :: rest) (b :: rest)
        none
  | applied {t o c : Slot} {mid rest : List Slot} {args : List Node} (ht : t.token.kind = .ident)
      (ho : o.token.kind = .lparen) (ha : Reads bytes (.list .operations args) mid (c :: rest) none)
      (hc : c.token.kind = .rparen) :
      Reads bytes
        (.operand (.func ⟨.locate bytes t.token.offset, none⟩ .global t.token.text args
          (callBreaks bytes t.token.offset args)))
        (t :: o :: mid) rest c.comment
  | unary {t : Slot} {mid rest : List Slot} {op : UnaryOp} {n : Node} {left : Option Comment}
      (ht : t.token.kind = op.tokenKind) (hn : Reads bytes (.operand n) mid rest left) :
      Reads bytes (.operand (.unary ⟨.locate bytes t.token.offset, left⟩ op n)) (t :: mid) rest none
  | operation {before mid rest : List Slot} {first n : Node} {left₁ left₂ : Option Comment}
      (hf : Reads bytes (.operand first) before mid left₁)
      (hn : Reads bytes (.climb 0 first left₁ n) mid rest left₂) :
      Reads bytes (.operation n) before rest left₂
  | stop {t : Slot} {rest : List Slot} {least : Nat} {n : Node} {left : Option Comment}
      (ht : t.token.kind.joining? least = none) :
      Reads bytes (.climb least n left n) (t :: rest) (t :: rest) left
  | join {t : Slot} {toks mid₁ mid₂ rest : List Slot} {least : Nat} {op : BinaryOp}
      {left first right n : Node} {left₀ left₁ left₂ left₃ : Option Comment}
      (ht : t.token.kind = .binary op) (hp : least ≤ op.precedence)
      (hf : Reads bytes (.operand first) toks mid₁ left₁)
      (hr : Reads bytes (.climb (op.precedence + 1) first left₁ right) mid₁ mid₂ left₂)
      (hn : Reads bytes
        (.climb least
          (.binary (t.info bytes) op left right false
            (breaksIn bytes left.position.offset right.position.offset)) left₂ n)
        mid₂ rest left₃) :
      Reads bytes (.climb least left left₀ n) (t :: toks) rest left₃
  | itemName {t : Slot} {rest : List Slot} (ht : t.token.kind = .ident) :
      Reads bytes (.item (.identifier ⟨t.info bytes, t.token.text⟩)) (t :: rest) rest none
  | itemString {t : Slot} {rest : List Slot} {n : Node} (ht : t.token.kind = .string)
      (hn : Node.stringOfText? (t.info bytes) t.token.text = some n) :
      Reads bytes (.item n) (t :: rest) rest none
  | itemStar {t : Slot} {rest : List Slot} (ht : t.token.kind = .star) :
      Reads bytes (.item (.star (t.info bytes))) (t :: rest) rest none
  | listEnd {t : Slot} {rest : List Slot} {sort : ListSort} (ht : t.token.kind = sort.close) :
      Reads bytes (.list sort []) (t :: rest) (t :: rest) none
  | listLast {a t : Slot} {toks rest : List Slot} {sort : ListSort} {n : Node}
      {left : Option Comment} (ha : a.token.kind ≠ sort.close)
      (hn : Reads bytes (sort.element n) (a :: toks) (t :: rest) left)
      (ht : t.token.kind ≠ .comma) :
      Reads bytes (.list sort [n]) (a :: toks) (t :: rest) none
  | listMore {a t : Slot} {toks mid rest : List Slot} {sort : ListSort} {n : Node} {ns : List Node}
      {left : Option Comment} (ha : a.token.kind ≠ sort.close)
      (hn : Reads bytes (sort.element n) (a :: toks) (t :: mid) left)
      (ht : t.token.kind = .comma) (hs : Reads bytes (.list sort ns) mid rest none) :
      Reads bytes (.list sort (n :: ns)) (a :: toks) rest none
  | lambda {t : Slot} {mid rest : List Slot} {n : Node} {left : Option Comment}
      (ht : t.token.kind = .lambda) (hn : Reads bytes (.operation n) mid rest left) :
      Reads bytes (.expression (.lambda (t.info bytes) n)) (t :: mid) rest left
  | bracket {t c : Slot} {mid rest : List Slot} {ns : List Node} (ht : t.token.kind = .lbracket)
      (hs : Reads bytes (.list .items ns) mid (c :: rest) none) (hc : c.token.kind = .rbracket) :
      Reads bytes (.expression (.list (t.info bytes) ns)) (t :: mid) rest c.comment
  | unnamed {t : Slot} {toks rest : List Slot} {n : Node} {left : Option Comment}
      (hi : t.token.kind ≠ .ident) (hl : t.token.kind ≠ .lambda) (hb : t.token.kind ≠ .lbracket)
      (hn : Reads bytes (.operation n) (t :: toks) rest left) :
      Reads bytes (.expression n) (t :: toks) rest left
  | named {t b : Slot} {toks rest : List Slot} {n : Node} {left : Option Comment}
      (ht : t.token.kind = .ident) (hb : b.token.kind ≠ .lparen)
      (hc : Parser.continuesChain b.token.kind = false)
      (hn : Reads bytes (.operation n) (t :: b :: toks) rest left) :
      Reads bytes (.expression n) (t :: b :: toks) rest left
  | chained {t b : Slot} {toks rest : List Slot} {n : Node} {left : Option Comment}
      (ht : t.token.kind = .ident) (hc : Parser.continuesChain b.token.kind = true)
      (hn : Reads bytes (.chain (.identifier ⟨t.info bytes, t.token.text⟩) none n) (b :: toks) rest
        left) :
      Reads bytes (.expression n) (t :: b :: toks) rest left
  | callChained {t b c : Slot} {toks mid rest : List Slot} {f n : Node}
      {left₁ left₂ : Option Comment}
      (ht : t.token.kind = .ident) (hb : b.token.kind = .lparen)
      (hf : Reads bytes (.call .global f) (t :: b :: toks) (c :: mid) left₁)
      (hc : Parser.continuesChain c.token.kind = true)
      (hn : Reads bytes (.chain f left₁ n) (c :: mid) rest left₂) :
      Reads bytes (.expression n) (t :: b :: toks) rest left₂
  | callJoined {t b c : Slot} {toks mid rest : List Slot} {f n : Node}
      {left₁ left₂ : Option Comment}
      (ht : t.token.kind = .ident) (hb : b.token.kind = .lparen)
      (hf : Reads bytes (.call .global f) (t :: b :: toks) (c :: mid) left₁)
      (hc : Parser.continuesChain c.token.kind = false)
      (hn : Reads bytes (.climb 0 f left₁ n) (c :: mid) rest left₂) :
      Reads bytes (.expression n) (t :: b :: toks) rest left₂
  | chainEnd {t : Slot} {rest : List Slot} {n : Node} {left : Option Comment}
      (ht : ∀ op, t.token.kind ≠ .chain op) :
      Reads bytes (.chain n left n) (t :: rest) (t :: rest) left
  | chainStep {t : Slot} {toks mid rest : List Slot} {op : ChainOp} {left right n : Node}
      {left₀ left₁ left₂ : Option Comment} (ht : t.token.kind = .chain op)
      (hr : Reads bytes (.step op right) toks mid left₁)
      (hn : Reads bytes (.chain (.chain (t.info bytes) op left right) left₁ n) mid rest left₂) :
      Reads bytes (.chain left left₀ n) (t :: toks) rest left₂
  | stepCall {t b : Slot} {toks rest : List Slot} {op : ChainOp} {f : Node}
      {left : Option Comment} (hb : op = .pipe ∨ b.token.kind = .lparen)
      (hf : Reads bytes (.call (CallKind.ofChain op) f) (t :: b :: toks) rest left) :
      Reads bytes (.step op f) (t :: b :: toks) rest left
  | stepName {t b : Slot} {toks : List Slot} {op : ChainOp} (ho : op ≠ .pipe)
      (ht : t.token.kind = .ident) (hb : b.token.kind ≠ .lparen) :
      Reads bytes (.step op (.identifier ⟨t.info bytes, t.token.text⟩)) (t :: b :: toks) (b :: toks)
        none
  | function {t o c : Slot} {mid rest : List Slot} {kind : CallKind} {args : List Node}
      (ht : t.token.kind = .ident) (ho : o.token.kind = .lparen)
      (ha : Reads bytes (.list .expressions args) mid (c :: rest) none)
      (hc : c.token.kind = .rparen) :
      Reads bytes
        (.call kind (.func (t.info bytes) kind t.token.text args
          (callBreaks bytes t.token.offset args)))
        (t :: o :: mid) rest c.comment
  | declare {t i e : Slot} {mid rest : List Slot} {v : Node} {left : Option Comment}
      (ht : t.token.kind = .var) (hi : i.token.kind = .ident) (he : e.token.kind = .assign)
      (hv : Reads bytes (.expression v) mid rest left) :
      Reads bytes (.statement (.declaration (t.info bytes) ⟨i.info bytes, i.token.text⟩ v))
        (t :: i :: e :: mid) rest left
  | declareType {t i y : Slot} {rest : List Slot} (ht : t.token.kind = .var)
      (hi : i.token.kind = .ident) (hy : y.token.kind = .ident) :
      Reads bytes
        (.statement (.typeDeclaration (t.info bytes) ⟨i.info bytes, i.token.text⟩
          ⟨y.info bytes, y.token.text⟩))
        (t :: i :: y :: rest) rest none
  | express {t : Slot} {toks rest : List Slot} {n : Node} {left : Option Comment}
      (ht : t.token.kind ≠ .var) (hn : Reads bytes (.expression n) (t :: toks) rest left) :
      Reads bytes (.statement n) (t :: toks) rest left
  | done {t : Slot} {rest : List Slot} {left : Option Comment} (ht : t.token.kind = .eof) :
      Reads bytes (.statements left ((left.toList ++ t.comment.toList).map .comment)) (t :: rest)
        (t.bare :: rest) none
  | more {t : Slot} {toks mid rest : List Slot} {n : Node} {ns : List Node}
      {left₀ left₁ left₂ : Option Comment} (ht : t.token.kind ≠ .eof)
      (hn : Reads bytes (.statement n) (t :: toks) mid left₁)
      (hs : Reads bytes (.statements left₁ ns) mid rest left₂) :
      Reads bytes (.statements left₀ (n :: ns)) (t :: toks) rest left₂

/-- Whether a phrase takes at least one token. -/
def Phrase.advances : Phrase → Bool
  | .climb .. => false
  | .list .. => false
  | .chain .. => false
  | .statements .. => false
  | _ => true

theorem ListSort.advances_element (sort : ListSort) (n : Node) :
    (sort.element n).advances = true := by
  cases sort <;> rfl

theorem TokenKind.joining?_binary {least : Nat} {op : BinaryOp} (h : least ≤ op.precedence) :
    TokenKind.joining? least (.binary op) = some op := by
  simp [TokenKind.joining?, TokenKind.binaryOp?, h]

theorem TokenKind.joining?_eq_some {least : Nat} {kind : TokenKind} {op : BinaryOp}
    (h : kind.joining? least = some op) : kind = .binary op ∧ least ≤ op.precedence := by
  cases kind with
  | binary op' =>
    simp only [TokenKind.joining?, TokenKind.binaryOp?, Option.filter_eq_some_iff,
      Option.some.injEq, decide_eq_true_eq] at h
    obtain ⟨rfl, hp⟩ := h
    exact ⟨rfl, hp⟩
  | _ => simp [TokenKind.joining?, TokenKind.binaryOp?] at h

/-- A token that does not join at some strength joins at no greater one. -/
theorem TokenKind.joining?_eq_none_of_le {least p : Nat} {kind : TokenKind} (hp : least ≤ p)
    (h : kind.joining? least = none) : kind.joining? p = none := by
  cases hj : kind.joining? p with
  | none => rfl
  | some op =>
    obtain ⟨hk, hop⟩ := TokenKind.joining?_eq_some hj
    rw [hk, TokenKind.joining?_binary (Nat.le_trans hp hop)] at h
    contradiction

theorem TokenKind.joining?_binary_of_lt {least : Nat} {op : BinaryOp} (h : op.precedence < least) :
    TokenKind.joining? least (.binary op) = none := by
  simp [TokenKind.joining?, TokenKind.binaryOp?, h]

namespace Reads

variable {bytes : List UInt8} {ph : Phrase} {before after : List Slot} {left : Option Comment}

/-! ## Progress -/

/-- No phrase gives tokens back, and most take at least one. -/
theorem length_le (h : Reads bytes ph before after left) :
    after.length + (if ph.advances then 1 else 0) ≤ before.length := by
  induction h with
  | listLast _ _ _ ih =>
    rw [ListSort.advances_element] at ih
    simp only [Phrase.advances, List.length_cons, if_true, Bool.false_eq_true, if_false] at ih ⊢
    omega
  | listMore _ _ _ _ ih ihs =>
    rw [ListSort.advances_element] at ih
    simp only [Phrase.advances, List.length_cons, if_true, Bool.false_eq_true, if_false] at ih ihs ⊢
    omega
  | _ =>
    simp only [Phrase.advances, List.length_cons, if_true, Bool.false_eq_true, if_false] at *
    try omega

theorem length_lt (h : Reads bytes ph before after left) (ha : ph.advances = true) :
    after.length < before.length := by
  have := h.length_le
  simp only [ha, if_true] at this
  omega

/-! ## Cutting a run of operators -/

/-- A run of operators can be read up to the first one that binds less tightly than `p`, and then
on from there. -/
theorem cut {least p : Nat} {n₀ n : Node} {left₀ : Option Comment} (hp : least ≤ p)
    (h : Reads bytes (.climb least n₀ left₀ n) before after left) :
    ∃ m mid left₁, Reads bytes (.climb p n₀ left₀ m) before mid left₁ ∧
      Reads bytes (.climb least m left₁ n) mid after left := by
  generalize hph : Phrase.climb least n₀ left₀ n = ph at h
  induction h generalizing n₀ left₀ with
  | stop ht =>
    cases hph
    exact ⟨_, _, _, .stop (TokenKind.joining?_eq_none_of_le hp ht), .stop ht⟩
  | @join t toks mid₁ mid₂ rest least' op n₀' first right n' _ _ _ _ ht hop hf hr hn _ _ ihn =>
    cases hph
    by_cases hle : p ≤ op.precedence
    · obtain ⟨m, mid, left₁, hm, hrest⟩ := ihn rfl
      exact ⟨m, mid, left₁, .join ht hle hf hr hm, hrest⟩
    · refine ⟨_, _, _, .stop ?_, .join ht hop hf hr hn⟩
      rw [ht]
      exact TokenKind.joining?_binary_of_lt (Nat.lt_of_not_le hle)
  | _ => cases hph

/-- Two runs of operators make one, if the first binds at least as tightly. -/
theorem paste {q p : Nat} {n₀ m n : Node} {left₀ left₁ : Option Comment} {mid : List Slot}
    (hq : q ≤ p) (h : Reads bytes (.climb p n₀ left₀ m) before mid left₁)
    (h' : Reads bytes (.climb q m left₁ n) mid after left) :
    Reads bytes (.climb q n₀ left₀ n) before after left := by
  generalize hph : Phrase.climb p n₀ left₀ m = ph at h
  induction h generalizing n₀ left₀ with
  | stop => cases hph; exact h'
  | join ht hop hf hr hn _ _ ihn =>
    cases hph
    exact .join ht (Nat.le_trans hq hop) hf hr (ihn h' rfl)
  | _ => cases hph

/-- An operator that binds tightly enough is read together with its right operand. -/
theorem length_of_join {p : Nat} {op : BinaryOp} {n₀ n : Node} {left₀ : Option Comment} {t : Slot}
    {toks : List Slot} (h : Reads bytes (.climb p n₀ left₀ n) (t :: toks) after left)
    (ht : t.token.kind = .binary op) (hp : p ≤ op.precedence) : after.length < toks.length := by
  cases h with
  | stop hs => rw [ht, TokenKind.joining?_binary hp] at hs; contradiction
  | join _ _ hf hr hn =>
    have := hf.length_lt rfl
    have := hr.length_le
    have := hn.length_le
    omega

end Reads

/-! ## No comment is left over -/

/-- The marks that close a list or an operation. -/
def TokenKind.closes : TokenKind → Bool
  | .rparen => true
  | .rbracket => true
  | _ => false

/-- The comment that a phrase finds in the buffer. -/
def Phrase.found : Phrase → Option Comment
  | .climb _ _ comment _ => comment
  | .chain _ comment _ => comment
  | .statements comment _ => comment
  | _ => none

/-- No slot that closes something has a comment. -/
def ClosesBare (ts : List Slot) : Prop := ∀ t ∈ ts, t.token.kind.closes = true → t.comment = none

/-- Whether a phrase goes up to the end of the text. -/
def Phrase.isWhole : Phrase → Bool
  | .statements .. => true
  | _ => false

theorem ListSort.isWhole_element (sort : ListSort) (n : Node) :
    (sort.element n).isWhole = false := by
  cases sort <;> rfl

theorem ListSort.found_element (sort : ListSort) (n : Node) :
    (sort.element n).found = none := by
  cases sort <;> rfl

/-- A phrase takes the first slots. The comment that it leaves behind is the one that it found, or
stands before a closing mark among those slots. -/
theorem Reads.used {bytes : List UInt8} {ph : Phrase} {before after : List Slot}
    {left : Option Comment} (h : Reads bytes ph before after left) (hw : ph.isWhole = false) :
    ∃ used, before = used ++ after ∧ ∀ P : Option Comment → Prop, P none →
      (∀ t ∈ used, t.token.kind.closes = true → P t.comment) → P ph.found → P left := by
  induction h with
  | @paren t c _ rest _ _ _ _ hc ih | @bracket t c _ rest _ _ _ hc ih =>
    obtain ⟨used, rfl, -⟩ := ih rfl
    exact ⟨t :: (used ++ [c]), by simp, fun P _ hb _ => hb c (by simp) (by rw [hc]; rfl)⟩
  | @applied t o c _ rest _ _ _ _ hc ih | @function t o c _ rest _ _ _ _ _ hc ih =>
    obtain ⟨used, rfl, -⟩ := ih rfl
    exact ⟨t :: o :: (used ++ [c]), by simp, fun P _ hb _ => hb c (by simp) (by rw [hc]; rfl)⟩
  | @number t | @string t | @bool t | @duration t | @regex t | @star t | @reference t | @name t
  | @itemName t | @itemString t | @itemStar t | @stepName t => exact ⟨[t], rfl, fun P hP _ _ => hP⟩
  | @unary t _ _ _ _ _ _ _ ih =>
    obtain ⟨used, rfl, -⟩ := ih rfl
    exact ⟨t :: used, rfl, fun P hP _ _ => hP⟩
  | operation _ _ ihf ihn =>
    obtain ⟨used₁, rfl, h₁⟩ := ihf rfl
    obtain ⟨used₂, rfl, h₂⟩ := ihn rfl
    refine ⟨used₁ ++ used₂, by simp, fun P hP hb _ => ?_⟩
    rw [List.forall_mem_append] at hb
    exact h₂ P hP hb.2 (h₁ P hP hb.1 hP)
  | stop | chainEnd => exact ⟨[], rfl, fun P _ _ hf => hf⟩
  | @join t _ _ _ _ _ _ _ _ _ _ _ _ _ _ _ _ _ _ _ ihf ihr ihn =>
    obtain ⟨used₁, rfl, h₁⟩ := ihf rfl
    obtain ⟨used₂, rfl, h₂⟩ := ihr rfl
    obtain ⟨used₃, rfl, h₃⟩ := ihn rfl
    refine ⟨t :: (used₁ ++ (used₂ ++ used₃)), by simp, fun P hP hb _ => ?_⟩
    simp only [List.forall_mem_cons, List.forall_mem_append] at hb
    exact h₃ P hP hb.2.2.2 (h₂ P hP hb.2.2.1 (h₁ P hP hb.2.1 hP))
  | listEnd => exact ⟨[], rfl, fun P hP _ _ => hP⟩
  | listLast _ _ _ ih =>
    obtain ⟨used, hused, -⟩ := ih (ListSort.isWhole_element _ _)
    exact ⟨used, hused, fun P hP _ _ => hP⟩
  | @listMore _ t _ _ _ _ _ _ _ _ _ _ _ ih ihs =>
    obtain ⟨used₁, hused, -⟩ := ih (ListSort.isWhole_element _ _)
    obtain ⟨used₂, rfl, -⟩ := ihs rfl
    exact ⟨used₁ ++ t :: used₂, by simp [hused], fun P hP _ _ => hP⟩
  | @lambda t _ _ _ _ _ _ ih =>
    obtain ⟨used, rfl, h⟩ := ih rfl
    exact ⟨t :: used, rfl, fun P hP hb _ => h P hP (List.forall_mem_cons.1 hb).2 hP⟩
  | unnamed _ _ _ _ ih | named _ _ _ _ ih | express _ _ ih | stepCall _ _ ih =>
    obtain ⟨used, hused, h⟩ := ih rfl
    exact ⟨used, hused, h⟩
  | @chained t _ _ _ _ _ _ _ _ ih =>
    obtain ⟨used, hused, h⟩ := ih rfl
    exact ⟨t :: used, by simp [hused], fun P hP hb _ => h P hP (List.forall_mem_cons.1 hb).2 hP⟩
  | callChained _ _ _ _ _ ihf ihn | callJoined _ _ _ _ _ ihf ihn =>
    obtain ⟨used₁, hused₁, h₁⟩ := ihf rfl
    obtain ⟨used₂, hused₂, h₂⟩ := ihn rfl
    refine ⟨used₁ ++ used₂, by simp [hused₁, hused₂], fun P hP hb _ => ?_⟩
    rw [List.forall_mem_append] at hb
    exact h₂ P hP hb.2 (h₁ P hP hb.1 hP)
  | @chainStep t _ _ _ _ _ _ _ _ _ _ _ _ _ ihr ihn =>
    obtain ⟨used₁, rfl, h₁⟩ := ihr rfl
    obtain ⟨used₂, rfl, h₂⟩ := ihn rfl
    refine ⟨t :: (used₁ ++ used₂), by simp, fun P hP hb _ => ?_⟩
    simp only [List.forall_mem_cons, List.forall_mem_append] at hb
    exact h₂ P hP hb.2.2 (h₁ P hP hb.2.1 hP)
  | @declare t i e _ _ _ _ _ _ _ _ ih =>
    obtain ⟨used, rfl, h⟩ := ih rfl
    refine ⟨t :: i :: e :: used, rfl, fun P hP hb _ => ?_⟩
    simp only [List.forall_mem_cons] at hb
    exact h P hP hb.2.2.2 hP
  | @declareType t i y => exact ⟨[t, i, y], rfl, fun P hP _ _ => hP⟩
  | done => cases hw
  | more => cases hw

/-- What holds of all slots holds of those behind a phrase. -/
theorem Reads.forall_mem_after {bytes : List UInt8} {ph : Phrase} {before after : List Slot}
    {left : Option Comment} (h : Reads bytes ph before after left) (hw : ph.isWhole = false)
    {P : Slot → Prop} (hb : ∀ t ∈ before, P t) : ∀ t ∈ after, P t := by
  obtain ⟨used, rfl, -⟩ := h.used hw
  exact fun t ht => hb t (by simp [ht])

/-- What holds of the comments of all slots holds of the one that a phrase leaves behind. -/
theorem Reads.forall_mem_left {bytes : List UInt8} {ph : Phrase} {before after : List Slot}
    {left : Option Comment} (h : Reads bytes ph before after left) (hw : ph.isWhole = false)
    {P : Option Comment → Prop} (hn : P none) (hb : ∀ t ∈ before, P t.comment) (hf : P ph.found) :
    P left := by
  obtain ⟨used, rfl, hleft⟩ := h.used hw
  exact hleft P hn (fun t ht _ => hb t (by simp [ht])) hf

/-- A phrase leaves no comment behind if no closing mark that it takes has one. -/
theorem Reads.left_eq_none {bytes : List UInt8} {ph : Phrase} {used after : List Slot}
    {left : Option Comment} (h : Reads bytes ph (used ++ after) after left)
    (hw : ph.isWhole = false) (hf : ph.found = none) (hb : ClosesBare used) : left = none := by
  obtain ⟨used', hused, hleft⟩ := h.used hw
  obtain rfl := List.append_cancel_right hused
  exact hleft (· = none) rfl hb hf

end PipelineScript

import PipelineScript.Proofs.Echo

/-!
The grammar reads a spellable tree back from its signs.

The heart of it is how operators nest. `Opens` says that what is written for an operand of some
strength is a first operand followed by operators, and that reading those operators up to any
weaker strength amounts to reading on from the whole. An operand that would be too weak for its
place is written in parentheses, so the strengths always fit (`Opens.join`).

The main statements are `Spellable.readsBack`, by induction on how a tree is spellable with one case
for each rule, and what it says about whole operations and statements.
-/
namespace PipelineScript

variable {engine : PatternEngine}

theorem BinaryOp.precedence_lt (op : BinaryOp) : op.precedence < 6 := by
  cases op <;> decide

/-! ## Strength -/

namespace Node

/-- How tightly a node is held together as it is written. An operand or an operation in parentheses
is stronger than every operator. -/
def strength (parens : Bool) : Node → Nat
  | .binary _ op _ _ parenthesized _ => if parens || parenthesized then 6 else op.precedence
  | _ => 6

/-- The left operand of an operator is written so that it holds together. -/
theorem precedence_le_strength (op : BinaryOp) (n : Node) :
    op.precedence ≤ n.strength (looserLeft op.precedence n) := by
  have := op.precedence_lt
  cases n with
  | binary info op' left right parenthesized broken =>
    by_cases h : op'.precedence < op.precedence
    · simp only [strength, looserLeft, h, decide_true, Bool.true_or, if_true]
      omega
    · cases parenthesized <;> simp [strength, looserLeft, h] <;> omega
  | _ => simp only [strength]; omega

/-- The right operand of an operator is written so that it holds together more tightly. -/
theorem precedence_lt_strength (op : BinaryOp) (n : Node) :
    op.precedence < n.strength (looserRight op.precedence n) := by
  have := op.precedence_lt
  cases n with
  | binary info op' left right parenthesized broken =>
    by_cases h : op'.precedence ≤ op.precedence
    · simp only [strength, looserRight, h, decide_true, Bool.true_or, if_true]
      omega
    · cases parenthesized <;> simp [strength, looserRight, h] <;> omega
  | _ => simp only [strength]; omega

/-- Behind a unary operator stands what is stronger than every operator. -/
theorem strength_isBinary (n : Node) : n.strength n.isBinary = 6 := by
  cases n <;> rfl

/-- Whether a node ends in a name that a parenthesis behind it would make a call. -/
def endsInName (parens : Bool) : Node → Bool
  | .identifier _ => true
  | .unary _ _ operand => endsInName operand.isBinary operand
  | .binary _ op _ right parenthesized _ =>
    !(parens || parenthesized) && endsInName (looserRight op.precedence right) right
  | .chain _ _ _ right => endsInName false right
  | .lambda _ body => endsInName false body
  | .declaration _ _ value => endsInName false value
  | _ => false

/-- Whether an operator behind a node would go on with it. -/
def takesOperator : Node → Bool
  | .chain .. => false
  | .list .. => false
  | .typeDeclaration .. => false
  | .declaration _ _ value => takesOperator value
  | _ => true

end Node

/-! ## Operators -/

/-- A slot that ends an operand of some strength: no operator that is stronger, and no call if the
operand ends in a name. -/
def Slot.Stops (named : Bool) (k : Nat) (t : Slot) : Prop :=
  (named = true → t.token.kind ≠ .lparen) ∧ t.token.kind.joining? (k + 1) = none

theorem Slot.Stops.of_le {named : Bool} {j k : Nat} {t : Slot} (h : t.Stops named j)
    (hjk : j ≤ k) : t.Stops named k :=
  ⟨h.1, TokenKind.joining?_eq_none_of_le (by omega) h.2⟩

theorem Slot.stops_binary {named : Bool} {k : Nat} {t : Slot} {op : BinaryOp}
    (ht : t.token.kind = .binary op) (hk : op.precedence ≤ k) : t.Stops named k := by
  refine ⟨by simp [ht], ?_⟩
  rw [ht]
  exact TokenKind.joining?_binary_of_lt (by omega)

/-- The slots `ts`, seen by a reader of operators: a first phrase, and operators that join to make
one of the trees `T`. Any run of operators behind it that are not stronger than `k` goes on from
there. -/
def Opens (bytes : List UInt8) (first : Node → Phrase) (named : Bool) (k : Nat) (T : Node → Prop)
    (ts : List Slot) : Prop :=
  ∀ (t : Slot) (rest : List Slot), t.Stops named k →
    ∃ q a mid left₀ left₁, T q ∧ Reads bytes (first a) (ts ++ t :: rest) mid left₀ ∧
      ∀ least ≤ k, ∀ (m : Node) (after : List Slot) (left : Option Comment),
        Reads bytes (.climb least q left₁ m) (t :: rest) after left →
        Reads bytes (.climb least a left₀ m) mid after left

section

variable {bytes : List UInt8} {first : Node → Phrase} {named : Bool} {k : Nat} {T : Node → Prop}
  {ts : List Slot}

/-- A tree that is read at once. -/
theorem Opens.whole
    (h : ∀ (t : Slot) (rest : List Slot), t.Stops named k →
      ∃ q left, T q ∧ Reads bytes (first q) (ts ++ t :: rest) (t :: rest) left) :
    Opens bytes first named k T ts := by
  intro t rest ht
  obtain ⟨q, left, hq, hr⟩ := h t rest ht
  exact ⟨q, q, t :: rest, left, left, hq, hr, fun _ _ _ _ _ h => h⟩

theorem Opens.imp {T' : Node → Prop} (h : Opens bytes first named k T ts)
    (himp : ∀ q, T q → T' q) : Opens bytes first named k T' ts := by
  intro t rest ht
  obtain ⟨q, a, mid, left₀, left₁, hq, hr⟩ := h t rest ht
  exact ⟨q, a, mid, left₀, left₁, himp q hq, hr⟩

/-- An operator joins two operands of fitting strengths. -/
theorem Opens.join {op : BinaryOp} {kl kr : Nat} {endsL : Bool} {L R : Node → Prop}
    {tl tr : List Slot} {o : Slot} (hl : Opens bytes first endsL kl L tl)
    (hr : Opens bytes .operand named kr R tr) (ho : o.token.kind = .binary op)
    (hkl : op.precedence ≤ kl) (hkr : op.precedence < kr) :
    Opens bytes first named op.precedence
      (fun q => ∃ ql qr, L ql ∧ R qr ∧ q = .binary (o.info bytes) op ql qr false
        (breaksIn bytes ql.position.offset qr.position.offset))
      (tl ++ o :: tr) := by
  intro t rest ht
  obtain ⟨qr, b, midr, leftb, leftr, hqr, hb, hcontr⟩ := hr t rest (ht.of_le (by omega))
  obtain ⟨ql, a, midl, lefta, leftl, hql, ha, hcontl⟩ :=
    hl o (tr ++ t :: rest) (Slot.stops_binary ho hkl)
  -- The right operand stops at `t`, which is no stronger operator than `op`.
  have hright := hcontr (op.precedence + 1) (by omega) qr _ _ (.stop ht.2)
  refine ⟨_, a, midl, lefta, leftr, ⟨ql, qr, hql, hqr, rfl⟩, by simpa using ha, ?_⟩
  intro least hle m after left hm
  exact hcontl least (by omega) m after left (.join ho hle hb hright hm)

/-- Where no operator follows, an operation ends. -/
theorem Opens.operation (h : Opens bytes .operand named k T ts) {t : Slot} (rest : List Slot)
    (ht : named = true → t.token.kind ≠ .lparen) (hj : t.token.kind.joining? 0 = none) :
    ∃ q left, T q ∧ Reads bytes (.operation q) (ts ++ t :: rest) (t :: rest) left := by
  obtain ⟨q, a, mid, left₀, left₁, hq, ha, hcont⟩ :=
    h t rest ⟨ht, TokenKind.joining?_eq_none_of_le (by omega) hj⟩
  exact ⟨q, left₁, hq, .operation ha (hcont 0 (by omega) q _ _ (.stop hj))⟩

/-- What is stronger than every operator is read at once. -/
theorem Opens.operand (h : Opens bytes .operand named 6 T ts) {t : Slot} (rest : List Slot)
    (ht : named = true → t.token.kind ≠ .lparen) :
    ∃ q left, T q ∧ Reads bytes (.operand q) (ts ++ t :: rest) (t :: rest) left := by
  have hnone : ∀ p, 6 ≤ p → t.token.kind.joining? p = none := by
    intro p hp
    cases hj : t.token.kind.joining? p with
    | none => rfl
    | some op =>
      have := op.precedence_lt
      have := (TokenKind.joining?_eq_some hj).2
      omega
  obtain ⟨q, a, mid, left₀, left₁, hq, ha, hcont⟩ := h t rest ⟨ht, hnone 7 (by omega)⟩
  have hclimb := hcont 6 (by omega) q _ _ (.stop (hnone 6 (by omega)))
  cases hclimb with
  | stop => exact ⟨q, _, hq, ha⟩
  | @join _ _ _ _ _ _ op _ _ _ _ _ _ _ _ _ hp =>
    have := op.precedence_lt
    omega

/-- An operation in parentheses is an operand. -/
theorem Opens.paren {j : Nat} {o c : Slot} (h : Opens bytes .operand named k T ts)
    (ho : o.token.kind = .lparen) (hc : c.token.kind = .rparen) :
    Opens bytes .operand false j (fun q => ∃ q₀, T q₀ ∧ q = q₀.parenthesize.setComment o.comment)
      (o :: (ts ++ [c])) := by
  refine .whole fun t rest _ => ?_
  obtain ⟨q, left, hq, hr⟩ := h.operation (t := c) (t :: rest) (by simp [hc]) (by rw [hc]; rfl)
  refine ⟨_, c.comment, ⟨q, hq, rfl⟩, ?_⟩
  simpa using Reads.paren ho hr hc

end

/-! ## Signs -/

theorem Comment.signsOf_lines (indent tail : List Char) (lines : List String) :
    signsOf (continued indent tail lines).2 = [] ∧ signsOf (remarks indent tail lines) = [] := by
  induction lines with
  | nil => simp [continued, remarks]
  | cons line lines ih =>
    by_cases h : line = gap
    · simp [continued, remarks, h, ih]
    · simp [continued, remarks, h, ih, signsOf_comment]

/-- The grammar does not see what stands before a node. -/
@[simp] theorem signsOf_lead (c : Option Comment) (indent tail : List Char) (fresh : Bool) :
    signsOf (lead c indent tail fresh) = [] := by
  cases c with
  | none => rfl
  | some c => simp [lead, Comment.signsOf_lines]

@[simp] theorem Node.signsOf_leadOf (info : Info) (indent : List Char) (fresh : Bool) :
    signsOf (Node.leadOf info indent fresh) = [] :=
  signsOf_lead _ _ _ _

@[simp] theorem Identifier.signsOf_pieces (ident : Identifier) (indent : List Char)
    (fresh : Bool) : signsOf (ident.pieces indent fresh) = [⟨.ident, ident.name.toList⟩] := by
  simp [Identifier.pieces, signsOf]

theorem UnaryOp.tokenKind_ne_comment (op : UnaryOp) : op.tokenKind ≠ .comment := by
  cases op <;> decide

/-- Arguments on one line or on many have the same signs as items. -/
theorem Node.signsOf_itemPieces (indent : List Char) (items : List Node) :
    signsOf (Node.itemPieces indent items) = signsOf (Node.argPieces indent false true items) := by
  have hmore : ∀ items : List Node, items ≠ [] → signsOf (Node.argPieces indent false false items) =
      ⟨.comma, [',']⟩ :: signsOf (Node.argPieces indent false true items) := by
    intro items hne
    cases items with
    | nil => contradiction
    | cons a as => simp [Node.argPieces, signsOf]
  induction items with
  | nil => rfl
  | cons item items ih =>
    cases items with
    | nil => simp [Node.itemPieces, Node.argPieces]
    | cons item' items =>
      rw [Node.itemPieces, Node.argPieces]
      · simp [signsOf, ih, hmore]
      · simp

/-- A spellable tree begins with a sign that opens an expression, and a statement may begin with
`var` instead. -/
theorem Spellable.signsOf_eq_cons {place : Place} {n : Node} (h : Spellable place n)
    (indent : List Char) (fresh parens : Bool) :
    ∃ g gs, signsOf (n.pieces indent fresh parens) = g :: gs ∧
      (g.kind.opens = true ∨ place = .statement ∧ g.kind = .var) := by
  induction h generalizing indent fresh parens with
  | literal hg _ _ _ | headLiteral hg _ _ _ | itemLiteral hg _ _ _ =>
    have hk := Node.kind_of_literalSign? hg
    have hne : (‹Sign›).kind ≠ .comment := by
      intro h
      rw [h] at hk
      simp [Node.literalKinds] at hk
    exact ⟨_, [], by simp [Node.pieces_of_literalSign? hg, signsOf_sign _ hne],
      .inl (TokenKind.opens_of_mem_literalKinds hk)⟩
  | name | headName | baseName | stepName | itemName =>
    exact ⟨_, _, by simp [Node.pieces]; exact ⟨rfl, rfl⟩, .inl rfl⟩
  | call | headCall | baseCall | stepCall =>
    exact ⟨_, _, by simp [Node.pieces, signsOf]; exact ⟨rfl, rfl⟩, .inl rfl⟩
  | @unary _ op | @headUnary _ op =>
    refine ⟨_, _, by simp [Node.pieces, signsOf, op.tokenKind_ne_comment]; exact ⟨rfl, rfl⟩,
      .inl ?_⟩
    cases op <;> rfl
  | @binary _ op left right parenthesized _ _ _ _ _ ihl _ =>
    by_cases hp : (parens || parenthesized) = true
    · exact ⟨⟨.lparen, ['(']⟩, _, by simp [Node.pieces, hp, signsOf]; rfl, .inl rfl⟩
    · obtain ⟨g, gs, hg, hk⟩ := ihl indent false (Node.looserLeft op.precedence left)
      exact ⟨g, _, by simp [Node.pieces, hp, hg]; rfl, .inl (by simpa using hk)⟩
  | headParens => exact ⟨⟨.lparen, ['(']⟩, _, by simp [Node.pieces, signsOf]; rfl, .inl rfl⟩
  | @headBinary _ op left right _ _ _ hl _ ihl _ =>
    by_cases hp : parens = true
    · exact ⟨⟨.lparen, ['(']⟩, _, by simp [Node.pieces, hp, signsOf]; rfl, .inl rfl⟩
    · obtain ⟨g, gs, hg, hk⟩ := ihl indent false (Node.looserLeft op.precedence left)
      refine ⟨g, _, by simp [Node.pieces, hp, hg]; rfl, .inl ?_⟩
      rcases hk with hk | ⟨hk, -⟩
      · exact hk
      · split at hk <;> cases hk
  | operation _ ih =>
    obtain ⟨g, gs, hg, hk⟩ := ih indent fresh parens
    exact ⟨g, gs, hg, .inl (by simpa using hk)⟩
  | lambda | list => exact ⟨_, _, by simp [Node.pieces, signsOf]; exact ⟨rfl, rfl⟩, .inl rfl⟩
  | chain _ _ _ ihl _ | baseChain _ _ _ ihl _ =>
    obtain ⟨g, gs, hg, hk⟩ := ihl indent fresh false
    exact ⟨g, _, by simp [Node.pieces, hg]; rfl, .inl (by simpa using hk)⟩
  | declaration | typeDeclaration =>
    exact ⟨_, _, by simp [Node.pieces, signsOf]; exact ⟨rfl, rfl⟩, .inr ⟨rfl, rfl⟩⟩
  | express _ ih =>
    obtain ⟨g, gs, hg, hk⟩ := ih indent fresh parens
    exact ⟨g, gs, hg, .inl (by simpa using hk)⟩

theorem Node.takesOperator_of_literalSign? {n : Node} {g : Sign} (h : n.literalSign? = some g) :
    n.takesOperator = true ∧ ∀ parens, n.endsInName parens = false := by
  cases n <;> simp [Node.literalSign?] at h <;> exact ⟨rfl, fun _ => rfl⟩

/-- An operator goes on with an operation. -/
theorem Spellable.takesOperator {place : Place} {n : Node} (h : Spellable place n)
    (hp : place = .operation ∨ place = .head) : n.takesOperator = true := by
  cases h with
  | literal hg | headLiteral hg => exact (Node.takesOperator_of_literalSign? hg).1
  | name | call | unary | binary | headName | headCall | headUnary | headParens | headBinary => rfl
  | _ => simp at hp

/-! ## Lists and calls -/

/-- The slots are what the grammar sees of the pieces. -/
def Writes (ts : List Slot) (ps : List Piece) : Prop := ts.map Slot.sign = signsOf ps

/-- A slot that ends an expression: it begins no step of a chain and, if that would go on with the
expression, no call and no operator. -/
structure Slot.Ends (n : Node) (t : Slot) : Prop where
  call : n.endsInName false = true → t.token.kind ≠ .lparen
  chain : ∀ op, t.token.kind ≠ .chain op
  operator : n.takesOperator = true → t.token.kind.joining? 0 = none

theorem Slot.ends_of_kind {n : Node} {t : Slot} {kind : TokenKind} (ht : t.token.kind = kind)
    (hk : kind = .comma ∨ kind = .rparen ∨ kind = .rbracket ∨ kind = .eof) : t.Ends n := by
  rcases hk with rfl | rfl | rfl | rfl <;>
  exact ⟨by simp [ht], by simp [ht], fun _ => by rw [ht]; rfl⟩

/-- A phrase that echoes `n` is read from the slots `ts`, up to a slot that ends it. -/
def ReadsAs (bytes : List UInt8) (inner : Bool) (phrase : Node → Phrase) (n : Node)
    (ts : List Slot) : Prop :=
  ∀ (t : Slot) (rest : List Slot), t.Ends n →
    ∃ q left, Echo bytes inner false n ts q ∧
      Reads bytes (phrase q) (ts ++ t :: rest) (t :: rest) left

section

variable {bytes : List UInt8} {ts : List Slot}

/-- A list whose elements are read back is read back up to its closing token. -/
theorem reads_list (inner : Bool) (sort : ListSort) {indent : List Char} {broken : Bool}
    {args : List Node}
    (hfirst : ∀ a ∈ args, ∀ indent fresh, ∃ g gs,
      signsOf (a.pieces indent fresh false) = g :: gs ∧ g.kind.opens = true)
    (h : ∀ a ∈ args, ∀ indent fresh ts, Writes ts (a.pieces indent fresh false) →
      ReadsAs bytes inner sort.element a ts)
    (hts : Writes ts (Node.argPieces indent broken true args)) {c : Slot} (rest : List Slot)
    (hc : c.token.kind = sort.close) :
    ∃ qs, EchoAll bytes inner args ts qs ∧
      Reads bytes (.list sort qs) (ts ++ c :: rest) (c :: rest) none := by
  have hclose : ∀ kind : TokenKind, kind.opens = true → kind ≠ sort.close := by
    rintro kind hk rfl
    cases sort <;> simp [ListSort.close, TokenKind.opens] at hk
  induction args generalizing ts with
  | nil =>
    simp only [Writes, Node.argPieces, signsOf_nil, List.map_eq_nil_iff] at hts
    subst hts
    exact ⟨[], ⟨rfl, rfl⟩, .listEnd hc⟩
  | cons a as ih =>
    obtain ⟨g, gs, hg, hopen⟩ := hfirst a (by simp) indent broken
    have hfirst' := fun b (hb : b ∈ as) => hfirst b (by simp [hb])
    have h' := fun b (hb : b ∈ as) => h b (by simp [hb])
    simp only [Writes, Node.argPieces, if_true, List.nil_append, List.cons_append, signsOf_blank,
      signsOf_append] at hts
    obtain ⟨ta, tas, rfl, hta, htas⟩ := List.map_eq_append_iff.1 hts
    have hread := h a (by simp) indent broken ta hta
    obtain ⟨b, tb, rfl, hb, -⟩ := List.map_eq_cons_iff.1 (hta.trans hg)
    have hbk : b.token.kind ≠ sort.close := hclose _ (by rw [← hb] at hopen; exact hopen)
    cases as with
    | nil =>
      simp only [Node.argPieces, signsOf_nil, List.map_eq_nil_iff] at htas
      subst htas
      have hend : c.Ends a := Slot.ends_of_kind hc (by cases sort <;> simp [ListSort.close])
      obtain ⟨q, left, hq, hr⟩ := hread c rest hend
      refine ⟨[q], ⟨_, [], q, [], rfl, rfl, by simpa using hq, rfl, rfl⟩, ?_⟩
      simp only [List.append_nil]
      exact .listLast hbk hr (by rw [hc]; cases sort <;> simp [ListSort.close])
    | cons a' as =>
      have hsplit : signsOf (Node.argPieces indent broken false (a' :: as)) =
          ⟨.comma, [',']⟩ :: signsOf (Node.argPieces indent broken true (a' :: as)) := by
        simp [Node.argPieces, signsOf]
      rw [hsplit] at htas
      obtain ⟨m, tas, rfl, hm, htas⟩ := List.map_eq_cons_iff.1 htas
      have hmk : m.token.kind = .comma := Slot.kind_of_sign hm
      obtain ⟨q, left, hq, hr⟩ := hread m (tas ++ c :: rest) (Slot.ends_of_kind hmk (by simp))
      obtain ⟨qs, hqs, hrs⟩ := ih hfirst' h' htas
      refine ⟨q :: qs, ⟨_, m :: tas, q, qs, rfl, rfl, hq, m, tas, rfl, hqs⟩, ?_⟩
      simp only [List.append_assoc, List.cons_append]
      exact .listMore hbk hr hmk hrs

/-- What is written for a call: a name, and its arguments in parentheses. -/
theorem writes_func {info : Info} {kind : CallKind} {name : String} {args : List Node}
    {broken fresh parens : Bool} {indent : List Char}
    (hts : Writes ts ((Node.func info kind name args broken).pieces indent fresh parens)) :
    ∃ t o mid c, ts = t :: o :: (mid ++ [c]) ∧ t.token.kind = .ident ∧ t.token.text = name ∧
      o.token.kind = .lparen ∧ c.token.kind = .rparen ∧
      Writes mid (Node.argPieces (indent ++ indentStep) broken true args) := by
  have hsigns : signsOf ((Node.func info kind name args broken).pieces indent fresh parens) =
      ⟨.ident, name.toList⟩ :: ⟨.lparen, ['(']⟩ ::
        (signsOf (Node.argPieces (indent ++ indentStep) broken true args) ++
          [⟨.rparen, [')']⟩]) := by
    simp [Node.pieces, signsOf]
  rw [Writes, hsigns] at hts
  obtain ⟨t, ts, rfl, ht, hts⟩ := List.map_eq_cons_iff.1 hts
  obtain ⟨o, ts, rfl, ho, hts⟩ := List.map_eq_cons_iff.1 hts
  obtain ⟨mid, cs, rfl, hmid, hcs⟩ := List.map_eq_append_iff.1 hts
  obtain ⟨c, cs, rfl, hc, hcs⟩ := List.map_eq_cons_iff.1 hcs
  obtain rfl := List.map_eq_nil_iff.1 hcs
  exact ⟨t, o, mid, c, rfl, Slot.kind_of_sign ht, by simpa using Slot.text_of_sign ht,
    Slot.kind_of_sign ho, Slot.kind_of_sign hc, hmid⟩

theorem writes_identifier {ident : Identifier} {fresh parens : Bool} {indent : List Char}
    (hts : Writes ts ((Node.identifier ident).pieces indent fresh parens)) :
    ∃ t, ts = [t] ∧ t.token.kind = .ident ∧ t.token.text = ident.name := by
  simp only [Writes, Node.pieces, Identifier.signsOf_pieces] at hts
  obtain ⟨t, ts, rfl, ht, hts⟩ := List.map_eq_cons_iff.1 hts
  obtain rfl := List.map_eq_nil_iff.1 hts
  exact ⟨t, rfl, Slot.kind_of_sign ht, by simpa using Slot.text_of_sign ht⟩

theorem writes_literal {n : Node} {g : Sign} (hg : n.literalSign? = some g) {fresh parens : Bool}
    {indent : List Char} (hts : Writes ts (n.pieces indent fresh parens)) :
    ∃ t, ts = [t] ∧ t.sign = g := by
  have hne : g.kind ≠ .comment := by
    intro h
    have hk := Node.kind_of_literalSign? hg
    rw [h] at hk
    simp [Node.literalKinds] at hk
  simp only [Writes, Node.pieces_of_literalSign? hg, signsOf_append, Node.signsOf_leadOf,
    List.nil_append, signsOf_sign _ hne, signsOf_nil] at hts
  obtain ⟨t, ts, rfl, ht, hts⟩ := List.map_eq_cons_iff.1 hts
  obtain rfl := List.map_eq_nil_iff.1 hts
  exact ⟨t, rfl, ht⟩

/-- What is written for an operation: its operands around the operator, in parentheses if there
are any. -/
theorem writes_binary {info : Info} {op : BinaryOp} {left right : Node}
    {parenthesized broken fresh parens : Bool} {indent : List Char}
    (hts : Writes ts ((Node.binary info op left right parenthesized broken).pieces indent fresh
      parens)) :
    ∃ inner tl o tr, o.token.kind = .binary op ∧
      Writes tl (left.pieces inner false (Node.looserLeft op.precedence left)) ∧
      Writes tr (right.pieces inner broken (Node.looserRight op.precedence right)) ∧
      (((parens || parenthesized) = false ∧ ts = tl ++ o :: tr) ∨
        ((parens || parenthesized) = true ∧ ∃ b c, b.token.kind = .lparen ∧
          c.token.kind = .rparen ∧ ts = b :: ((tl ++ o :: tr) ++ [c]))) := by
  let inner := if parens || parenthesized then indent ++ indentStep else indent
  let gl := signsOf (left.pieces inner false (Node.looserLeft op.precedence left))
  let gr := signsOf (right.pieces inner broken (Node.looserRight op.precedence right))
  have hsigns : signsOf ((Node.binary info op left right parenthesized broken).pieces indent fresh
      parens) = (if parens || parenthesized then [⟨.lparen, ['(']⟩] else []) ++
        (gl ++ ⟨.binary op, op.spelling.toList⟩ :: gr) ++
        (if parens || parenthesized then [⟨.rparen, [')']⟩] else []) := by
    cases hp : parens || parenthesized <;> simp [Node.pieces, hp, signsOf, gl, gr, inner]
  rw [Writes, hsigns] at hts
  obtain ⟨ts, cs, rfl, hts, hcs⟩ := List.map_eq_append_iff.1 hts
  obtain ⟨bs, ts, rfl, hbs, hts⟩ := List.map_eq_append_iff.1 hts
  obtain ⟨tl, ts, rfl, htl, hts⟩ := List.map_eq_append_iff.1 hts
  obtain ⟨o, tr, rfl, ho, htr⟩ := List.map_eq_cons_iff.1 hts
  refine ⟨inner, tl, o, tr, Slot.kind_of_sign ho, htl, htr, ?_⟩
  cases hp : parens || parenthesized with
  | false =>
    simp only [hp, Bool.false_eq_true, if_false, List.map_eq_nil_iff] at hbs hcs
    subst hbs hcs
    exact .inl ⟨rfl, by simp⟩
  | true =>
    simp only [hp, if_true] at hbs hcs
    obtain ⟨b, bs, rfl, hb, hbs⟩ := List.map_eq_cons_iff.1 hbs
    obtain ⟨c, cs, rfl, hc, hcs⟩ := List.map_eq_cons_iff.1 hcs
    obtain rfl := List.map_eq_nil_iff.1 hbs
    obtain rfl := List.map_eq_nil_iff.1 hcs
    exact .inr ⟨rfl, b, c, Slot.kind_of_sign hb, Slot.kind_of_sign hc, by simp⟩

/-- What is written for a chain: what it starts from, the operator and the step. -/
theorem writes_chain {info : Info} {op : ChainOp} {left right : Node} {fresh parens : Bool}
    {indent : List Char}
    (hts : Writes ts ((Node.chain info op left right).pieces indent fresh parens)) :
    ∃ tl o tr, ts = tl ++ o :: tr ∧ o.token.kind = .chain op ∧
      Writes tl (left.pieces indent fresh false) ∧
      Writes tr (right.pieces (Node.stepIndent op indent) false false) := by
  have hsigns : signsOf ((Node.chain info op left right).pieces indent fresh parens) =
      signsOf (left.pieces indent fresh false) ++ ⟨.chain op, op.spelling.toList⟩ ::
        signsOf (right.pieces (Node.stepIndent op indent) false false) := by
    simp [Node.pieces, signsOf]
  rw [Writes, hsigns] at hts
  obtain ⟨tl, ts, rfl, htl, hts⟩ := List.map_eq_append_iff.1 hts
  obtain ⟨o, tr, rfl, ho, htr⟩ := List.map_eq_cons_iff.1 hts
  exact ⟨tl, o, tr, rfl, Slot.kind_of_sign ho, htl, htr⟩

end

/-! ## Trees -/

/-- How a tree at the beginning of an expression is written: what its first tokens are decides
which rule of the grammar reads it. -/
inductive Heads (bytes : List UInt8) (named : Bool) (k : Nat) (T : Node → Prop) :
    List Slot → Prop where
  | called {t o : Slot} {ts : List Slot} (ht : t.token.kind = .ident)
      (ho : o.token.kind = .lparen) (h : Opens bytes (.call .global) named k T (t :: o :: ts)) :
      Heads bytes named k T (t :: o :: ts)
  | single {t : Slot} (hnamed : named = true) (ht : t.token.kind = .ident)
      (hn : T (.identifier ⟨t.info bytes, t.token.text⟩)) : Heads bytes named k T [t]
  | joined {t o : Slot} {ts : List Slot} {op : BinaryOp} (ht : t.token.kind = .ident)
      (ho : o.token.kind = .binary op) (h : Opens bytes .operand named k T (t :: o :: ts)) :
      Heads bytes named k T (t :: o :: ts)
  | other {t : Slot} {ts : List Slot} (hi : t.token.kind ≠ .ident)
      (hl : t.token.kind ≠ .lambda) (hb : t.token.kind ≠ .lbracket)
      (h : Opens bytes .operand named k T (t :: ts)) : Heads bytes named k T (t :: ts)

/-- What it means at each place that the grammar reads a tree back from what is written for it. -/
def ReadsBack (bytes : List UInt8) : Place → Node → Prop
  | .operation, n => ∀ indent fresh parens ts, Writes ts (n.pieces indent fresh parens) →
      Opens bytes .operand (n.endsInName parens) (n.strength parens)
        (Echo bytes true parens n ts) ts
  | .head, n => ∀ indent fresh ts, Writes ts (n.pieces indent fresh false) →
      Heads bytes (n.endsInName false) (n.strength false) (Echo bytes false false n ts) ts
  | .value, n => ∀ indent fresh ts, Writes ts (n.pieces indent fresh false) →
      ReadsAs bytes false .expression n ts
  | .base, n => ∀ indent fresh ts, Writes ts (n.pieces indent fresh false) →
      ∀ (c : Slot) (mid : List Slot) (op : ChainOp), c.token.kind = .chain op →
        ∃ q left₀, Echo bytes false false n ts q ∧
          ∀ (m : Node) (after : List Slot) (left : Option Comment),
            Reads bytes (.chain q left₀ m) (c :: mid) after left →
            Reads bytes (.expression m) (ts ++ c :: mid) after left
  | .step op, n => ∀ indent fresh ts, Writes ts (n.pieces indent fresh false) →
      ∀ (t : Slot) (rest : List Slot), (n.endsInName false = true → t.token.kind ≠ .lparen) →
        ∃ q left, Echo bytes false false n ts q ∧
          Reads bytes (.step op q) (ts ++ t :: rest) (t :: rest) left
  | .item, n => ∀ indent fresh ts, Writes ts (n.pieces indent fresh false) →
      ReadsAs bytes false .item n ts
  | .statement, n => ∀ indent fresh ts, Writes ts (n.pieces indent fresh false) →
      ReadsAs bytes false .statement n ts

section

variable {bytes : List UInt8} {ts : List Slot}

theorem opens_name {T : Node → Prop} {t : Slot} {k : Nat} (ht : t.token.kind = .ident)
    (hn : T (.identifier ⟨t.info bytes, t.token.text⟩)) : Opens bytes .operand true k T [t] :=
  .whole fun _ _ hb => ⟨_, none, hn, .name ht (hb.1 rfl)⟩

theorem echo_identifier {ident : Identifier} {t : Slot} {inner parens : Bool}
    (hn : t.token.text = ident.name) :
    Echo bytes inner parens (.identifier ident) [t] (.identifier ⟨t.info bytes, t.token.text⟩) :=
  ⟨t, rfl, by rw [hn]⟩

theorem echo_literal {n q : Node} {g : Sign} {t : Slot} {inner parens : Bool}
    (hg : n.literalSign? = some g) (hq : Copies bytes n g t q) :
    Echo bytes inner parens n [t] q := by
  cases n with
  | number | duration | bool | string | regex | reference | star => exact ⟨t, g, rfl, hg, hq⟩
  | _ => simp [Node.literalSign?] at hg

/-- A call of values. -/
theorem reads_call {kind : CallKind} {info : Info} {name : String} {args : List Node}
    {broken fresh parens : Bool} {indent : List Char}
    (hs : ∀ a ∈ args, Spellable .value a) (ha : ∀ a ∈ args, ReadsBack bytes .value a)
    (hts : Writes ts ((Node.func info kind name args broken).pieces indent fresh parens)) :
    ∃ t o mid, ts = t :: o :: mid ∧ t.token.kind = .ident ∧ o.token.kind = .lparen ∧
      ∀ rest, ∃ q left, Echo bytes false parens (.func info kind name args broken) ts q ∧
        Reads bytes (.call kind q) (ts ++ rest) rest left := by
  obtain ⟨t, o, mid, c, rfl, ht, hn, ho, hc, hmid⟩ := writes_func hts
  refine ⟨t, o, _, rfl, ht, ho, fun rest => ?_⟩
  obtain ⟨qs, hqs, hr⟩ := reads_list false .expressions
    (fun a hm indent fresh => by
      obtain ⟨g, gs, hg, hk⟩ := (hs a hm).signsOf_eq_cons indent fresh false
      exact ⟨g, gs, hg, by simpa using hk⟩)
    (fun a hm => ha a hm) hmid rest hc
  refine ⟨_, c.comment, ?_, by simpa using Reads.function ht ho hr hc⟩
  exact ⟨t, o, mid, c, qs, rfl, hqs, by rw [← hn]; rfl⟩

/-- A call of operations. -/
theorem opens_call {k : Nat} {info : Info} {name : String} {args : List Node}
    {broken fresh parens : Bool} {indent : List Char}
    (hs : ∀ a ∈ args, Spellable .operation a) (ha : ∀ a ∈ args, ReadsBack bytes .operation a)
    (hts : Writes ts ((Node.func info .global name args broken).pieces indent fresh parens)) :
    Opens bytes .operand false k (Echo bytes true parens (.func info .global name args broken) ts)
      ts := by
  obtain ⟨t, o, mid, c, rfl, ht, hn, ho, hc, hmid⟩ := writes_func hts
  refine .whole fun b rest _ => ?_
  obtain ⟨qs, hqs, hr⟩ := reads_list true .operations
    (fun a hm indent fresh => by
      obtain ⟨g, gs, hg, hk⟩ := (hs a hm).signsOf_eq_cons indent fresh false
      exact ⟨g, gs, hg, by simpa using hk⟩)
    (fun a hm indent fresh ts hts t rest ht =>
      (ha a hm indent fresh false ts hts).operation rest ht.call
        (ht.operator ((hs a hm).takesOperator (.inl rfl))))
    hmid (b :: rest) hc
  refine ⟨_, c.comment, ?_, by simpa using Reads.applied ht ho hr hc⟩
  exact ⟨t, o, mid, c, qs, rfl, hqs, by rw [← hn]; rfl⟩

/-- A unary operator and its operand. -/
theorem opens_unary {k : Nat} {info : Info} {op : UnaryOp} {operand : Node}
    {inner fresh parens : Bool}
    {indent : List Char} (h : ReadsBack bytes .operation operand)
    (hts : Writes ts ((Node.unary info op operand).pieces indent fresh parens)) :
    (∃ t mid, ts = t :: mid ∧ t.token.kind = op.tokenKind) ∧
      Opens bytes .operand (operand.endsInName operand.isBinary) k
        (Echo bytes inner parens (.unary info op operand) ts) ts := by
  have hsigns : signsOf ((Node.unary info op operand).pieces indent fresh parens) =
      ⟨op.tokenKind, op.spelling.toList⟩ ::
        signsOf (operand.pieces indent false operand.isBinary) := by
    simp [Node.pieces, signsOf, op.tokenKind_ne_comment]
  rw [Writes, hsigns] at hts
  obtain ⟨t, mid, rfl, ht, hmid⟩ := List.map_eq_cons_iff.1 hts
  have hk : t.token.kind = op.tokenKind := Slot.kind_of_sign ht
  refine ⟨⟨t, mid, rfl, hk⟩, .whole fun b rest hb => ?_⟩
  have hopens := h indent false operand.isBinary mid hmid
  rw [Node.strength_isBinary] at hopens
  obtain ⟨q, left, hq, hr⟩ := hopens.operand rest hb.1
  exact ⟨_, none, ⟨t, mid, q, left, rfl, hq, hr.left_eq_none rfl rfl, rfl⟩, .unary hk hr⟩

theorem opens_literal {n : Node} {g : Sign} (hg : n.literalSign? = some g) (hs : Spells n g)
    {t : Slot} {k : Nat} {inner parens : Bool} (ht : t.sign = g) :
    Opens bytes .operand false k (Echo bytes inner parens n [t]) [t] := by
  obtain ⟨q, hq, hr⟩ := hs.reads bytes t ht
  exact .whole fun b rest _ => ⟨q, none, echo_literal hg hq, hr (b :: rest)⟩

/-- An operation, given its operands. -/
theorem opens_binary {info : Info} {op : BinaryOp} {left right : Node}
    {parenthesized broken inner fresh parens : Bool} {indent : List Char}
    (hi : (inner || (parens || parenthesized)) = true)
    (hl : ReadsBack bytes .operation left) (hr : ReadsBack bytes .operation right)
    (hts : Writes ts ((Node.binary info op left right parenthesized broken).pieces indent fresh
      parens)) :
    Opens bytes .operand
      ((Node.binary info op left right parenthesized broken).endsInName parens)
      ((Node.binary info op left right parenthesized broken).strength parens)
      (Echo bytes inner parens (.binary info op left right parenthesized broken) ts) ts := by
  obtain ⟨indent', tl, o, tr, ho, htl, htr, hform⟩ := writes_binary hts
  have hjoin := (hl _ _ _ tl htl).join (hr _ _ _ tr htr) ho (Node.precedence_le_strength op left)
    (Node.precedence_lt_strength op right)
  rcases hform with ⟨hp, rfl⟩ | ⟨hp, b, c, hb, hc, rfl⟩
  · simp only [Node.strength, Node.endsInName, hp, Bool.false_eq_true, if_false, Bool.not_false,
      Bool.true_and]
    refine hjoin.imp ?_
    rintro _ ⟨ql, qr, hql, hqr, rfl⟩
    refine ⟨tl, o, tr, ql, qr, by simpa [hi] using hql, hqr, ?_⟩
    rw [hp]
    exact ⟨rfl, rfl⟩
  · simp only [Node.endsInName, hp, Bool.not_true, Bool.false_and]
    refine (hjoin.paren hb hc).imp ?_
    rintro _ ⟨_, ⟨ql, qr, hql, hqr, rfl⟩, rfl⟩
    refine ⟨tl, o, tr, ql, qr, by simpa [hi] using hql, hqr, ?_⟩
    rw [hp]
    exact ⟨b, c, rfl, rfl⟩

/-- A chain from its beginning up to where another step or the end follows. -/
theorem reads_chain {info : Info} {op : ChainOp} {left right : Node} {fresh parens : Bool}
    {indent : List Char} (hl : ReadsBack bytes .base left)
    (hr : ReadsBack bytes (.step op) right)
    (hts : Writes ts ((Node.chain info op left right).pieces indent fresh parens)) (c : Slot)
    (mid : List Slot) (hc : right.endsInName false = true → c.token.kind ≠ .lparen) :
    ∃ q left₀, Echo bytes false parens (.chain info op left right) ts q ∧
      ∀ (m : Node) (after : List Slot) (left' : Option Comment),
        Reads bytes (.chain q left₀ m) (c :: mid) after left' →
        Reads bytes (.expression m) (ts ++ c :: mid) after left' := by
  obtain ⟨tl, o, tr, rfl, ho, htl, htr⟩ := writes_chain hts
  obtain ⟨qr, leftr, hqr, hreadr⟩ := hr _ _ tr htr c mid hc
  obtain ⟨ql, leftl, hql, hcont⟩ := hl _ _ tl htl o (tr ++ c :: mid) op ho
  refine ⟨_, leftr, ⟨tl, o, tr, ql, qr, rfl, hql, hqr, rfl⟩, ?_⟩
  intro m after left' hm
  have := hcont m after left' (.chainStep ho hreadr hm)
  simpa using this

/-- What begins an expression is an expression, where it ends. -/
theorem Heads.expression {named : Bool} {k : Nat} {T : Node → Prop} (h : Heads bytes named k T ts)
    {t : Slot} (rest : List Slot) (hcall : named = true → t.token.kind ≠ .lparen)
    (hchain : ∀ op, t.token.kind ≠ .chain op) (hop : t.token.kind.joining? 0 = none) :
    ∃ q left, T q ∧ Reads bytes (.expression q) (ts ++ t :: rest) (t :: rest) left := by
  cases h with
  | @called t₀ o ts ht ho h =>
    obtain ⟨q, f, mid, left₀, left₁, hq, hf, hcont⟩ :=
      h t rest ⟨hcall, TokenKind.joining?_eq_none_of_le (by omega) hop⟩
    have hclimb := hcont 0 (by omega) q _ _ (.stop hop)
    -- A call alone may be followed by the next statement, which ends it as a chain ends.
    cases hclimb with
    | stop =>
      by_cases hc : Parser.continuesChain t.token.kind = true
      · exact ⟨q, _, hq, .callChained ht ho hf hc (.chainEnd hchain)⟩
      · exact ⟨q, _, hq, .callJoined ht ho hf (by simpa using hc) (.stop hop)⟩
    | join hop hp hfirst hright hrest =>
      exact ⟨q, _, hq, .callJoined ht ho hf (by rw [hop]; rfl) (.join hop hp hfirst hright hrest)⟩
  | @single t₀ hnamed ht hn =>
    by_cases hc : Parser.continuesChain t.token.kind = true
    · exact ⟨_, none, hn, .chained ht hc (.chainEnd hchain)⟩
    · have hopens : Opens bytes .operand true 0 T [t₀] := opens_name ht hn
      obtain ⟨q, left, hq, hr⟩ := hopens.operation rest (fun _ => hcall hnamed) hop
      exact ⟨q, left, hq, .named ht (hcall hnamed) (by simpa using hc) hr⟩
  | @joined t₀ o ts op ht ho h =>
    obtain ⟨q, left, hq, hr⟩ := h.operation rest hcall hop
    exact ⟨q, left, hq, .named ht (by simp [ho]) (by simp [ho, Parser.continuesChain]) hr⟩
  | @other t₀ ts hi hl hb h =>
    obtain ⟨q, left, hq, hr⟩ := h.operation rest hcall hop
    exact ⟨q, left, hq, .unnamed hi hl hb hr⟩

theorem Heads.imp {named : Bool} {k : Nat} {T T' : Node → Prop} (h : Heads bytes named k T ts)
    (himp : ∀ q, T q → T' q) : Heads bytes named k T' ts := by
  cases h with
  | called ht ho h => exact .called ht ho (h.imp himp)
  | single hnamed ht hn => exact .single hnamed ht (himp _ hn)
  | joined ht ho h => exact .joined ht ho (h.imp himp)
  | other hi hl hb h => exact .other hi hl hb (h.imp himp)

/-- A bare operation at the beginning of an expression. -/
theorem Heads.join {endsL named : Bool} {k kr : Nat} {op : BinaryOp} {L R : Node → Prop}
    {tl tr : List Slot} {o : Slot} (hl : Heads bytes endsL k L tl)
    (hr : Opens bytes .operand named kr R tr) (ho : o.token.kind = .binary op)
    (hk : op.precedence ≤ k) (hkr : op.precedence < kr) :
    Heads bytes named op.precedence
      (fun q => ∃ ql qr, L ql ∧ R qr ∧ q = .binary (o.info bytes) op ql qr false
        (breaksIn bytes ql.position.offset qr.position.offset))
      (tl ++ o :: tr) := by
  cases hl with
  | called ht ho' h => exact .called ht ho' (h.join hr ho hk hkr)
  | single _ ht hn => exact .joined ht ho (Opens.join (opens_name ht hn) hr ho hk hkr)
  | joined ht ho' h => exact .joined ht ho' (h.join hr ho hk hkr)
  | other hi hl hb h => exact .other hi hl hb (h.join hr ho hk hkr)

/-- A string or a star is read by one rule as an operand and by one as an item. -/
theorem Reads.item_of_operand {n : Node} {t : Slot} {mid after : List Slot} {left : Option Comment}
    (h : Reads bytes (.operand n) (t :: mid) after left)
    (hk : t.token.kind = .string ∨ t.token.kind = .star) :
    Reads bytes (.item n) (t :: mid) mid none := by
  cases h with
  | string ht hn => exact .itemString ht hn
  | star ht => exact .itemStar ht
  | @unary _ _ _ op _ _ ht _ => cases op <;> simp [ht, UnaryOp.tokenKind] at hk
  | _ => simp_all

/-! ### One kind of tree after the other -/

/-- A literal that begins an expression opens it as an operand. -/
theorem heads_literal {n : Node} {g : Sign} (hg : n.literalSign? = some g) (hs : Spells n g) :
    ReadsBack bytes .head n := by
  intro indent fresh ts hts
  obtain ⟨t, rfl, ht⟩ := writes_literal hg hts
  have hk := Node.kind_of_literalSign? hg
  rw [← ht] at hk
  rw [(Node.takesOperator_of_literalSign? hg).2]
  refine .other ?_ ?_ ?_ (opens_literal hg hs ht) <;>
  · intro h
    simp [Slot.sign, h, Node.literalKinds] at hk

/-- A left operand that is weaker than its operator is an operation in parentheses. -/
theorem heads_looserLeft {op : BinaryOp} {left : Node} {indent : List Char}
    (h : ReadsBack bytes (if Node.looserLeft op.precedence left then .operation else .head) left)
    (hts : Writes ts (left.pieces indent false (Node.looserLeft op.precedence left))) :
    Heads bytes (left.endsInName (Node.looserLeft op.precedence left))
      (left.strength (Node.looserLeft op.precedence left))
      (Echo bytes (Node.looserLeft op.precedence left) (Node.looserLeft op.precedence left) left ts)
      ts := by
  cases hloose : Node.looserLeft op.precedence left with
  | false =>
    simp only [hloose, Bool.false_eq_true, if_false] at h hts
    exact h _ _ ts hts
  | true =>
    simp only [hloose, if_true] at h hts
    have hopens := h _ _ _ ts hts
    cases left with
    | binary =>
      obtain ⟨_, _, _, _, -, -, -, hform⟩ := writes_binary hts
      rcases hform with ⟨hp, -⟩ | ⟨-, b, c, hb, -, rfl⟩
      · simp at hp
      · exact .other (by simp [hb]) (by simp [hb]) (by simp [hb]) hopens
    | _ => simp [Node.looserLeft] at hloose

/-- An operation in parentheses begins an expression with its parenthesis. -/
theorem heads_parens {info : Info} {op : BinaryOp} {left right : Node} {broken : Bool}
    (hl : ReadsBack bytes .operation left) (hr : ReadsBack bytes .operation right) :
    ReadsBack bytes .head (.binary info op left right true broken) := by
  intro indent fresh ts hts
  have hinner : (false || (false || true)) = true := rfl
  have hopens := opens_binary hinner hl hr hts
  obtain ⟨inner, tl, o, tr, ho, htl, htr, hform⟩ := writes_binary hts
  rcases hform with ⟨hp, -⟩ | ⟨-, b, c, hb, hc, rfl⟩
  · simp at hp
  · exact .other (by simp [hb]) (by simp [hb]) (by simp [hb]) hopens

/-- A bare operation begins an expression with its left operand. -/
theorem heads_binary {info : Info} {op : BinaryOp} {left right : Node} {broken : Bool}
    (hl : ReadsBack bytes (if Node.looserLeft op.precedence left then .operation else .head) left)
    (hr : ReadsBack bytes .operation right) :
    ReadsBack bytes .head (.binary info op left right false broken) := by
  intro indent fresh ts hts
  obtain ⟨inner, tl, o, tr, ho, htl, htr, hform⟩ := writes_binary hts
  rcases hform with ⟨-, rfl⟩ | ⟨hp, -⟩
  · refine ((heads_looserLeft hl htl).join (hr _ _ _ tr htr) ho
      (Node.precedence_le_strength op left) (Node.precedence_lt_strength op right)).imp ?_
    rintro _ ⟨ql, qr, hql, hqr, rfl⟩
    exact ⟨tl, o, tr, ql, qr, hql, hqr, rfl, rfl⟩
  · simp at hp

theorem readsBack_lambda {info : Info} {body : Node} (h : ReadsBack bytes .operation body) :
    ReadsBack bytes .value (.lambda info body) := by
  intro indent fresh ts hts t rest hend
  simp only [Writes, Node.pieces, signsOf_append, Node.signsOf_leadOf, List.nil_append, signsOf,
    reduceCtorEq, if_false] at hts
  obtain ⟨l, mid, rfl, hl, hmid⟩ := List.map_eq_cons_iff.1 hts
  obtain ⟨q, left, hq, hr⟩ := (h _ _ _ mid hmid).operation rest hend.call (hend.operator rfl)
  exact ⟨_, left, ⟨l, mid, q, rfl, hq, rfl⟩, .lambda (Slot.kind_of_sign hl) hr⟩

theorem readsBack_list {info : Info} {items : List Node} (hi : ∀ a ∈ items, Spellable .item a)
    (h : ∀ a ∈ items, ReadsBack bytes .item a) : ReadsBack bytes .value (.list info items) := by
  intro indent fresh ts hts t rest hend
  have hsigns : signsOf ((Node.list info items).pieces indent fresh false) =
      ⟨.lbracket, ['[']⟩ ::
        (signsOf (Node.argPieces indent false true items) ++ [⟨.rbracket, [']']⟩]) := by
    simp [Node.pieces, signsOf, Node.signsOf_itemPieces]
  rw [Writes, hsigns] at hts
  obtain ⟨b, ts, rfl, hb, hts⟩ := List.map_eq_cons_iff.1 hts
  obtain ⟨mid, cs, rfl, hmid, hcs⟩ := List.map_eq_append_iff.1 hts
  obtain ⟨c, cs, rfl, hc, hcs⟩ := List.map_eq_cons_iff.1 hcs
  obtain rfl := List.map_eq_nil_iff.1 hcs
  have hclose : c.token.kind = .rbracket := Slot.kind_of_sign hc
  obtain ⟨qs, hqs, hr⟩ := reads_list false .items
    (fun a hm indent fresh => by
      obtain ⟨g, gs, hg, hk⟩ := (hi a hm).signsOf_eq_cons indent fresh false
      exact ⟨g, gs, hg, by simpa using hk⟩)
    h hmid (t :: rest) hclose
  refine ⟨_, c.comment, ?_, by simpa using Reads.bracket (Slot.kind_of_sign hb) hr hclose⟩
  exact ⟨b, mid, c, qs, rfl, hqs, rfl⟩

theorem readsBack_declaration {info : Info} {name : Identifier} {value : Node}
    (h : ReadsBack bytes .value value) :
    ReadsBack bytes .statement (.declaration info name value) := by
  intro indent fresh ts hts t rest hend
  have hsigns : signsOf ((Node.declaration info name value).pieces indent fresh false) =
      ⟨.var, "var".toList⟩ :: ⟨.ident, name.name.toList⟩ :: ⟨.assign, ['=']⟩ ::
        signsOf (value.pieces indent false false) := by
    simp [Node.pieces, signsOf]
  rw [Writes, hsigns] at hts
  obtain ⟨v, ts, rfl, hv, hts⟩ := List.map_eq_cons_iff.1 hts
  obtain ⟨i, ts, rfl, hi, hts⟩ := List.map_eq_cons_iff.1 hts
  obtain ⟨e, ts, rfl, he, hts⟩ := List.map_eq_cons_iff.1 hts
  obtain ⟨q, left, hq, hr⟩ := h indent false ts hts t rest ⟨hend.call, hend.chain, hend.operator⟩
  have htext : i.token.text = name.name := by simpa using Slot.text_of_sign hi
  exact ⟨_, left, ⟨v, i, e, ts, q, rfl, hq, by rw [← htext]⟩,
    .declare (Slot.kind_of_sign hv) (Slot.kind_of_sign hi) (Slot.kind_of_sign he) hr⟩

theorem readsBack_typeDeclaration {info : Info} {name type : Identifier} :
    ReadsBack bytes .statement (.typeDeclaration info name type) := by
  intro indent fresh ts hts t rest hend
  have hsigns : signsOf ((Node.typeDeclaration info name type).pieces indent fresh false) =
      [⟨.var, "var".toList⟩, ⟨.ident, name.name.toList⟩, ⟨.ident, type.name.toList⟩] := by
    simp [Node.pieces, signsOf]
  rw [Writes, hsigns] at hts
  obtain ⟨v, ts, rfl, hv, hts⟩ := List.map_eq_cons_iff.1 hts
  obtain ⟨i, ts, rfl, hi, hts⟩ := List.map_eq_cons_iff.1 hts
  obtain ⟨y, ts, rfl, hy, hts⟩ := List.map_eq_cons_iff.1 hts
  obtain rfl := List.map_eq_nil_iff.1 hts
  have hname : i.token.text = name.name := by simpa using Slot.text_of_sign hi
  have htype : y.token.text = type.name := by simpa using Slot.text_of_sign hy
  exact ⟨_, none, ⟨v, i, y, rfl, by rw [← hname, ← htype]⟩,
    .declareType (Slot.kind_of_sign hv) (Slot.kind_of_sign hi) (Slot.kind_of_sign hy)⟩

/-- An expression is a statement, because it does not begin as a declaration does. -/
theorem readsBack_express {n : Node} (hn : Spellable .value n) (h : ReadsBack bytes .value n) :
    ReadsBack bytes .statement n := by
  intro indent fresh ts hts t rest hend
  obtain ⟨g, gs, hg, hk⟩ := hn.signsOf_eq_cons indent fresh false
  have hread := h indent fresh ts hts
  obtain ⟨b, tb, rfl, hb, -⟩ := List.map_eq_cons_iff.1 (hts.trans hg)
  obtain ⟨q, left, hq, hr⟩ := hread t rest hend
  refine ⟨q, left, hq, .express ?_ hr⟩
  intro hvar
  have hopens : b.sign.kind.opens = true := by rw [hb]; simpa using hk
  rw [show b.sign.kind = .var from hvar] at hopens
  cases hopens

/-- The grammar reads a spellable tree back. -/
theorem Spellable.readsBack {place : Place} {n : Node} (h : Spellable place n)
    (bytes : List UInt8) : ReadsBack bytes place n := by
  induction h with
  | literal hg hs hc hr =>
    intro indent fresh parens ts hts
    obtain ⟨t, rfl, ht⟩ := writes_literal hg hts
    rw [(Node.takesOperator_of_literalSign? hg).2]
    exact opens_literal hg hs ht
  | name hi =>
    intro indent fresh parens ts hts
    obtain ⟨t, rfl, ht, hn⟩ := writes_identifier hts
    exact opens_name ht (echo_identifier hn)
  | call hc hn ha ih =>
    intro indent fresh parens ts hts
    exact opens_call ha ih hts
  | unary hc ho ih =>
    intro indent fresh parens ts hts
    exact (opens_unary ih hts).2
  | binary hc hx hl hr ihl ihr =>
    intro indent fresh parens ts hts
    exact opens_binary rfl ihl ihr hts
  | headLiteral hg hs hc hr => exact heads_literal hg hs
  | headName hi =>
    intro indent fresh ts hts
    obtain ⟨t, rfl, ht, hn⟩ := writes_identifier hts
    exact .single rfl ht (echo_identifier hn)
  | headCall hc hn ha ih =>
    intro indent fresh ts hts
    obtain ⟨t, o, mid, rfl, ht, ho, hread⟩ := reads_call ha ih hts
    refine .called ht ho (.whole fun b rest _ => ?_)
    exact hread (b :: rest)
  | @headUnary info op operand hc ho ih =>
    intro indent fresh ts hts
    obtain ⟨⟨t, mid, rfl, ht⟩, hopens⟩ := opens_unary (k := 6) ih hts
    refine .other ?_ ?_ ?_ hopens <;>
    · rw [ht]
      cases op <;> simp [UnaryOp.tokenKind]
  | headParens hc hl hr ihl ihr => exact heads_parens ihl ihr
  | headBinary hc hx hl hr ihl ihr => exact heads_binary ihl ihr
  | operation h ih =>
    intro indent fresh ts hts t rest hend
    exact (ih indent fresh ts hts).expression rest hend.call hend.chain
      (hend.operator (h.takesOperator (.inr rfl)))
  | lambda hc hb ih => exact readsBack_lambda ih
  | list hc hi ih => exact readsBack_list hi ih
  | chain hc hl hr ihl ihr =>
    intro indent fresh ts hts t rest hend
    obtain ⟨q, left₀, hq, hcont⟩ := reads_chain ihl ihr hts t rest hend.call
    exact ⟨q, left₀, hq, hcont q _ _ (.chainEnd hend.chain)⟩
  | baseName hi =>
    intro indent fresh ts hts c mid op hc
    obtain ⟨t, rfl, ht, hn⟩ := writes_identifier hts
    refine ⟨.identifier ⟨t.info bytes, t.token.text⟩, none, echo_identifier hn, ?_⟩
    intro m after left hm
    exact .chained ht (by rw [hc]; rfl) hm
  | baseCall hc hn ha ih =>
    intro indent fresh ts hts c mid op hc
    obtain ⟨t, o, ts, rfl, ht, ho, hread⟩ := reads_call ha ih hts
    obtain ⟨q, left, hq, hr⟩ := hread (c :: mid)
    exact ⟨q, left, hq, fun m after left' hm => .callChained ht ho hr (by rw [hc]; rfl) hm⟩
  | baseChain hc hl hr ihl ihr =>
    intro indent fresh ts hts c mid op hc
    exact reads_chain ihl ihr hts c mid (fun _ => by simp [hc])
  | stepName ho hi =>
    intro indent fresh ts hts t rest ht
    obtain ⟨i, rfl, hi, hn⟩ := writes_identifier hts
    exact ⟨_, none, echo_identifier hn, .stepName ho hi (ht rfl)⟩
  | stepCall hc hn ha ih =>
    intro indent fresh ts hts t rest ht
    obtain ⟨i, o, mid, rfl, hi, ho, hread⟩ := reads_call ha ih hts
    obtain ⟨q, left, hq, hr⟩ := hread (t :: rest)
    exact ⟨q, left, hq, .stepCall (.inr ho) hr⟩
  | itemName hi =>
    intro indent fresh ts hts t rest hend
    obtain ⟨i, rfl, hi, hn⟩ := writes_identifier hts
    exact ⟨_, none, echo_identifier hn, .itemName hi⟩
  | itemLiteral hg hs hk hc =>
    intro indent fresh ts hts t rest hend
    obtain ⟨i, rfl, hi⟩ := writes_literal hg hts
    obtain ⟨q, hq, hr⟩ := hs.reads bytes i hi
    have hkind : i.token.kind = .string ∨ i.token.kind = .star := by rw [← hi] at hk; exact hk
    exact ⟨q, none, echo_literal hg hq, (hr (t :: rest)).item_of_operand hkind⟩
  | declaration hc hn hv ih => exact readsBack_declaration ih
  | typeDeclaration hc hn ht => exact readsBack_typeDeclaration
  | express h ih => exact readsBack_express h ih

end

end PipelineScript

import PipelineScript.Proofs.Literals
import PipelineScript.Proofs.Statements

/-!
Trees that are built are read back from their canonical text.

`Built` describes the trees that a program can put together without a script: any nesting of
expressions, with lambdas, lists and chains as values, whatever the flags for parentheses and line
breaks say. Such a tree is spellable, so what is left to show is that the scanner arrives at every
sign in the right mode. Behind a regex it expects an operand, so a match with a regex must not be
followed by a comparison; the words of logic are read in every mode, and everything stronger than a
match puts it in parentheses.

The main statements are `parse_render_built` for programs and `parseLambda_render_built` for
expressions.
-/
namespace PipelineScript

section

variable {engine : PatternEngine}

/-- What a tree is built as. -/
inductive Role where
  | expression
  /-- An argument of a call inside an expression: an expression or a star. -/
  | argument
  | value
  /-- What a chain starts from, or a whole chain. -/
  | start
  | step (op : ChainOp)
  | item
  | statement
deriving DecidableEq

/-- Whether a node is a match with a regex that is not in parentheses. -/
def Node.isBareMatch : Node → Bool
  | .binary _ _ _ (.regex ..) parenthesized _ => !parenthesized
  | _ => false

/-- A name that is read as a name, without a comment. -/
structure Identifier.Built (ident : Identifier) : Prop where
  name : Sign.isName ident.name.toList = true
  comment : ident.info.comment = none

/-- Trees that are built. They have no comments; where they stand and how they are laid out does
not matter. -/
inductive Built : Role → Node → Prop where
  | int {info : Info} {value : Int64} {base : UInt32} (hc : info.comment = none)
      (hv : 0 ≤ value.toInt) (hb : base = Node.octalBase ∨ base = Node.decimalBase) :
      Built .expression (.number info (.int value base))
  | bool {info : Info} {value : Bool} (hc : info.comment = none) :
      Built .expression (.bool info value)
  | string {info : Info} {literal : String} (hc : info.comment = none)
      (hl : literal.toList.getLast? ≠ some '\\') : Built .expression (.string info literal false)
  | reference {info : Info} {name : String} (hc : info.comment = none)
      (hn : name.toList.getLast? ≠ some '\\') : Built .expression (.reference info name)
  | duration {info : Info} {span : Duration} (hc : info.comment = none)
      (hd : span.nanos % Duration.micro = 0) (hl : span.nanos ≤ Duration.limit) :
      Built .expression (.duration info span "")
  | name {ident : Identifier} (hi : ident.Built) : Built .expression (.identifier ident)
  | call {info : Info} {name : String} {args : List Node} {broken : Bool}
      (hc : info.comment = none) (hn : Sign.isName name.toList = true)
      (ha : ∀ a ∈ args, Built .argument a) :
      Built .expression (.func info .global name args broken)
  | unary {info : Info} {op : UnaryOp} {operand : Node} (hc : info.comment = none)
      (ho : Built .expression operand) : Built .expression (.unary info op operand)
  | binary {info : Info} {op : BinaryOp} {left right : Node} {parenthesized broken : Bool}
      (hc : info.comment = none)
      (hm : op.precedence = BinaryOp.equal.precedence → left.isBareMatch = false)
      (hl : Built .expression left) (hr : Built .expression right) :
      Built .expression (.binary info op left right parenthesized broken)
  | matching {info : Info} {op : BinaryOp} {left right : Node} {pattern : String}
      {parenthesized broken : Bool} (hc : info.comment = none)
      (hop : op = .regexEqual ∨ op = .regexNotEqual) (hm : left.isBareMatch = false)
      (hl : Built .expression left) (hp : pattern.toList.getLast? ≠ some '\\')
      (hr : Node.ofPattern pattern = .ok right) :
      Built .expression (.binary info op left right parenthesized broken)
  | argument {n : Node} (h : Built .expression n) : Built .argument n
  | star {info : Info} (hc : info.comment = none) : Built .argument (.star info)
  | value {n : Node} (h : Built .argument n) : Built .value n
  | lambda {info : Info} {body : Node} (hc : info.comment = none) (hb : Built .expression body) :
      Built .value (.lambda info body)
  | list {info : Info} {items : List Node} (hc : info.comment = none)
      (hi : ∀ i ∈ items, Built .item i) : Built .value (.list info items)
  | chainValue {n : Node} (h : Built .start n) : Built .value n
  | startName {ident : Identifier} (hi : ident.Built) : Built .start (.identifier ident)
  | startCall {info : Info} {name : String} {args : List Node} {broken : Bool}
      (hc : info.comment = none) (hn : Sign.isName name.toList = true)
      (ha : ∀ a ∈ args, Built .value a) : Built .start (.func info .global name args broken)
  | chain {info : Info} {op : ChainOp} {left right : Node} (hc : info.comment = none)
      (hl : Built .start left) (hr : Built (.step op) right) :
      Built .start (.chain info op left right)
  | stepName {op : ChainOp} {ident : Identifier} (ho : op ≠ .pipe) (hi : ident.Built) :
      Built (.step op) (.identifier ident)
  | stepCall {op : ChainOp} {info : Info} {name : String} {args : List Node} {broken : Bool}
      (hc : info.comment = none) (hn : Sign.isName name.toList = true)
      (ha : ∀ a ∈ args, Built .value a) :
      Built (.step op) (.func info (CallKind.ofChain op) name args broken)
  | itemName {ident : Identifier} (hi : ident.Built) : Built .item (.identifier ident)
  | itemString {info : Info} {literal : String} (hc : info.comment = none)
      (hl : literal.toList.getLast? ≠ some '\\') : Built .item (.string info literal false)
  | itemStar {info : Info} (hc : info.comment = none) : Built .item (.star info)
  | declaration {info : Info} {name : Identifier} {value : Node} (hc : info.comment = none)
      (hn : name.Built) (hv : Built .value value) :
      Built .statement (.declaration info name value)
  | typeDeclaration {info : Info} {name type : Identifier} (hc : info.comment = none)
      (hn : name.Built) (ht : type.Built) : Built .statement (.typeDeclaration info name type)
  | run {n : Node} (h : Built .start n) : Built .statement n

/-! ## Built trees are spellable -/

/-- The place of the grammar for a role. -/
def Role.place : Role → Place
  | .expression => .operation
  | .argument => .operation
  | .value => .value
  | .start => .base
  | .step op => .step op
  | .item => .item
  | .statement => .statement

theorem Identifier.Built.spellable {ident : Identifier} (h : ident.Built) : ident.Spellable :=
  ⟨h.name, remarked_of_none h.comment⟩

theorem Built.spellable {role : Role} {n : Node} (h : Built role n) : Spellable role.place n := by
  induction h with
  | int hc hv hb => exact .literal rfl (spells_int hv hb) (remarked_of_none hc) fun _ => hc
  | bool hc => exact .literal rfl spells_bool (remarked_of_none hc) fun _ => hc
  | string hc hl => exact .literal rfl (spells_string hl) (remarked_of_none hc) fun _ => hc
  | reference hc hn => exact .literal rfl (spells_reference hn) (remarked_of_none hc) fun _ => hc
  | duration hc hd hl => exact .literal rfl (spells_span hd hl) (remarked_of_none hc) fun _ => hc
  | name hi => exact .name hi.spellable
  | call hc hn _ ih => exact .call (remarked_of_none hc) hn ih
  | unary hc _ ih => exact .unary (remarked_of_none hc) ih
  | binary hc _ _ _ ihl ihr => exact .binary (remarked_of_none hc) (by simp [hc]) ihl ihr
  | matching hc _ _ _ hp hr ihl =>
    obtain ⟨p, literal, rfl, hs⟩ := spells_pattern hr hp
    exact .binary (remarked_of_none hc) (by simp [hc]) ihl
      (.literal rfl hs (remarked_of_none rfl) fun _ => rfl)
  | argument _ ih => exact ih
  | star hc => exact .literal rfl spells_star (remarked_of_none hc) fun _ => hc
  | value _ ih => exact .operation ih.head
  | lambda hc _ ih => exact .lambda (remarked_of_none hc) ih
  | list hc _ ih => exact .list (remarked_of_none hc) ih
  | chainValue _ ih => exact ih.value_of_base
  | startName hi => exact .baseName hi.spellable
  | startCall hc hn _ ih => exact .baseCall (remarked_of_none hc) hn ih
  | chain hc _ _ ihl ihr => exact .baseChain (remarked_of_none hc) ihl ihr
  | stepName ho hi => exact .stepName ho hi.spellable
  | stepCall hc hn _ ih => exact .stepCall (remarked_of_none hc) hn ih
  | itemName hi => exact .itemName hi.spellable
  | itemString hc hl => exact .itemLiteral rfl (spells_string hl) (.inl rfl) (remarked_of_none hc)
  | itemStar hc => exact .itemLiteral rfl spells_star (.inr rfl) (remarked_of_none hc)
  | declaration hc hn _ ih => exact .declaration (remarked_of_none hc) hn.spellable ih
  | typeDeclaration hc hn ht =>
    exact .typeDeclaration (remarked_of_none hc) hn.spellable ht.spellable
  | run _ ih => exact .express ih.value_of_base

/-! ## What stands behind a regex -/

/-- Whether the last sign of a node is a regex, when the node is written with the parentheses that
are asked for. -/
def Node.trailsRegex (parens : Bool) : Node → Bool
  | .regex .. => true
  | .unary _ _ operand => trailsRegex operand.isBinary operand
  | .binary _ op _ right parenthesized _ =>
    !(parens || parenthesized) && trailsRegex (looserRight op.precedence right) right
  | _ => false

/-- An expression ends in a regex only if it is a match or an operation of logic, without
parentheses. -/
theorem Built.of_trailsRegex {n : Node} (h : Built .expression n) {parens : Bool}
    (ht : n.trailsRegex parens = true) :
    parens = false ∧ ∃ info op left right broken, n = .binary info op left right false broken ∧
      (op.precedence < BinaryOp.equal.precedence ∨
        op.precedence = BinaryOp.equal.precedence ∧ n.isBareMatch = true) := by
  generalize hrole : Role.expression = role at h
  induction h generalizing parens with
  | unary _ _ ih =>
    obtain ⟨hp, info, op, left, right, broken, rfl, -⟩ := ih ht hrole
    simp [Node.isBinary] at hp
  | @binary info op left right parenthesized broken _ _ _ _ _ ihr =>
    simp only [Node.trailsRegex, Bool.and_eq_true, Bool.not_eq_true', Bool.or_eq_false_iff] at ht
    obtain ⟨⟨hp, rfl⟩, hright⟩ := ht
    obtain ⟨hloose, info', op', left', right', broken', rfl, hstrength⟩ := ihr hright hrole
    refine ⟨hp, info, op, left, _, broken, rfl, .inl ?_⟩
    -- The right operand is written bare, so its operator is stronger.
    simp only [Node.looserRight, decide_eq_false_iff_not] at hloose
    omega
  | @matching info op left right pattern parenthesized broken _ hop _ _ hp hr _ =>
    simp only [Node.trailsRegex, Bool.and_eq_true, Bool.not_eq_true', Bool.or_eq_false_iff] at ht
    obtain ⟨⟨hparens, rfl⟩, -⟩ := ht
    obtain ⟨p, literal, rfl, -⟩ := spells_pattern hr hp
    refine ⟨hparens, info, op, left, _, broken, rfl, .inr ⟨?_, rfl⟩⟩
    rcases hop with rfl | rfl <;> rfl
  | _ => simp [Node.trailsRegex] at ht hrole

/-- Behind a bare left operand that ends in a regex only a word of logic can stand. -/
theorem Built.isLogical_of_trailsRegex {op : BinaryOp} {left : Node}
    (h : Built .expression left)
    (hm : op.precedence = BinaryOp.equal.precedence → left.isBareMatch = false)
    (ht : left.trailsRegex (Node.looserLeft op.precedence left) = true) : op.isLogical = true := by
  obtain ⟨hloose, info, op', l, r, broken, rfl, hstrength⟩ := h.of_trailsRegex ht
  simp only [Node.looserLeft, decide_eq_false_iff_not] at hloose
  have hlt : op.precedence < BinaryOp.equal.precedence := by
    rcases hstrength with hlt | ⟨heq, hbare⟩
    · omega
    · refine Nat.lt_of_le_of_ne (by omega) fun hequal => ?_
      rw [hm hequal] at hbare
      cases hbare
  cases op <;> first | rfl | exact absurd hlt (by decide)

/-! ## The scanner arrives in the right mode -/

theorem placed_sign {mode : ScanMode} {g : Sign} {ps : List Piece} (hg : g.suits mode = true)
    (hps : Placed g.kind.modeAfter ps = true) : Placed mode (.sign g :: ps) = true := by
  rw [Placed, hg, hps]
  rfl

theorem placed_lead {c : Option Comment} (hc : c = none) {indent tail : List Char} {fresh : Bool}
    {mode : ScanMode} {ps : List Piece} (hps : Placed mode ps = true) :
    Placed mode (lead c indent tail fresh ++ ps) = true := by
  subst hc
  exact hps

/-- What it means for each role that the scanner arrives at every sign in a mode that suits it.
Expressions, chains and statements can be arrived at in any mode. Everything but a regex and a
star leaves the scanner expecting an operator. -/
def Arranged : Role → Node → Prop
  | .expression, n => ∀ indent fresh parens mode ps, Placed .operator ps = true →
      (n.trailsRegex parens = true → Placed .operand ps = true) →
      Placed mode (n.pieces indent fresh parens ++ ps) = true
  | .start, n | .step _, n => ∀ indent fresh parens mode ps, Placed .operator ps = true →
      Placed mode (n.pieces indent fresh parens ++ ps) = true
  | .argument, n | .value, n | .item, n => ∀ indent fresh mode ps, mode ≠ .operator →
      (∀ m, Placed m ps = true) → Placed mode (n.pieces indent fresh false ++ ps) = true
  | .statement, n => ∀ indent fresh mode ps, (∀ m, Placed m ps = true) →
      Placed mode (n.pieces indent fresh false ++ ps) = true

theorem placed_args {args : List Node}
    (h : ∀ a ∈ args, ∀ indent fresh mode ps, mode ≠ .operator → (∀ m, Placed m ps = true) →
      Placed mode (a.pieces indent fresh false ++ ps) = true)
    (indent : List Char) (broken : Bool) {ps : List Piece} (hps : ∀ m, Placed m ps = true) :
    Placed .operand (Node.argPieces indent broken true args ++ ps) = true ∧
      ∀ m, Placed m (Node.argPieces indent broken false args ++ ps) = true := by
  induction args with
  | nil => exact ⟨hps _, hps⟩
  | cons a as ih =>
    obtain ⟨-, ih⟩ := ih fun b hb => h b (by simp [hb])
    have ha := h a (by simp) indent broken .operand _ (by decide) ih
    refine ⟨?_, fun m => ?_⟩
    · simpa [Node.argPieces, Placed] using ha
    · simp only [Node.argPieces, Bool.false_eq_true, if_false, List.cons_append, List.nil_append,
        List.append_assoc]
      exact placed_sign rfl ha

theorem placed_items {items : List Node}
    (h : ∀ a ∈ items, ∀ indent fresh mode ps, mode ≠ .operator → (∀ m, Placed m ps = true) →
      Placed mode (a.pieces indent fresh false ++ ps) = true)
    (indent : List Char) {ps : List Piece} (hps : ∀ m, Placed m ps = true) :
    Placed .operand (Node.itemPieces indent items ++ ps) = true := by
  induction items with
  | nil => exact hps _
  | cons a as ih =>
    have ih := ih fun b hb => h b (by simp [hb])
    cases as with
    | nil => exact h a (by simp) indent false .operand ps (by decide) hps
    | cons b bs =>
      rw [Node.itemPieces]
      · rw [List.append_assoc]
        exact h a (by simp) indent false .operand _ (by decide) fun m => placed_sign rfl ih
      · simp

theorem placed_call {info : Info} {kind : CallKind} {name : String} {args : List Node}
    {broken : Bool} (hc : info.comment = none)
    (h : ∀ a ∈ args, ∀ indent fresh mode ps, mode ≠ .operator → (∀ m, Placed m ps = true) →
      Placed mode (a.pieces indent fresh false ++ ps) = true)
    (indent : List Char) (fresh parens : Bool) (mode : ScanMode) {ps : List Piece}
    (hps : Placed .operator ps = true) :
    Placed mode ((Node.func info kind name args broken).pieces indent fresh parens ++ ps) =
      true := by
  simp only [Node.pieces, List.append_assoc, List.cons_append, List.nil_append]
  refine placed_lead hc (placed_sign rfl (placed_sign rfl ?_))
  refine (placed_args h _ _ fun m => ?_).1
  rw [Placed]
  exact placed_sign rfl hps

/-- An operation: the operator suits what the left operand leaves behind. -/
theorem placed_binary {info : Info} {op : BinaryOp} {left right : Node}
    {parenthesized broken : Bool} (hc : info.comment = none)
    (hm : op.precedence = BinaryOp.equal.precedence → left.isBareMatch = false)
    (hl : Built .expression left) (ihl : Arranged .expression left)
    (hr : ∀ indent ps, Placed .operator ps = true →
      (right.trailsRegex (Node.looserRight op.precedence right) = true →
        Placed .operand ps = true) →
      Placed (TokenKind.binary op).modeAfter
        (right.pieces indent broken (Node.looserRight op.precedence right) ++ ps) = true) :
    Arranged .expression (.binary info op left right parenthesized broken) := by
  intro indent fresh parens mode ps hps hregex
  have hcore : ∀ inner mode qs, Placed .operator qs = true →
      (right.trailsRegex (Node.looserRight op.precedence right) = true →
        Placed .operand qs = true) →
      Placed mode (left.pieces inner false (Node.looserLeft op.precedence left) ++
        .blank [' '] :: .sign ⟨.binary op, op.spelling.toList⟩ ::
        .blank [if broken then '\n' else ' '] ::
        (right.pieces inner broken (Node.looserRight op.precedence right) ++ qs)) = true := by
    intro inner mode qs hqs hqs'
    have hright := hr inner qs hqs hqs'
    refine ihl inner false _ mode _ ?_ fun ht => ?_
    · exact placed_sign (by simp [Sign.suits]) hright
    · have hlogical := hl.isLogical_of_trailsRegex hm ht
      exact placed_sign (by simp [Sign.suits, hlogical]) hright
  simp only [Node.pieces, List.append_assoc, List.cons_append]
  refine placed_lead hc ?_
  cases hp : parens || parenthesized with
  | true =>
    exact placed_sign rfl (hcore _ _ _ (placed_sign rfl hps) fun _ => placed_sign rfl hps)
  | false =>
    refine hcore _ _ _ hps fun ht => hregex ?_
    simp [Node.trailsRegex, hp, ht]

/-- The scanner arrives at every sign of a built tree in a mode that suits it. -/
theorem Built.arranged {role : Role} {n : Node} (h : Built role n) : Arranged role n := by
  induction h with
  | int hc | bool hc | string hc | reference hc | duration hc =>
    intro indent fresh parens mode ps hps _
    simp only [Node.pieces, List.append_assoc, List.cons_append, List.nil_append]
    exact placed_lead hc (placed_sign rfl hps)
  | name hi =>
    intro indent fresh parens mode ps hps _
    simp only [Node.pieces, Identifier.pieces, List.append_assoc, List.cons_append, List.nil_append]
    exact placed_lead hi.comment (placed_sign rfl hps)
  | call hc _ _ ih =>
    intro indent fresh parens mode ps hps _
    exact placed_call hc ih indent fresh parens mode hps
  | @unary info op operand hc ho ih =>
    intro indent fresh parens mode ps hps hregex
    simp only [Node.pieces, List.append_assoc, List.cons_append]
    refine placed_lead hc (placed_sign (by cases op <;> rfl) ?_)
    exact ih indent false operand.isBinary _ ps hps hregex
  | binary hc hm hl hr ihl ihr =>
    exact placed_binary hc hm hl ihl fun indent ps hps hregex => ihr indent _ _ _ ps hps hregex
  | @matching info op left right pattern parenthesized broken hc hop hm hl hp hr ihl =>
    obtain ⟨p, literal, rfl, -⟩ := spells_pattern hr hp
    refine placed_binary hc (fun _ => hm) hl ihl fun indent ps _ hregex => ?_
    simp only [Node.pieces, List.append_assoc, List.cons_append, List.nil_append]
    refine placed_lead rfl (placed_sign ?_ (hregex rfl))
    rcases hop with rfl | rfl <;> rfl
  | argument _ ih =>
    intro indent fresh mode ps _ hps
    exact ih indent fresh false mode ps (hps _) fun _ => hps _
  | star hc | itemStar hc =>
    intro indent fresh mode ps hmode hps
    simp only [Node.pieces, List.append_assoc, List.cons_append, List.nil_append]
    exact placed_lead hc (placed_sign (by simpa [Sign.suits] using hmode) (hps _))
  | value _ ih => exact ih
  | lambda hc _ ih =>
    intro indent fresh mode ps _ hps
    simp only [Node.pieces, List.append_assoc, List.cons_append]
    refine placed_lead hc (placed_sign rfl ?_)
    exact ih indent false false _ ps (hps _) fun _ => hps _
  | list hc _ ih =>
    intro indent fresh mode ps _ hps
    simp only [Node.pieces, List.append_assoc, List.cons_append, List.nil_append]
    refine placed_lead hc (placed_sign rfl ?_)
    exact placed_items ih indent fun m => placed_sign rfl (hps _)
  | chainValue _ ih =>
    intro indent fresh mode ps _ hps
    exact ih indent fresh false mode ps (hps _)
  | startName hi | stepName _ hi =>
    intro indent fresh parens mode ps hps
    simp only [Node.pieces, Identifier.pieces, List.append_assoc, List.cons_append, List.nil_append]
    exact placed_lead hi.comment (placed_sign rfl hps)
  | startCall hc _ _ ih | stepCall hc _ _ ih =>
    intro indent fresh parens mode ps hps
    exact placed_call hc ih indent fresh parens mode hps
  | @chain info op left right hc _ _ ihl ihr =>
    intro indent fresh parens mode ps hps
    simp only [Node.pieces, List.append_assoc, List.cons_append]
    refine ihl indent fresh false mode _ ?_
    rw [Placed]
    exact placed_lead hc (placed_sign rfl (ihr _ _ _ _ ps hps))
  | itemName hi =>
    intro indent fresh mode ps _ hps
    simp only [Node.pieces, Identifier.pieces, List.append_assoc, List.cons_append, List.nil_append]
    exact placed_lead hi.comment (placed_sign rfl (hps _))
  | itemString hc =>
    intro indent fresh mode ps _ hps
    simp only [Node.pieces, List.append_assoc, List.cons_append, List.nil_append]
    exact placed_lead hc (placed_sign rfl (hps _))
  | declaration hc hn _ ih =>
    intro indent fresh mode ps hps
    simp only [Node.pieces, Identifier.pieces, List.append_assoc, List.cons_append, List.nil_append]
    refine placed_lead hc (placed_sign rfl ?_)
    refine placed_lead hn.comment (placed_sign rfl ?_)
    exact placed_sign rfl (ih indent false .pattern ps (by decide) hps)
  | typeDeclaration hc hn ht =>
    intro indent fresh mode ps hps
    simp only [Node.pieces, Identifier.pieces, List.append_assoc, List.cons_append, List.nil_append]
    refine placed_lead hc (placed_sign rfl ?_)
    refine placed_lead hn.comment (placed_sign rfl ?_)
    exact placed_lead ht.comment (placed_sign rfl (hps _))
  | run _ ih =>
    intro indent fresh mode ps hps
    exact ih indent fresh false mode ps (hps _)

theorem placed_statements {ns : List Node} (h : ∀ n ∈ ns, Built .statement n) (first : Bool)
    (mode : ScanMode) : Placed mode (Node.statementPieces [] first ns) = true := by
  induction ns generalizing first mode with
  | nil => rfl
  | cons n ns ih =>
    have ih := ih (fun m hm => h m (by simp [hm])) false
    exact (h n (by simp)).arranged [] true mode (.blank ['\n'] :: _) ih

/-! ## Round trips -/

/-- A chain begins with a name. -/
theorem Built.start_signs {n : Node} (h : Built .start n) (indent : List Char)
    (fresh parens : Bool) :
    ∃ text gs, signsOf (n.pieces indent fresh parens) = ⟨.ident, text⟩ :: gs := by
  generalize hrole : Role.start = role at h
  induction h generalizing parens with
  | startName => exact ⟨_, _, by simp [Node.pieces, Identifier.pieces]; rfl⟩
  | startCall => exact ⟨_, _, by simp [Node.pieces]; rfl⟩
  | chain _ _ _ ihl =>
    obtain ⟨text, gs, hgs⟩ := ihl false hrole
    exact ⟨text, _, by simp [Node.pieces, hgs]; rfl⟩
  | _ => cases hrole

/-- A built statement goes on with no statement before it. -/
theorem Built.leavesOff {m : Node} (h : Built .statement m) (n : Node) : n.leavesOff m = true := by
  cases h with
  | declaration => simp [Node.leavesOff, Node.pieces, signsOf]
  | typeDeclaration => simp [Node.leavesOff, Node.pieces, signsOf]
  | run h =>
    obtain ⟨text, gs, hgs⟩ := h.start_signs [] true false
    simp [Node.leavesOff, hgs]

theorem keptApart_of_built {ns : List Node} (h : ∀ n ∈ ns, Built .statement n) :
    Node.keptApart ns = true := by
  induction ns with
  | nil => rfl
  | cons n ns ih =>
    have ih := ih fun m hm => h m (by simp [hm])
    cases ns with
    | nil => rfl
    | cons m ms => simp [Node.keptApart, (h m (by simp)).leavesOff n, ih]

/-- A built program is parsed back from its canonical text. -/
theorem parse_render_built (position : Position) {ns : List Node}
    (h : ∀ n ∈ ns, Built .statement n) :
    ∃ q, parse (Node.program position ns).render = .ok q ∧
      q.same (.program position ns) = true := by
  have hns : Node.withTrailing ns none = ns := by simp [Node.withTrailing]
  have hplaced := placed_statements h true .operand
  rw [← hns] at hplaced ⊢
  exact parse_render_statements (fun n hn => (h n hn).spellable) (keptApart_of_built h)
    (remarked_of_none rfl) hplaced

end

open scoped PatternEngine in
/-- A declaration of an octal number less a name, and a call with a property. -/
theorem parse_render_built_property :
    ∃ q, parse (Node.ofStatements
        [.ofDeclaration "x"
          (.ofBinary .subtract (.number .built (.int 7 Node.octalBase)) (.ofName "y")),
        .chain .built .dot (.ofCall .global "stream" []) (.ofName "lambda")]).render = .ok q ∧
      q.same (Node.ofStatements
        [.ofDeclaration "x"
          (.ofBinary .subtract (.number .built (.int 7 Node.octalBase)) (.ofName "y")),
        .chain .built .dot (.ofCall .global "stream" []) (.ofName "lambda")]) = true := by
  refine parse_render_built .nowhere fun n hn => ?_
  simp only [List.mem_cons, List.not_mem_nil, or_false] at hn
  rcases hn with rfl | rfl
  · have hvalue : Built .expression
        (.ofBinary .subtract (.number .built (.int 7 Node.octalBase)) (.ofName "y")) :=
      .binary rfl (by decide) (.int rfl (by decide) (.inl rfl)) (.name ⟨by decide, rfl⟩)
    exact .declaration rfl ⟨by decide, rfl⟩ (.value (.argument hvalue))
  · have hcall : Built .start (.ofCall .global "stream" []) :=
      .startCall rfl (by decide) (by simp)
    exact .run (.chain rfl hcall (.stepName (by decide) ⟨by decide, rfl⟩))

/-- A built expression is parsed back from its canonical text as the body of a lambda. -/
theorem parseLambda_render_built {engine : PatternEngine} {e : Node} (h : Built .expression e) :
    ∃ info q, parseLambda e.render = .ok (.lambda info q) ∧ q.same e = true := by
  have hplaced := h.arranged [] true false .operand [] rfl fun _ => rfl
  rw [List.append_nil] at hplaced
  exact parseLambda_render_operation h.spellable hplaced

open scoped PatternEngine in
/-- The negation of a product whose left factor is a sum. -/
theorem parseLambda_render_built_negation :
    ∃ info q, parseLambda (Node.ofUnary .negate (.ofBinary .multiply
        (.ofBinary .add (.ofName "a") (.ofName "b")) (.ofBool true))).render =
          .ok (.lambda info q) ∧
      q.same (Node.ofUnary .negate (.ofBinary .multiply
        (.ofBinary .add (.ofName "a") (.ofName "b")) (.ofBool true))) = true := by
  have hsum : Built .expression (.ofBinary .add (.ofName "a") (.ofName "b")) :=
    .binary rfl (by decide) (.name ⟨by decide, rfl⟩) (.name ⟨by decide, rfl⟩)
  exact parseLambda_render_built (.unary rfl (.binary rfl (by decide) hsum (.bool rfl)))

end PipelineScript

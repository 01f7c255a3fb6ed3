import PipelineScript.Proofs.Spellable

/-!
No sign of a spellable tree runs into the next one.

The layout puts a blank, a comma or a closing mark behind everything that could go on, and a
comment ends before a character that cannot continue it. The main statement is
`Spellable.delimits`, by induction on how a tree is spellable; it is stated for a tree in front of
other pieces, so that each case only looks at its own signs.
-/
namespace PipelineScript

variable {engine : PatternEngine}

/-- Nothing but spaces. -/
def Spaces (indent : List Char) : Prop := ∀ c ∈ indent, c = ' '

theorem spaces_nil : Spaces [] := by simp [Spaces]

theorem Spaces.indentStep {indent : List Char} (h : Spaces indent) :
    Spaces (indent ++ PipelineScript.indentStep) := by
  intro c hc
  rcases List.mem_append.1 hc with hc | hc
  · exact h c hc
  · simpa [PipelineScript.indentStep] using hc

theorem Spaces.stepIndent {indent : List Char} (h : Spaces indent) (op : ChainOp) :
    Spaces (Node.stepIndent op indent) := by
  cases op with
  | dot => exact h.indentStep.indentStep
  | pipe => exact h.indentStep
  | dynamic => exact h.indentStep

/-- White space within a line. -/
def Margin (indent : List Char) : Prop := ∀ c ∈ indent, c ≠ '\n' ∧ Text.isSpace c = true

theorem margin_nil : Margin [] := by simp [Margin]

theorem Margin.isSpace {indent : List Char} (h : Margin indent) :
    ∀ c ∈ indent, Text.isSpace c = true := fun c hc => (h c hc).2

theorem Margin.newline {indent : List Char} (h : Margin indent) : '\n' ∉ indent :=
  fun hm => (h _ hm).1 rfl

theorem Spaces.margin {indent : List Char} (h : Spaces indent) : Margin indent := by
  intro c hc
  rw [h c hc]
  decide

theorem Spaces.isSpace {indent : List Char} (h : Spaces indent) :
    ∀ c ∈ indent, Text.isSpace c = true := h.margin.isSpace

theorem Spaces.lineStart {indent : List Char} (h : Spaces indent) (fresh : Bool) :
    Spaces (PipelineScript.lineStart indent fresh) := by
  cases fresh with
  | true => exact h
  | false => exact spaces_nil

/-! ## Comments -/

/-- What follows a comment does not continue it. -/
def EndsComment (rest : List Char) : Prop :=
  ∀ d, rest.head? = some d → d = '\n' ∨ (Text.isSpace d = false ∧ d ≠ '/')

/-- The rest of a comment line. -/
theorem Lexeme.comment_indent {indent : List Char} (h : Margin indent) (rest : List Char) :
    Lexeme.comment true (indent ++ rest) =
      (indent ++ (Lexeme.comment true rest).1, (Lexeme.comment true rest).2) := by
  induction indent with
  | nil => rfl
  | cons c cs ih =>
    obtain ⟨hnewline, hspace⟩ := h c (by simp)
    have hslash : c ≠ '/' := by
      rintro rfl
      cases hspace
    have ih := ih fun d hd => h d (by simp [hd])
    simp [Lexeme.comment, hnewline, hslash, hspace, ih, Lexeme.keep]

theorem Lexeme.comment_end {rest : List Char} (h : EndsComment rest) :
    Lexeme.comment true rest = ([], rest) := by
  cases rest with
  | nil => rfl
  | cons d ds =>
    rcases h d rfl with rfl | ⟨hs, hd⟩
    · rfl
    · simp [Lexeme.comment, hs, hd]

namespace Comment

/-- The text of a line, behind its two slashes. -/
def lineBody (line : String) : List Char := if line.isEmpty then [] else ' ' :: line.toList

theorem lineText_eq (line : String) : lineText line = '/' :: '/' :: (lineBody line ++ ['\n']) := by
  rw [lineText, lineBody]
  split <;> simp

theorem newline_not_mem_lineBody {line : String} (h : '\n' ∉ line.toList) :
    '\n' ∉ lineBody line := by
  rw [lineBody]
  split
  · simp
  · simp [h]

variable {indent tail : List Char} {ps : List Piece}

/-- The lines of a comment are comment tokens, and the last one ends before what follows. -/
theorem delimits_lines (hi : Margin indent) (ht : Margin tail) (hend : EndsComment (spelled ps))
    (hps : Delimits ps) {lines : List String}
    (hl : ∀ line ∈ lines, line = gap ∨ '\n' ∉ line.toList) :
    (Lexeme.comment true ((continued indent tail lines).1 ++
          spelled ((continued indent tail lines).2 ++ ps)) =
        ((continued indent tail lines).1, spelled ((continued indent tail lines).2 ++ ps)) ∧
      Delimits ((continued indent tail lines).2 ++ ps)) ∧
    Delimits (remarks indent tail lines ++ ps) := by
  induction lines with
  | nil =>
    refine ⟨⟨?_, ?_⟩, ?_⟩
    · simp [continued, Lexeme.comment_indent ht, Lexeme.comment_end hend]
    · simpa [continued] using hps
    · exact ⟨ht.isSpace, hps⟩
  | cons line lines ih =>
    obtain ⟨⟨ihtext, ihpieces⟩, ihremarks⟩ := ih fun l hm => hl l (by simp [hm])
    by_cases h : line = gap
    · subst h
      have hgap : EndsComment ('\n' :: spelled (remarks indent tail lines ++ ps)) := by
        intro d hd
        exact .inl (by simpa using hd.symm)
      refine ⟨⟨?_, ?_⟩, ?_⟩
      · simpa [continued] using Lexeme.comment_end hgap
      · simp only [continued, if_true, List.cons_append]
        exact ⟨Text.isSpace_newline, ihremarks⟩
      · simp only [remarks, if_true, List.cons_append]
        exact ⟨Text.isSpace_newline, ihremarks⟩
    · have hline : '\n' ∉ lineBody line :=
        newline_not_mem_lineBody ((hl line (by simp)).resolve_left h)
      -- From behind the two slashes of this line to the end of the token.
      have htoken : Lexeme.comment false (lineBody line ++ '\n' ::
            ((continued indent tail lines).1 ++ spelled ((continued indent tail lines).2 ++ ps))) =
          (lineBody line ++ '\n' :: (continued indent tail lines).1,
            spelled ((continued indent tail lines).2 ++ ps)) := by
        rw [Sign.comment_line hline, ihtext]
      refine ⟨⟨?_, ?_⟩, ?_⟩
      · simp only [continued, if_neg h, lineText_eq, List.append_assoc, List.cons_append,
          List.nil_append]
        rw [Lexeme.comment_indent hi]
        simp only [Lexeme.comment, if_true, Bool.false_eq_true, if_false,
          Char.reduceEq, decide_false, htoken, Lexeme.keep]
      · simpa only [continued, if_neg h] using ihpieces
      · simp only [remarks, if_neg h, List.cons_append]
        refine ⟨hi.isSpace, ?_, ihpieces⟩
        rw [lineText_eq]
        have hdelimited : Sign.Delimited
            ⟨.comment, '/' :: '/' :: (lineBody line ++ '\n' :: (continued indent tail lines).1)⟩
            (spelled ((continued indent tail lines).2 ++ ps)) :=
          .comment (by simpa using htoken)
        simpa using hdelimited

end Comment

/-- What stands before something is delimited, if the something ends a comment. -/
theorem delimits_lead {c : Option Comment} {indent tail : List Char} {fresh : Bool}
    {ps : List Piece} (hc : Remarked c) (hi : Spaces indent) (ht : Spaces tail)
    (hend : c.isSome = true → EndsComment (spelled ps)) (hps : Delimits ps) :
    Delimits (lead c indent tail fresh ++ ps) := by
  cases c with
  | none => exact ⟨(ht.lineStart fresh).isSpace, hps⟩
  | some c =>
    refine ⟨List.all_eq_true.1 (by cases fresh <;> decide), ?_⟩
    have hlines := Comment.TidyLines.lined (hc c rfl)
    exact (Comment.delimits_lines hi.margin ht.margin (hend rfl) hps hlines).2

/-! ## First characters -/

/-- How the text of a tree begins: with the newline before a comment, or with a character that
neither goes on with an operator nor, unless it opens a regex, with a comment. -/
def Opening (regex : Bool) (text : List Char) : Prop :=
  ∀ d, text.head? = some d →
    d = '\n' ∨ (Text.isSpace d = false ∧ d ≠ '=' ∧ d ≠ '~' ∧ (d = '/' → regex = true))

theorem Opening.endsComment {text : List Char} (h : Opening false text) : EndsComment text := by
  intro d hd
  rcases h d hd with rfl | ⟨hs, -, -, hr⟩
  · exact .inl rfl
  · exact .inr ⟨hs, fun e => by simpa using hr e⟩

theorem Sign.head_of_isWord {text : List Char} (h : Sign.isWord text = true) :
    ∃ c cs, text = c :: cs ∧ Text.isSpace c = false ∧ c ≠ '=' ∧ c ≠ '~' ∧ c ≠ '/' := by
  cases text with
  | nil => simp [Sign.isWord] at h
  | cons c cs =>
    simp only [Sign.isWord, Bool.and_eq_true] at h
    exact ⟨c, cs, rfl, Text.isSpace_of_isAlphabetic h.1, Text.ne_of_test h.1 (by decide),
      Text.ne_of_test h.1 (by decide), Text.ne_of_test h.1 (by decide)⟩

theorem Sign.head_of_isWhole {text : List Char} (h : Sign.isWhole text = true)
    (more : List Char) :
    ∃ c cs, text ++ more = c :: cs ∧ Text.isSpace c = false ∧ c ≠ '=' ∧ c ≠ '~' ∧ c ≠ '/' := by
  obtain ⟨c, cs, rfl, hc⟩ := Sign.exists_cons_of_isWhole h
  exact ⟨c, cs ++ more, rfl, Sign.isSpace_of_isDigit hc, Text.ne_of_test hc (by decide),
    Text.ne_of_test hc (by decide), Text.ne_of_test hc (by decide)⟩

/-- The first character of a sign that opens an expression. -/
theorem Sign.Delimited.head_opens {g : Sign} {rest : List Char} (h : g.Delimited rest)
    (ho : g.kind.opens = true) :
    ∃ c cs, g.text = c :: cs ∧ Text.isSpace c = false ∧ c ≠ '=' ∧ c ≠ '~' ∧
      (c = '/' → g.kind = .regex) := by
  -- Only a regex opens with a slash; the other marks are told apart by their first characters.
  cases h with
  | @punctuation c kind _ h =>
    simp only [Sign.punctuation, List.mem_cons, List.not_mem_nil, or_false, Prod.mk.injEq] at h
    rcases h with ⟨rfl, rfl⟩ | ⟨rfl, rfl⟩ | ⟨rfl, rfl⟩ | ⟨rfl, rfl⟩ | ⟨rfl, rfl⟩ | ⟨rfl, rfl⟩ |
      ⟨rfl, rfl⟩ <;> exact ⟨_, _, rfl, by decide, by decide, by decide, by simp⟩
  | keyword hw _ _ _ =>
    obtain ⟨c, cs, he, h₁, h₂, h₃, h₄⟩ := Sign.head_of_isWord hw
    exact ⟨c, cs, he, h₁, h₂, h₃, fun e => absurd e h₄⟩
  | ident hn _ =>
    simp only [Sign.isName, Bool.and_eq_true] at hn
    obtain ⟨c, cs, he, h₁, h₂, h₃, h₄⟩ := Sign.head_of_isWord hn.1
    exact ⟨c, cs, he, h₁, h₂, h₃, fun e => absurd e h₄⟩
  | binary op _ =>
    cases op with
    | subtract => exact ⟨'-', [], rfl, by decide, by decide, by decide, by simp⟩
    | _ => cases ho
  | whole hw _ =>
    obtain ⟨c, cs, he, h₁, h₂, h₃, h₄⟩ := Sign.head_of_isWhole hw []
    exact ⟨c, cs, by simpa using he, h₁, h₂, h₃, fun e => absurd e h₄⟩
  | fraction hw _ _ | duration hw _ _ =>
    obtain ⟨c, cs, he, h₁, h₂, h₃, h₄⟩ := Sign.head_of_isWhole hw _
    exact ⟨c, cs, he, h₁, h₂, h₃, fun e => absurd e h₄⟩
  | dot | assign | comment => cases ho
  | regex => exact ⟨_, _, rfl, by decide, by decide, by decide, fun _ => rfl⟩
  | minus | not | star | lambda | reference | string | triple =>
    exact ⟨_, _, rfl, by decide, by decide, by decide, by simp⟩

theorem opening_sign {g : Sign} {rest more : List Char} {regex : Bool} (h : g.Delimited rest)
    (ho : g.kind.opens = true) (hr : g.kind = .regex → regex = true) :
    Opening regex (g.text ++ more) := by
  obtain ⟨c, cs, he, hs, h₁, h₂, h₃⟩ := h.head_opens ho
  intro d hd
  rw [he, List.cons_append, List.head?_cons, Option.some.injEq] at hd
  subst hd
  exact .inr ⟨hs, h₁, h₂, fun e => hr (h₃ e)⟩

theorem opening_name {text more : List Char} {regex : Bool} (h : Sign.isName text = true) :
    Opening regex (text ++ more) :=
  opening_sign (g := ⟨.ident, text⟩) (.ident h clear_nil) rfl (by simp)

/-- What is not on a fresh line begins with its comment or with itself. -/
theorem opening_lead {c : Option Comment} {indent tail more : List Char} {regex : Bool}
    (h : c = none → Opening regex more) :
    Opening regex (spelled (lead c indent tail false) ++ more) := by
  cases c with
  | none => simpa [lead, lineStart] using h rfl
  | some c =>
    intro d hd
    exact .inl (by simpa [lead] using hd.symm)

theorem Node.leadsRegex_of_literalSign? {n : Node} {g : Sign} (hg : n.literalSign? = some g)
    (parens : Bool) : n.leadsRegex parens = true ↔ g.kind = .regex := by
  cases n with
  | number | duration | bool | string | regex | reference | star => cases hg; simp [leadsRegex]
  | _ => simp [literalSign?] at hg

theorem opening_cons {c : Char} {regex : Bool} (more : List Char)
    (h : Text.isSpace c = false ∧ c ≠ '=' ∧ c ≠ '~' ∧ c ≠ '/') : Opening regex (c :: more) := by
  intro d hd
  rw [List.head?_cons, Option.some.injEq] at hd
  subst hd
  exact .inr ⟨h.1, h.2.1, h.2.2.1, fun e => absurd e h.2.2.2⟩

/-- An operation begins with a parenthesis or with its left operand. -/
theorem opening_binary {info : Info} {op : BinaryOp} {left right : Node}
    {parenthesized broken : Bool}
    (hl : ∀ indent parens more,
      Opening (left.leadsRegex parens) (spelled (left.pieces indent false parens) ++ more))
    (indent : List Char) (parens : Bool) (more : List Char) :
    Opening ((Node.binary info op left right parenthesized broken).leadsRegex parens)
      (spelled ((Node.binary info op left right parenthesized broken).pieces indent false parens) ++
        more) := by
  simp only [Node.pieces, spelled_append, List.append_assoc]
  refine opening_lead fun _ => ?_
  cases hp : parens || parenthesized with
  | true => exact opening_cons _ (by decide)
  | false =>
    simp only [Node.leadsRegex, hp, Bool.not_false, Bool.true_and]
    exact hl _ _ _

/-- How the text of a spellable tree begins when it is not on a fresh line. -/
theorem Spellable.opening {place : Place} {n : Node} (h : Spellable place n) (indent : List Char)
    (parens : Bool) (more : List Char) :
    Opening (n.leadsRegex parens) (spelled (n.pieces indent false parens) ++ more) := by
  induction h generalizing indent parens more with
  | literal hg hs _ _ | headLiteral hg hs _ _ | itemLiteral hg hs _ _ =>
    rw [Node.pieces_of_literalSign? hg, spelled_append, List.append_assoc]
    refine opening_lead fun _ => ?_
    rw [spelled_sign, List.append_assoc]
    exact opening_sign (hs.delimited [] clear_nil)
      (TokenKind.opens_of_mem_literalKinds (Node.kind_of_literalSign? hg))
      (Node.leadsRegex_of_literalSign? hg parens).2
  | name hi | headName hi | baseName hi | stepName _ hi | itemName hi =>
    rw [Node.pieces, Identifier.pieces, spelled_append, List.append_assoc]
    exact opening_lead fun _ => by simpa using opening_name hi.name
  | call _ hn _ | headCall _ hn _ | baseCall _ hn _ | stepCall _ hn _ =>
    simp only [Node.pieces, spelled_append, List.append_assoc]
    exact opening_lead fun _ => by simpa using opening_name hn
  | @unary info op _ _ _ _ | @headUnary info op _ _ _ _ =>
    simp only [Node.pieces, spelled_append, spelled_sign, List.append_assoc]
    refine opening_lead fun _ => ?_
    cases op <;> exact opening_cons _ (by decide)
  | binary _ _ _ _ ihl _ | headParens _ _ _ ihl _ | headBinary _ _ _ _ ihl _ =>
    exact opening_binary ihl indent parens more
  | operation _ ih | express _ ih => exact ih indent parens more
  | lambda =>
    simp only [Node.pieces, spelled_append, List.append_assoc]
    exact opening_lead fun _ => opening_cons _ (by decide)
  | list =>
    simp only [Node.pieces, spelled_append, List.append_assoc]
    exact opening_lead fun _ => opening_cons _ (by decide)
  | @chain info op left right _ hl _ ihl _ | @baseChain info op left right _ hl _ ihl _ =>
    have hr : left.leadsRegex false = false := by
      cases hl <;> rfl
    simp only [Node.pieces, spelled_append, List.append_assoc]
    have := ihl indent false
    rw [hr] at this
    exact this _
  | declaration | typeDeclaration =>
    simp only [Node.pieces, spelled_append, List.append_assoc]
    exact opening_lead fun _ => opening_cons _ (by decide)

/-! ## Trees -/

/-- A tree can be written in front of pieces that do not run into it. -/
def Settles (n : Node) : Prop :=
  ∀ (indent : List Char) (fresh parens : Bool) (ps : List Piece), Spaces indent →
    Clear (spelled ps) → Delimits ps → Delimits (n.pieces indent fresh parens ++ ps)

theorem delimits_leadOf {info : Info} {indent : List Char} {fresh : Bool} {ps : List Piece}
    (hc : Remarked info.comment) (hi : Spaces indent)
    (hend : info.comment.isSome = true → EndsComment (spelled ps)) (hps : Delimits ps) :
    Delimits (Node.leadOf info indent fresh ++ ps) :=
  delimits_lead hc hi hi hend hps

theorem Identifier.Spellable.delimits {ident : Identifier} (h : ident.Spellable)
    {indent : List Char} (fresh : Bool) {ps : List Piece} (hi : Spaces indent)
    (hclear : Clear (spelled ps)) (hps : Delimits ps) :
    Delimits (ident.pieces indent fresh ++ ps) := by
  rw [Identifier.pieces, List.append_assoc]
  refine delimits_lead h.comment hi hi (fun _ => ?_) ⟨.ident h.name hclear, hps⟩
  exact (opening_name h.name).endsComment

/-- Arguments, each in front of a comma or of what closes the list. -/
theorem delimits_args {args : List Node} (h : ∀ a ∈ args, Settles a) {indent : List Char}
    (hi : Spaces indent) (broken first : Bool) {ps : List Piece} (hclear : Clear (spelled ps))
    (hps : Delimits ps) : Delimits (Node.argPieces indent broken first args ++ ps) := by
  induction args generalizing first with
  | nil => simpa [Node.argPieces] using hps
  | cons a as ih =>
    have ih := ih (fun b hb => h b (by simp [hb])) false
    have hnext : Clear (spelled (Node.argPieces indent broken false as ++ ps)) := by
      cases as with
      | nil => simpa [Node.argPieces] using hclear
      | cons b bs =>
        simp only [Node.argPieces, Bool.false_eq_true, if_false, List.cons_append,
          List.append_assoc, List.nil_append, spelled_sign]
        exact clear_cons _ (by decide)
    have ha := h a (by simp) indent broken false _ hi hnext ih
    have hblank : ∀ c ∈ (if broken then ['\n'] else if first then [] else [' ']),
        Text.isSpace c = true := by
      exact List.all_eq_true.1 (by cases broken <;> cases first <;> decide)
    simp only [Node.argPieces, List.append_assoc, List.cons_append]
    cases first with
    | true => exact ⟨hblank, ha⟩
    | false => exact ⟨.punctuation (by decide), hblank, ha⟩

theorem delimits_items {items : List Node} (h : ∀ a ∈ items, Settles a) {indent : List Char}
    (hi : Spaces indent) {ps : List Piece} (hclear : Clear (spelled ps)) (hps : Delimits ps) :
    Delimits (Node.itemPieces indent items ++ ps) := by
  induction items with
  | nil => simpa [Node.itemPieces] using hps
  | cons a as ih =>
    have ih := ih (fun b hb => h b (by simp [hb]))
    cases as with
    | nil => simpa [Node.itemPieces] using h a (by simp) indent false false ps hi hclear hps
    | cons b bs =>
      rw [Node.itemPieces]
      · rw [List.append_assoc]
        refine h a (by simp) indent false false _ hi (clear_cons _ (by decide)) ?_
        exact ⟨.punctuation (by decide), Text.isSpace_blank, ih⟩
      · simp

theorem delimits_call {info : Info} {kind : CallKind} {name : String} {args : List Node}
    {broken : Bool} (hc : Remarked info.comment) (hn : Sign.isName name.toList = true)
    (ha : ∀ a ∈ args, Settles a) : Settles (.func info kind name args broken) := by
  intro indent fresh parens ps hi hclear hps
  simp only [Node.pieces, List.append_assoc, List.cons_append, List.nil_append]
  refine delimits_leadOf hc hi (fun _ => (opening_name hn).endsComment) ?_
  refine ⟨.ident hn (clear_cons _ (by decide)), .punctuation (by decide), ?_⟩
  have hblank : Spaces indent → ∀ c ∈ (if broken && !args.isEmpty then '\n' :: indent else []),
      Text.isSpace c = true := by
    intro hi c hm
    split at hm
    · rcases List.mem_cons.1 hm with rfl | hm
      · decide
      · exact hi.isSpace c hm
    · simp at hm
  refine delimits_args ha hi.indentStep broken true ?_
    ⟨hblank hi, .punctuation (by decide), hps⟩
  simp only [spelled_blank, spelled_sign]
  split <;> exact clear_cons _ (by decide)

theorem delimits_literal {n : Node} {g : Sign} (hg : n.literalSign? = some g) (hs : Spells n g)
    (hc : Remarked n.comment?) (hr : n.leadsRegex false = true → n.comment? = none) :
    Settles n := by
  intro indent fresh parens ps hi hclear hps
  rw [Node.pieces_of_literalSign? hg, List.append_assoc]
  refine delimits_leadOf hc hi (fun hsome => ?_) ⟨hs.delimited _ hclear, hps⟩
  refine (opening_sign (hs.delimited [] clear_nil)
    (TokenKind.opens_of_mem_literalKinds (Node.kind_of_literalSign? hg)) fun hk => ?_).endsComment
  have hnone := hr ((Node.leadsRegex_of_literalSign? hg false).2 hk)
  rw [show n.info.comment = none from hnone] at hsome
  cases hsome

theorem delimits_unary {info : Info} {op : UnaryOp} {operand : Node}
    (hc : Remarked info.comment) (ho : Spellable .operation operand) (h : Settles operand) :
    Settles (.unary info op operand) := by
  intro indent fresh parens ps hi hclear hps
  simp only [Node.pieces, List.append_assoc, List.cons_append]
  have hrest := h indent false operand.isBinary ps hi hclear hps
  refine delimits_leadOf hc hi (fun _ => ?_) ⟨?_, hrest⟩
  · cases op <;> exact (opening_cons _ (by decide)).endsComment
  · cases op with
    | negate => exact .minus
    -- An operand begins with neither of the marks that make an operator of an exclamation mark.
    | not =>
      refine .not fun d hd => ?_
      rw [spelled_append] at hd
      rcases ho.opening indent operand.isBinary (spelled ps) d hd with rfl | ⟨-, h₁, h₂, -⟩
      · decide
      · exact ⟨h₁, h₂⟩

/-- An operation: blanks stand around the operator, and a parenthesis or what follows the whole
stands behind the right operand. -/
theorem delimits_binary {info : Info} {op : BinaryOp} {left right : Node}
    {parenthesized broken : Bool} {place : Place} (hc : Remarked info.comment)
    (hx : info.comment.isSome = true → parenthesized = true ∨
      left.leadsRegex (Node.looserLeft op.precedence left) = false)
    (hs : Spellable place left) (hl : Settles left) (hr : Settles right) :
    Settles (.binary info op left right parenthesized broken) := by
  intro indent fresh parens ps hi hclear hps
  have hblank : ∀ c ∈ [if broken = true then '\n' else ' '], Text.isSpace c = true := by
    exact List.all_eq_true.1 (by cases broken <;> decide)
  -- The text from the left operand on, at either indentation and in front of either end.
  have hcore : ∀ (inner : List Char) (qs : List Piece), Spaces inner → Clear (spelled qs) →
      Delimits qs →
      Delimits (left.pieces inner false (Node.looserLeft op.precedence left) ++
        .blank [' '] :: .sign ⟨.binary op, op.spelling.toList⟩ ::
        .blank [if broken then '\n' else ' '] ::
        (right.pieces inner broken (Node.looserRight op.precedence right) ++ qs)) := by
    intro inner qs hinner hq hqs
    have hright := hr inner broken (Node.looserRight op.precedence right) qs hinner hq hqs
    refine hl inner false _ _ hinner (clear_cons _ (by decide)) ?_
    refine ⟨Text.isSpace_blank, .binary op ?_, hblank, hright⟩
    cases broken <;> simp
  simp only [Node.pieces, List.append_assoc, List.cons_append]
  cases hp : parens || parenthesized with
  | true =>
    refine delimits_leadOf hc hi (fun _ => (opening_cons _ (by decide)).endsComment) ?_
    refine ⟨.punctuation (by decide), ?_⟩
    exact hcore _ _ hi.indentStep (clear_cons _ (by decide)) ⟨.punctuation (by decide), hps⟩
  | false =>
    simp only [Bool.or_eq_false_iff] at hp
    refine delimits_leadOf hc hi (fun hsome => ?_) ?_
    · have hopening := hs.opening indent (Node.looserLeft op.precedence left)
      have hfalse := (hx hsome).resolve_left (by simp [hp.2])
      rw [hfalse] at hopening
      simp only [Bool.false_eq_true, if_false, List.nil_append, spelled_append]
      exact (hopening _).endsComment
    · exact hcore indent ps hi hclear hps

theorem ChainOp.kind_mem_punctuation {op : ChainOp} (h : op ≠ .dot) :
    ∃ c, op.spelling.toList = [c] ∧ (c, TokenKind.chain op) ∈ Sign.punctuation := by
  cases op with
  | dot => contradiction
  | pipe => exact ⟨'|', rfl, by decide⟩
  | dynamic => exact ⟨'@', rfl, by decide⟩

/-- A step of a chain begins with its name, or with the newline before its comment. -/
theorem Spellable.step_opening {op : ChainOp} {n : Node} (h : Spellable (.step op) n)
    (indent : List Char) (parens : Bool) (more : List Char) {d : Char}
    (hd : (spelled (n.pieces indent false parens) ++ more).head? = some d) :
    Text.isDigit d = false := by
  -- With a comment a newline comes first, and without one a letter does.
  have hlead : ∀ (c : Option Comment) (name rest : List Char), Sign.isName name = true →
      (spelled (lead c indent indent false) ++ (name ++ rest)).head? = some d →
      Text.isDigit d = false := by
    intro c name rest hn hd
    cases c with
    | some c =>
      obtain rfl : d = '\n' := by simpa [lead] using hd.symm
      decide
    | none =>
      cases name with
      | nil => simp [Sign.isName, Sign.isWord] at hn
      | cons e es =>
        obtain rfl : e = d := by simpa [lead, lineStart] using hd
        simp only [Sign.isName, Sign.isWord, Bool.and_eq_true] at hn
        exact Sign.isDigit_of_isAlphabetic hn.1.1
  cases h with
  | stepName _ hi =>
    simp only [Node.pieces, Identifier.pieces, spelled_append, List.append_assoc, spelled_sign,
      spelled_nil] at hd
    exact hlead _ _ _ hi.name hd
  | stepCall _ hn _ =>
    simp only [Node.pieces, Node.leadOf, spelled_append, spelled_sign, List.append_assoc] at hd
    exact hlead _ _ _ hn hd

theorem delimits_chain {info : Info} {op : ChainOp} {left right : Node}
    (hc : Remarked info.comment) (hs : Spellable (.step op) right) (hl : Settles left)
    (hr : Settles right) : Settles (.chain info op left right) := by
  intro indent fresh parens ps hi hclear hps
  have hstep := hi.stepIndent op
  have hright := hr (Node.stepIndent op indent) false false ps hstep hclear hps
  simp only [Node.pieces, List.append_assoc, List.cons_append]
  refine hl indent fresh false _ hi (clear_cons _ (by decide)) ⟨List.all_eq_true.1 (by decide), ?_⟩
  refine delimits_lead hc hstep hstep (fun _ => ?_) ⟨?_, hright⟩
  · cases op <;> exact (opening_cons _ (by decide)).endsComment
  -- Behind a point there must not be a digit.
  · by_cases hop : op = .dot
    · subst hop
      refine .dot fun d hd => ?_
      rw [spelled_append] at hd
      exact hs.step_opening _ false (spelled ps) hd
    · obtain ⟨c, htext, hmem⟩ := ChainOp.kind_mem_punctuation hop
      rw [htext]
      exact .punctuation hmem

theorem delimited_var (rest : List Char) :
    Sign.Delimited ⟨.var, "var".toList⟩ (' ' :: rest) :=
  .keyword (by decide) (by decide) (by decide) (clear_cons _ (by decide))

/-- No sign of a spellable tree runs into the next one. -/
theorem Spellable.settles {place : Place} {n : Node} (h : Spellable place n) : Settles n := by
  induction h with
  | literal hg hs hc hr | headLiteral hg hs hc hr => exact delimits_literal hg hs hc hr
  | itemLiteral hg hs hk hc =>
    refine delimits_literal hg hs hc fun hr => ?_
    rw [Node.leadsRegex_of_literalSign? hg] at hr
    simp [hr] at hk
  | name hi | headName hi | baseName hi | stepName _ hi | itemName hi =>
    intro indent fresh parens ps hspaces hclear hps
    rw [Node.pieces]
    exact hi.delimits _ hspaces hclear hps
  | call hc hn _ ih | headCall hc hn _ ih | baseCall hc hn _ ih | stepCall hc hn _ ih =>
    exact delimits_call hc hn ih
  | unary hc ho ih | headUnary hc ho ih => exact delimits_unary hc ho ih
  | binary hc hx hl _ ihl ihr => exact delimits_binary hc hx hl ihl ihr
  | headParens hc hl _ ihl ihr => exact delimits_binary hc (fun _ => .inl rfl) hl ihl ihr
  | headBinary hc hx hl _ ihl ihr => exact delimits_binary hc (fun h => .inr (hx h)) hl ihl ihr
  | operation _ ih | express _ ih => exact ih
  | lambda hc hb ih =>
    intro indent fresh parens ps hi hclear hps
    simp only [Node.pieces, List.append_assoc, List.cons_append]
    refine delimits_leadOf hc hi (fun _ => (opening_cons _ (by decide)).endsComment) ?_
    exact ⟨.lambda, Text.isSpace_blank, ih indent false false ps hi hclear hps⟩
  | list hc _ ih =>
    intro indent fresh parens ps hi hclear hps
    simp only [Node.pieces, List.append_assoc, List.cons_append, List.nil_append]
    refine delimits_leadOf hc hi (fun _ => (opening_cons _ (by decide)).endsComment) ?_
    refine ⟨.punctuation (by decide), ?_⟩
    exact delimits_items ih hi (clear_cons _ (by decide)) ⟨.punctuation (by decide), hps⟩
  | chain hc _ hr ihl ihr | baseChain hc _ hr ihl ihr => exact delimits_chain hc hr ihl ihr
  | declaration hc hn _ ih =>
    intro indent fresh parens ps hi hclear hps
    have hvalue := ih indent false false ps hi hclear hps
    simp only [Node.pieces, List.append_assoc, List.cons_append]
    refine delimits_lead hc hi spaces_nil (fun _ => (opening_cons _ (by decide)).endsComment) ?_
    refine ⟨delimited_var _, Text.isSpace_blank, ?_⟩
    refine hn.delimits _ hi (clear_cons _ (by decide)) ?_
    exact ⟨Text.isSpace_blank, .assign rfl, Text.isSpace_blank, hvalue⟩
  | typeDeclaration hc hn ht =>
    intro indent fresh parens ps hi hclear hps
    have htype := ht.delimits false hi hclear hps
    simp only [Node.pieces, List.append_assoc, List.cons_append]
    refine delimits_lead hc hi spaces_nil (fun _ => (opening_cons _ (by decide)).endsComment) ?_
    refine ⟨delimited_var _, Text.isSpace_blank, ?_⟩
    exact hn.delimits _ hi (clear_cons _ (by decide)) ⟨Text.isSpace_blank, htype⟩

end PipelineScript

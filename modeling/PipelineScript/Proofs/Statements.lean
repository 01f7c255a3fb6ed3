import PipelineScript.Proofs.Layout
import PipelineScript.Proofs.ReadBack

/-!
Whole programs are read back.

A comment that stands before a closing mark is taken by no node, and becomes a node of its own if
the program ends there. Canonical text has no comment at such a place, so what is read back is the
statements and nothing else. The other condition is that no statement goes on with the one behind
it: one that begins with a parenthesis or a minus may.
-/
namespace PipelineScript

variable {engine : PatternEngine}

/-! ## Canonical text has no comment before a closing mark -/

/-- No comment stands before a closing mark, nor before the end unless `final` allows it.
`remarked` says that a comment stands before the pieces. -/
def quiet (final remarked : Bool) : List Piece → Bool
  | [] => final || !remarked
  | .blank _ :: ps => quiet final remarked ps
  | .sign g :: ps =>
    if g.kind = .comment then quiet final true ps
    else !(remarked && g.kind.closes) && quiet final false ps

section

variable {final : Bool}

theorem quiet_sign {g : Sign} {ps : List Piece} (r : Bool) (hc : g.kind ≠ .comment)
    (hk : g.kind.closes = false) : quiet final r (.sign g :: ps) = quiet final false ps := by
  simp [quiet, hc, hk]

theorem quiet_close {g : Sign} {ps : List Piece} (hk : g.kind.closes = true) :
    quiet final false (.sign g :: ps) = quiet final false ps := by
  have hc : g.kind ≠ .comment := by
    intro h
    rw [h] at hk
    cases hk
  simp [quiet, hc]

theorem Comment.quiet_lines {indent tail : List Char} {ps : List Piece}
    (h : ∀ r, quiet final r ps = true) (lines : List String) :
    (∀ r, quiet final r ((continued indent tail lines).2 ++ ps) = true) ∧
      ∀ r, quiet final r (remarks indent tail lines ++ ps) = true := by
  -- Both at once, because a gap between two blocks leads from one of the functions to the other.
  induction lines with
  | nil => exact ⟨h, h⟩
  | cons line lines ih =>
    obtain ⟨ih₁, ih₂⟩ := ih
    by_cases hl : line = gap
    · exact ⟨by simpa [continued, hl, quiet] using ih₂, by simpa [remarks, hl, quiet] using ih₂⟩
    · refine ⟨by simpa [continued, hl] using ih₁, fun r => ?_⟩
      simpa [remarks, hl, quiet] using ih₁ true

theorem quiet_lead {c : Option Comment} {indent tail : List Char} {fresh : Bool}
    {ps : List Piece} (h : ∀ r, quiet final r ps = true) (r : Bool) :
    quiet final r (lead c indent tail fresh ++ ps) = true := by
  cases c with
  | none => exact h r
  | some c => exact (Comment.quiet_lines h c.lines).2 r

/-- A tree in front of quiet pieces is quiet. -/
def Quiets (final : Bool) (n : Node) : Prop :=
  ∀ (indent : List Char) (fresh parens : Bool) (ps : List Piece), quiet final false ps = true →
    ∀ r, quiet final r (n.pieces indent fresh parens ++ ps) = true

theorem Identifier.quiet_pieces {ident : Identifier} {indent : List Char} {fresh : Bool}
    {ps : List Piece} (hps : quiet final false ps = true) (r : Bool) :
    quiet final r (ident.pieces indent fresh ++ ps) = true := by
  rw [Identifier.pieces, List.append_assoc]
  exact quiet_lead (fun r => (quiet_sign r (by simp) rfl).trans hps) r

theorem quiet_args {args : List Node} (h : ∀ a ∈ args, Quiets final a) (indent : List Char)
    (broken first : Bool) {ps : List Piece} (hps : quiet final false ps = true) :
    quiet final false (Node.argPieces indent broken first args ++ ps) = true := by
  induction args generalizing first with
  | nil => simpa [Node.argPieces] using hps
  | cons a as ih =>
    have ih := ih (fun b hb => h b (by simp [hb])) false
    have ha := h a (by simp) indent broken false _ ih false
    cases first with
    | true => simpa [Node.argPieces, quiet] using ha
    | false => simpa [Node.argPieces, quiet, TokenKind.closes] using ha

theorem quiet_items {items : List Node} (h : ∀ a ∈ items, Quiets final a) (indent : List Char)
    {ps : List Piece} (hps : quiet final false ps = true) :
    quiet final false (Node.itemPieces indent items ++ ps) = true := by
  induction items with
  | nil => simpa [Node.itemPieces] using hps
  | cons a as ih =>
    have ih := ih (fun b hb => h b (by simp [hb]))
    cases as with
    | nil => simpa [Node.itemPieces] using h a (by simp) indent false false ps hps false
    | cons b bs =>
      rw [Node.itemPieces]
      · rw [List.append_assoc]
        refine h a (by simp) indent false false _ ?_ false
        simpa [quiet, TokenKind.closes] using ih
      · simp

theorem quiets_call {info : Info} {kind : CallKind} {name : String} {args : List Node}
    {broken : Bool} (ha : ∀ a ∈ args, Quiets final a) :
    Quiets final (.func info kind name args broken) := by
  intro indent fresh parens ps hps r
  simp only [Node.pieces, List.append_assoc, List.cons_append, List.nil_append]
  refine quiet_lead (fun r => ?_) r
  rw [quiet_sign r (by simp) rfl, quiet_sign false (by simp) rfl]
  refine quiet_args ha _ _ _ ?_
  simpa [quiet] using hps

theorem quiets_binary {info : Info} {op : BinaryOp} {left right : Node}
    {parenthesized broken : Bool} (hl : Quiets final left) (hr : Quiets final right) :
    Quiets final (.binary info op left right parenthesized broken) := by
  intro indent fresh parens ps hps r
  simp only [Node.pieces, List.append_assoc, List.cons_append]
  -- What stands alone or between parentheses.
  have hcore : ∀ (inner : List Char) (qs : List Piece), quiet final false qs = true →
      ∀ r, quiet final r (left.pieces inner false (Node.looserLeft op.precedence left) ++
        .blank [' '] :: .sign ⟨.binary op, op.spelling.toList⟩ ::
        .blank [if broken then '\n' else ' '] ::
        (right.pieces inner broken (Node.looserRight op.precedence right) ++ qs)) = true := by
    intro inner qs hqs r
    refine hl inner false _ _ ?_ r
    simpa [quiet, TokenKind.closes] using hr inner broken _ qs hqs false
  refine quiet_lead (fun r => ?_) r
  cases hp : parens || parenthesized with
  | true =>
    simp only [if_true, List.cons_append, List.nil_append]
    rw [quiet_sign r (by simp) rfl]
    refine hcore _ _ ?_ false
    rw [quiet_close rfl]
    exact hps
  | false => exact hcore _ _ hps r

theorem quiets_chain {info : Info} {op : ChainOp} {left right : Node} (hl : Quiets final left)
    (hr : Quiets final right) : Quiets final (.chain info op left right) := by
  intro indent fresh parens ps hps r
  simp only [Node.pieces, List.append_assoc, List.cons_append]
  refine hl indent fresh false _ ?_ r
  rw [quiet]
  refine quiet_lead (fun r => ?_) false
  rw [quiet_sign r (by simp) rfl]
  exact hr _ _ _ ps hps false

theorem quiets_literal {n : Node} {g : Sign} (hg : n.literalSign? = some g) : Quiets final n := by
  intro indent fresh parens ps hps r
  have hk := Node.kind_of_literalSign? hg
  have hkinds : ∀ kind ∈ Node.literalKinds, kind ≠ .comment ∧ kind.closes = false := by decide
  obtain ⟨hne, hclose⟩ := hkinds _ hk
  rw [Node.pieces_of_literalSign? hg, List.append_assoc]
  exact quiet_lead (fun r => (quiet_sign r hne hclose).trans hps) r

theorem quiets_unary {info : Info} {op : UnaryOp} {operand : Node} (h : Quiets final operand) :
    Quiets final (.unary info op operand) := by
  intro indent fresh parens ps hps r
  simp only [Node.pieces, List.append_assoc, List.cons_append]
  refine quiet_lead (fun r => ?_) r
  rw [quiet_sign r op.tokenKind_ne_comment (by cases op <;> rfl)]
  exact h _ _ _ ps hps false

/-- No comment of a spellable tree stands before a closing mark. -/
theorem Spellable.quiets {place : Place} {n : Node} (h : Spellable place n) (final : Bool) :
    Quiets final n := by
  induction h with
  | literal hg | headLiteral hg | itemLiteral hg => exact quiets_literal hg
  | name | headName | baseName | stepName | itemName =>
    intro indent fresh parens ps hps r
    rw [Node.pieces]
    exact Identifier.quiet_pieces hps r
  | call _ _ _ ih | headCall _ _ _ ih | baseCall _ _ _ ih | stepCall _ _ _ ih =>
    exact quiets_call ih
  | unary _ _ ih | headUnary _ _ ih => exact quiets_unary ih
  | binary _ _ _ _ ihl ihr | headParens _ _ _ ihl ihr | headBinary _ _ _ _ ihl ihr =>
    exact quiets_binary ihl ihr
  | operation _ ih | express _ ih => exact ih
  | lambda _ _ ih =>
    intro indent fresh parens ps hps r
    simp only [Node.pieces, List.append_assoc, List.cons_append]
    refine quiet_lead (fun r => ?_) r
    rw [quiet_sign r (by simp) rfl]
    exact ih _ _ _ ps hps false
  | list _ _ ih =>
    intro indent fresh parens ps hps r
    simp only [Node.pieces, List.append_assoc, List.cons_append, List.nil_append]
    refine quiet_lead (fun r => ?_) r
    rw [quiet_sign r (by simp) rfl]
    refine quiet_items ih _ ?_
    rw [quiet_close rfl]
    exact hps
  | chain _ _ _ ihl ihr | baseChain _ _ _ ihl ihr => exact quiets_chain ihl ihr
  | declaration _ _ _ ih =>
    intro indent fresh parens ps hps r
    simp only [Node.pieces, List.append_assoc, List.cons_append]
    refine quiet_lead (fun r => ?_) r
    rw [quiet_sign r (by simp) rfl, quiet]
    refine Identifier.quiet_pieces ?_ false
    rw [quiet, quiet_sign false (by simp) rfl]
    exact ih _ _ _ ps hps false
  | typeDeclaration =>
    intro indent fresh parens ps hps r
    simp only [Node.pieces, List.append_assoc, List.cons_append]
    refine quiet_lead (fun r => ?_) r
    rw [quiet_sign r (by simp) rfl, quiet]
    refine Identifier.quiet_pieces ?_ false
    rw [quiet]
    exact Identifier.quiet_pieces hps false

end

/-- Whether a comment stands before the end. -/
def trails (remarked : Bool) : List Piece → Bool
  | [] => remarked
  | .blank _ :: ps => trails remarked ps
  | .sign g :: ps => trails (g.kind == .comment) ps

theorem trails_append {ps : List Piece} (h : ∀ r, trails r ps = true) (qs : List Piece) (r : Bool) :
    trails r (qs ++ ps) = true := by
  induction qs generalizing r with
  | nil => exact h r
  | cons q qs ih => cases q <;> exact ih _

theorem trails_of_quiet {r : Bool} {ps : List Piece} (h : quiet false r ps = true) :
    trails r ps = false := by
  induction ps generalizing r with
  | nil => simpa [quiet, trails] using h
  | cons p ps ih =>
    cases p with
    | blank b => exact ih h
    | sign g =>
      by_cases hc : g.kind = .comment
      · simp only [trails, hc, beq_self_eq_true]
        exact ih (by simpa [quiet, hc] using h)
      · simp only [trails, beq_eq_false_iff_ne.2 hc]
        simp only [quiet, hc, if_false, Bool.and_eq_true] at h
        exact ih h.2

/-- The slots of quiet pieces: none that closes something has a comment, and the end has one if
one stands there. -/
theorem slotsBehind_of_quiet (bytes : List UInt8) {final : Bool} (before : List Token)
    {ps : List Piece} (offset : Nat) (h : quiet final (!before.isEmpty) ps = true) :
    ∃ ts e, slotsBehind bytes before (tokensAt offset ps) = ts ++ [e] ∧ e.token.kind = .eof ∧
      ClosesBare ts ∧ e.comment.isSome = trails (!before.isEmpty) ps := by
  -- A comment joins those before the next slot; any other sign takes them.
  induction ps generalizing before offset with
  | nil =>
    refine ⟨[], ⟨⟨.eof, offset, ""⟩, Lookahead.foldComments bytes before⟩, rfl, rfl, ?_, ?_⟩
    · intro t ht
      simp at ht
    · cases before <;> rfl
  | cons p ps ih =>
    cases p with
    | blank b => exact ih _ _ h
    | sign g =>
      by_cases hc : g.kind = .comment
      · have hsome : ∀ t : Token, (before ++ [t]).isEmpty = false := by simp
        have ih := ih (before ++ [⟨g.kind, offset, String.ofList g.text⟩])
          (offset + Text.size g.text) (by simpa [quiet, hc, hsome] using h)
        rw [hsome] at ih
        simpa [tokensAt, slotsBehind, Lookahead.isComment, hc, trails] using ih
      · simp only [quiet, hc, if_false, Bool.and_eq_true] at h
        obtain ⟨ts, e, hts, he, hb, hfinal⟩ :=
          ih [] (offset + Text.size g.text) h.2
        simp only [tokensAt, slotsBehind, Lookahead.isComment, beq_eq_false_iff_ne.2 hc,
          Bool.false_eq_true, if_false, hts, trails]
        refine ⟨⟨⟨g.kind, offset, String.ofList g.text⟩, _⟩ :: ts, e, rfl, he, ?_, hfinal⟩
        intro t ht hk
        rcases List.mem_cons.1 ht with rfl | ht
        · have hbefore : before = [] := by
            have hk : g.kind.closes = true := hk
            simpa [hk] using h.1
          simp [hbefore, Lookahead.foldComments]
        · exact hb t ht hk

/-- The slots of a written text whose comments stand before signs that take them. -/
theorem slotsIn_of_quiet {final : Bool} {ps : List Piece} (h : Fitting .operand ps)
    (hq : quiet final false ps = true) :
    ∃ ts e, slotsIn (spelled ps) = ts ++ [e] ∧ Writes ts ps ∧ e.token.kind = .eof ∧
      ClosesBare ts ∧ e.comment.isSome = trails false ps := by
  obtain ⟨ts, e, hslots, he, hb, hcomment⟩ :=
    slotsBehind_of_quiet (Text.bytes (spelled ps)) [] 0 hq
  have hin : slotsIn (spelled ps) = ts ++ [e] := by
    rw [slotsIn, TokenStream.ofSource_fitting h]
    exact hslots
  have hsigns := slotsIn_fitting h
  rw [hin, List.map_append, List.map_singleton] at hsigns
  exact ⟨ts, e, hin, (List.append_inj' hsigns rfl).1, he, hb, hcomment⟩

/-! ## A comment at the end -/

theorem Comment.trails_lines {indent tail : List Char} (ps : List Piece)
    (hps : trails true ps = true) (lines : List String) :
    trails true ((continued indent tail lines).2 ++ ps) = true ∧
      trails true (remarks indent tail lines ++ ps) = true ∧
      ((∃ line ∈ lines, line ≠ gap) → ∀ r, trails r (remarks indent tail lines ++ ps) = true) := by
  induction lines with
  | nil => exact ⟨hps, hps, fun ⟨_, hm, _⟩ => by simp at hm⟩
  | cons line lines ih =>
    obtain ⟨ih₁, ih₂, ih₃⟩ := ih
    by_cases hl : line = gap
    · refine ⟨by simpa [continued, hl, trails] using ih₂, by simpa [remarks, hl, trails] using ih₂,
        ?_⟩
      rintro ⟨l, hm, hne⟩
      have hm : l ∈ lines := by
        rcases List.mem_cons.1 hm with rfl | hm
        · contradiction
        · exact hm
      simpa [remarks, hl, trails] using ih₃ ⟨l, hm, hne⟩
    · refine ⟨by simpa [continued, hl] using ih₁, by simpa [remarks, hl, trails] using ih₁, ?_⟩
      intro _ r
      simpa [remarks, hl, trails] using ih₁

/-- A comment behind the statements is delimited, disturbs nothing and stands before the end. -/
theorem trailing_pieces {trailing : Option Comment}
    (h : Remarked trailing) (first : Bool) :
    let ps := Node.statementPieces [] first (trailing.toList.map .comment)
    Delimits ps ∧ (∀ r, quiet true r ps = true) ∧ signsOf ps = [] ∧
      (trailing.isSome = true → ∀ r, trails r ps = true) ∧
      (trailing = none → quiet false false ps = true) := by
  cases trailing with
  | none => exact ⟨trivial, fun r => by cases r <;> rfl, rfl, by simp, fun _ => rfl⟩
  | some c =>
    have hline := Comment.TidyLines.exists_line (h c rfl)
    simp only [Option.toList_some, List.map_cons, List.map_nil, Node.statementPieces, Node.pieces]
    refine ⟨⟨List.all_eq_true.1 (by cases first <;> decide), ?_⟩, fun r => ?_, ?_, ?_, by simp⟩
    · refine delimits_lead h spaces_nil spaces_nil (fun _ => ?_)
        ⟨Text.isSpace_newline, trivial⟩
      intro d hd
      exact .inl (by simpa using hd.symm)
    · exact quiet_lead (fun r => by cases r <;> rfl) r
    · simp
    · intro _ r
      exact (Comment.trails_lines [.blank ['\n']] rfl c.lines).2.2 hline r

/-! ## Statements -/

/-- The statement `m` behind `n` does not go on with it: it does not begin with a parenthesis that
would call the name that `n` ends in, nor with a minus that would join it to `n`. -/
def Node.leavesOff (n m : Node) : Bool :=
  match signsOf (m.pieces [] true false) with
  | g :: _ =>
    !(n.endsInName false && g.kind == .lparen) &&
      !(n.takesOperator && g.kind == .binary .subtract)
  | [] => true

/-- No statement goes on with the one before it. -/
def Node.keptApart : List Node → Bool
  | n :: m :: ns => n.leavesOff m && keptApart (m :: ns)
  | _ => true

theorem Slot.ends_of_opens {n : Node} {t : Slot}
    (h : t.token.kind.opens = true ∨ t.token.kind = .var)
    (h₁ : n.endsInName false = true → t.token.kind ≠ .lparen)
    (h₂ : n.takesOperator = true → t.token.kind ≠ .binary .subtract) : t.Ends n := by
  refine ⟨h₁, fun op hk => ?_, fun ht => ?_⟩
  · rw [hk] at h
    simp [TokenKind.opens] at h
  · cases hj : t.token.kind.joining? 0 with
    | none => rfl
    | some op =>
      have hk := (TokenKind.joining?_eq_some hj).1
      have h₂ := h₂ ht
      rw [hk] at h h₂
      cases op <;> simp [TokenKind.opens] at h h₂

/-- The statements of a program are read back, and a comment behind them is read as one. -/
theorem reads_statements (bytes : List UInt8) {ns : List Node}
    (hs : ∀ n ∈ ns, Spellable .statement n) (ha : Node.keptApart ns = true)
    {ts : List Slot} {first : Bool} (hts : Writes ts (Node.statementPieces [] first ns)) {e : Slot}
    (he : e.token.kind = .eof) (hb : ClosesBare ts) :
    ∃ qs, EchoRuns bytes ns ts qs ∧
      Reads bytes (.statements none (qs ++ e.comment.toList.map .comment)) (ts ++ [e]) [e.bare]
        none := by
  induction ns generalizing ts first with
  | nil =>
    simp only [Writes, Node.statementPieces, signsOf_nil, List.map_eq_nil_iff] at hts
    subst hts
    exact ⟨[], ⟨rfl, rfl⟩, .done he⟩
  | cons n ns ih =>
    have hsigns : signsOf (Node.statementPieces [] first (n :: ns)) =
        signsOf (n.pieces [] true false) ++ signsOf (Node.statementPieces [] false ns) := by
      simp [Node.statementPieces]
    rw [Writes, hsigns] at hts
    obtain ⟨tn, tns, rfl, htn, htns⟩ := List.map_eq_append_iff.1 hts
    have hbn : ClosesBare tn := fun t ht => hb t (by simp [ht])
    have hbns : ClosesBare tns := fun t ht => hb t (by simp [ht])
    have ha' : Node.keptApart ns = true := by
      cases ns with
      | nil => rfl
      | cons => exact (Bool.and_eq_true_iff.1 ha).2
    obtain ⟨qs, hqs, hreads⟩ := ih (fun m hm => hs m (by simp [hm])) ha' htns hbns
    -- The slot behind the statement: the first of the next statement, or the end.
    obtain ⟨t, rest, hrest, hend⟩ : ∃ t rest, tns ++ [e] = t :: rest ∧ t.Ends n := by
      cases ns with
      | nil =>
        simp only [Node.statementPieces, signsOf_nil, List.map_eq_nil_iff] at htns
        subst htns
        exact ⟨e, [], rfl, Slot.ends_of_kind he (by simp)⟩
      | cons m ms =>
        obtain ⟨g, gs, hg, hk⟩ := (hs m (by simp)).signsOf_eq_cons [] true false
        have happart := (Bool.and_eq_true_iff.1 ha).1
        simp only [Node.leavesOff, hg, Bool.and_eq_true, Bool.not_eq_true', Bool.and_eq_false_imp,
          beq_eq_false_iff_ne] at happart
        have hsplit : signsOf (Node.statementPieces [] false (m :: ms)) =
            g :: (gs ++ signsOf (Node.statementPieces [] false ms)) := by
          simp [Node.statementPieces, hg]
        rw [hsplit] at htns
        obtain ⟨t, rest, rfl, ht, -⟩ := List.map_eq_cons_iff.1 htns
        subst ht
        refine ⟨t, rest ++ [e], rfl, Slot.ends_of_opens ?_ happart.1 happart.2⟩
        rcases hk with hk | ⟨-, hk⟩
        · exact .inl hk
        · exact .inr hk
    obtain ⟨g, gs, hg, hk⟩ := (hs n (by simp)).signsOf_eq_cons [] true false
    have hread := (hs n (by simp)).readsBack bytes [] true tn htn
    obtain ⟨b, tb, rfl, hbg, -⟩ := List.map_eq_cons_iff.1 (htn.trans hg)
    obtain ⟨q, left, hq, hr⟩ := hread t rest hend
    have heof : b.token.kind ≠ .eof := by
      intro hk'
      rw [← hbg, show b.sign.kind = .eof from hk'] at hk
      simp [TokenKind.opens] at hk
    rw [← hrest] at hr
    obtain rfl := hr.left_eq_none rfl rfl hbn
    refine ⟨q :: qs, ⟨b :: tb, tns, q, qs, rfl, rfl, hq, hqs⟩, ?_⟩
    rw [List.append_assoc]
    exact .more heof hr hreads

theorem quiet_statements {final : Bool} {ns : List Node} (h : ∀ n ∈ ns, Quiets final n)
    (indent : List Char) (first : Bool) {ps : List Piece} (hps : quiet final false ps = true) :
    quiet final false (Node.statementPieces indent first ns ++ ps) = true := by
  induction ns generalizing first with
  | nil => simpa [Node.statementPieces] using hps
  | cons n ns ih =>
    have ih := ih (fun m hm => h m (by simp [hm])) false
    have hn := h n (by simp) indent true false (.blank ['\n'] :: _) ih false
    simpa [Node.statementPieces, quiet] using hn

theorem delimits_statements {ns : List Node} (h : ∀ n ∈ ns, Settles n) {indent : List Char}
    (hi : Spaces indent) (first : Bool) {ps : List Piece} (hps : Delimits ps) :
    Delimits (Node.statementPieces indent first ns ++ ps) := by
  induction ns generalizing first with
  | nil => simpa [Node.statementPieces] using hps
  | cons n ns ih =>
    have ih := ih (fun m hm => h m (by simp [hm])) false
    simp only [Node.statementPieces, List.cons_append, List.append_assoc]
    refine ⟨List.all_eq_true.1 (by cases first <;> decide), ?_⟩
    exact h n (by simp) indent true false _ hi (clear_cons _ (by decide))
      ⟨Text.isSpace_newline, ih⟩

theorem Node.statementPieces_append (indent : List Char) (first : Bool) (ns ms : List Node) :
    Node.statementPieces indent first (ns ++ ms) =
      Node.statementPieces indent first ns ++
        Node.statementPieces indent (first && ns.isEmpty) ms := by
  induction ns generalizing first with
  | nil => simp [Node.statementPieces]
  | cons n ns ih => simp [Node.statementPieces, ih]

theorem Node.sameAll_append {as bs cs ds : List Node} (h : Node.sameAll as cs = true)
    (h' : Node.sameAll bs ds = true) : Node.sameAll (as ++ bs) (cs ++ ds) = true := by
  induction as generalizing cs with
  | nil =>
    cases cs with
    | nil => exact h'
    | cons c cs => simp [Node.sameAll] at h
  | cons a as ih =>
    cases cs with
    | nil => simp [Node.sameAll] at h
    | cons c cs =>
      simp only [Node.sameAll, Bool.and_eq_true] at h
      simp [Node.sameAll, h.1, ih h.2]

/-- The statements of a program with a comment behind them. -/
def Node.withTrailing (ns : List Node) (trailing : Option Comment) : List Node :=
  ns ++ trailing.toList.map .comment

section

variable {position : Position} {ns : List Node} {trailing : Option Comment}
  (hs : ∀ n ∈ ns, Spellable .statement n) (ha : Node.keptApart ns = true)
  (ht : Remarked trailing)
  (hp : Placed .operand (Node.statementPieces [] true (Node.withTrailing ns trailing)) = true)

include hs ha ht hp

/-- What is parsed from the canonical text of a program of spellable statements, if the scanner
arrives at every sign in a mode that suits it and no statement goes on with the one before it. -/
theorem parse_render_echo :
    let ps := Node.statementPieces [] true (Node.withTrailing ns trailing)
    let bytes := Text.bytes (spelled ps)
    Delimits ps ∧ ∃ ts e qs, slotsIn (spelled ps) = ts ++ [e] ∧ ClosesBare ts ∧
      Writes ts (Node.statementPieces [] true ns) ∧ EchoRuns bytes ns ts qs ∧
      e.comment.isSome = trailing.isSome ∧
      parse (Node.program position (Node.withTrailing ns trailing)).render =
        .ok (.program (.locate bytes 0) (Node.withTrailing qs e.comment)) := by
  intro ps bytes
  let rest := Node.statementPieces [] ns.isEmpty (trailing.toList.map Node.comment)
  have hps : ps = Node.statementPieces [] true ns ++ rest := by
    simp only [ps, rest, Node.withTrailing, Node.statementPieces_append, Bool.true_and]
  obtain ⟨hdr, hqr, hsr, hsome, hnone⟩ := trailing_pieces ht ns.isEmpty
  have hd : Delimits ps := by
    rw [hps]
    exact delimits_statements (fun n hn => (hs n hn).settles) spaces_nil true hdr
  have hq : quiet true false ps = true := by
    rw [hps]
    exact quiet_statements (fun n hn => (hs n hn).quiets _) [] true (hqr false)
  -- The pieces are scanned, the last slot is that of the end, and the statements are read from the
  -- others.
  obtain ⟨ts, e, hin, hts, he, hb, hcomment⟩ := slotsIn_of_quiet (fitting_of_delimits hd hp) hq
  have htrail : e.comment.isSome = trailing.isSome := by
    rw [hcomment, hps]
    cases trailing with
    | none =>
      exact trails_of_quiet (quiet_statements (fun n hn => (hs n hn).quiets _) [] true (hnone rfl))
    | some c => exact trails_append (hsome rfl) _ _
  have hts' : Writes ts (Node.statementPieces [] true ns) := by
    rw [Writes, hts, hps, signsOf_append, hsr, List.append_nil]
  obtain ⟨qs, hqs, hreads⟩ := reads_statements bytes hs ha hts' he hb
  rw [← hin] at hreads
  refine ⟨hd, ts, e, qs, hin, hb, hts', hqs, htrail, ?_⟩
  rw [Node.render_eq_spelled]
  exact parse_of_reads hreads

/-- Such a program is parsed back with the same meaning. -/
theorem parse_render_statements :
    ∃ q, parse (Node.program position (Node.withTrailing ns trailing)).render = .ok q ∧
      q.same (.program position (Node.withTrailing ns trailing)) = true := by
  obtain ⟨-, ts, e, qs, -, -, -, hqs, htrail, hparse⟩ := parse_render_echo hs ha ht hp
  refine ⟨_, hparse, Node.sameAll_append hqs.same ?_⟩
  cases hec : e.comment <;> cases hct : trailing <;> simp [hec, hct] at htrail <;> rfl

end

/-- An operation is parsed back from its canonical text as the body of a lambda, if the scanner
arrives at every sign in a mode that suits it. -/
theorem parseLambda_render_operation {n : Node} (hs : Spellable .operation n)
    (hp : Placed .operand (n.pieces [] true false) = true) :
    ∃ info q, parseLambda n.render = .ok (.lambda info q) ∧ q.same n = true := by
  let ps := n.pieces [] true false
  have hd : Delimits ps := by
    have := hs.settles [] true false [] spaces_nil clear_nil trivial
    rwa [List.append_nil] at this
  have hq : quiet true false ps = true := by
    have := hs.quiets true [] true false [] rfl false
    rwa [List.append_nil] at this
  obtain ⟨ts, e, hin, hts, he, -, -⟩ := slotsIn_of_quiet (fitting_of_delimits hd hp) hq
  obtain ⟨q, left, hecho, hreads⟩ :=
    (hs.readsBack (Text.bytes (spelled ps)) [] true false ts hts).operation []
      (fun _ => by rw [he]; simp) (by rw [he]; rfl)
  rw [← hin] at hreads
  refine ⟨⟨.locate (Text.bytes (spelled ps)) 0, none⟩, q, ?_, hecho.same⟩
  rw [Node.render_eq_spelled]
  exact parseLambda_of_reads he hreads

end PipelineScript

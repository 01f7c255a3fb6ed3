import PipelineScript.Proofs.Prefixed
import PipelineScript.Proofs.Shape

/-!
The body of a lambda by itself and behind `lambda:`.

`parseLambda` reads a text as `parse` reads it behind `lambda:`, but for a text that begins with a
regex or a star, which is the body of a lambda only by itself: behind `lambda:` the scanner takes
their signs for operators.

Where the tokens are the same, the same operation is read, with other places, and comments may
stand beside other tokens. Where they are not, there is no operand behind `lambda:`.
-/
namespace PipelineScript

section

variable {engine : PatternEngine}

/-! ## The same operation elsewhere -/

section

open PipelineScript.Parser

variable {bytes bytes' : List UInt8} {ts us : List Token} {t : Slot} {n : Node}
  {as after : List Slot} {left : Option Comment}

/-- A reader at the beginning of a stream that ends. -/
def Lookahead.before (bytes : List UInt8) (ts : List Token) : Lookahead where
  bytes := bytes
  pending := ts
  ending := .ended
  newest := emptySlot
  older := emptySlot
  held := 0

theorem Lookahead.before_at (bytes : List UInt8) (ts : List Token) :
    (before bytes ts).At bytes .ended emptySlot (slotsOf bytes ts) :=
  ⟨rfl, rfl, rfl, rfl, Nat.zero_le _⟩

/-- Streams that end are never cut off. -/
def Ends.ended : Ends := ⟨.ended, False, False.elim⟩

/-- **The same tokens are the same operation**, whatever comments stand beside them. -/
theorem Reads.operation_along (h : Reads bytes (.operation n) (slotsOf bytes ts) (t :: after) left)
    (halong : Along Ends.ended.cut (grammarTokens ts) (grammarTokens us))
    (hus : Sealed .ended (slotsOf bytes' us)) :
    ∃ n' t' after' left', Reads bytes' (.operation n') (slotsOf bytes' us) (t' :: after') left' ∧
      SameNode n n' ∧ t.token.Alike t'.token := by
  have hs := Lookahead.before_at bytes ts
  have ht := Lookahead.before_at bytes' us
  have hempty : Lookahead.emptySlot.token.Alike Lookahead.emptySlot.token := ⟨rfl, rfl, trivial⟩
  have htwins : Twins .ended (.before bytes ts) (.before bytes' us) :=
    ⟨rfl, rfl, rfl, hempty, hempty, halong⟩
  obtain ⟨s₁, last₁, hrun, hs₁, -⟩ :=
    (follows bytes (4 * (slotsOf bytes ts).length + 4)).1 h (by simp only [Phrase.slack]; omega) hs
      trivial
  have hrun : Parser.operation (4 * (slotsOf bytes ts).length + 4) (.before bytes ts) = .ok n s₁ :=
    hrun
  have hstep := (operationsInStep .ended (4 * (slotsOf bytes ts).length + 4)
    (4 * (slotsOf bytes' us).length + 4)).operation htwins
  have hample :
      Ample False (Parser.operation (4 * (slotsOf bytes' us).length + 4) (.before bytes' us)) :=
    (suffices_fuel False bytes' _).1 (.operation default) ht trivial hus
      (by simp only [Phrase.slack]; omega) False.elim
  rw [hrun] at hstep
  cases hrun' : Parser.operation (4 * (slotsOf bytes' us).length + 4) (Lookahead.before bytes' us) with
  | error f t₁ =>
    have hproper := (hample f t₁ hrun').ne_exhausted
    rw [hrun'] at hstep
    cases hstep with
    | cutRight hcut => exact hcut.elim
    | exhaustedRight => exact absurd rfl hproper
  | ok n' t₁ =>
    rw [hrun'] at hstep
    cases hstep with
    | ok hsame htwins₁ =>
      obtain ⟨after', left', last', hreads, ht₁, -⟩ :=
        (keeps bytes' _).1 (.operation n') hrun' ht trivial hus
      have hrest := htwins₁.along hs₁ ht₁
      cases after' with
      | nil =>
        rw [List.map_cons] at hrest
        cases hrest with
        | outRight hcut => exact hcut.elim
      | cons t' after' =>
        rw [List.map_cons, List.map_cons] at hrest
        cases hrest with
        | cons htt' => exact ⟨n', t', after', left', hreads, hsame, htt'⟩

end

/-! ## What begins no operand -/

section

variable {bytes : List UInt8} {n : Node} {t : Slot} {ts after : List Slot} {left : Option Comment}

theorem UnaryOp.isInfix_tokenKind (op : UnaryOp) : op.tokenKind.isInfix = false := by
  cases op <;> rfl

/-- An operand begins neither with an operator that is read only where one may stand nor with a
diagnostic. -/
theorem Reads.operand_kind (h : Reads bytes (.operand n) (t :: ts) after left) :
    t.token.kind.isInfix = false ∧ t.token.kind ≠ .error := by
  cases h with
  | @unary _ _ _ op _ _ ht =>
    rw [ht]
    exact ⟨op.isInfix_tokenKind, by cases op <;> simp [UnaryOp.tokenKind]⟩
  | paren ht | number ht | string ht | bool ht | duration ht | regex ht | star ht | reference ht
  | name ht | applied ht =>
    rw [ht]
    exact ⟨rfl, by simp⟩

/-- Behind the sign `!` stands an operand. -/
theorem Reads.operand_not (h : Reads bytes (.operand n) (t :: ts) after left)
    (ht : t.token.kind = .not) : ∃ m rest left', Reads bytes (.operand m) ts rest left' := by
  cases h with
  | unary _ hn => exact ⟨_, _, _, hn⟩
  | paren hk | number hk | string hk | bool hk | duration hk | regex hk | star hk | reference hk
  | name hk | applied hk =>
    rw [hk] at ht
    cases ht

/-- An operation begins with an operand. -/
theorem Reads.exists_operand (h : Reads bytes (.operation n) ts after left) :
    ∃ m rest left', Reads bytes (.operand m) ts rest left' := by
  cases h with
  | operation hf _ => exact ⟨_, _, _, hf⟩

end

/-- Behind a token that is no comment the slots go on. -/
theorem slotsOf_cons (bytes : List UInt8) {t : Token} (ht : t.kind ≠ .comment) (ts : List Token) :
    slotsOf bytes (t :: ts) = ⟨t, none⟩ :: slotsOf bytes ts := by
  have hkeep : ¬Lookahead.isComment t = true := by simpa [Lookahead.isComment] using ht
  rw [slotsOf, slotsBehind, if_neg hkeep]
  rfl

/-- No operation begins with a binary operator. -/
theorem not_reads_of_isInfix {bytes : List UInt8} {n : Node} {u : Token} {us : List Token}
    {after : List Slot} {left : Option Comment} (hu : u.kind.isInfix = true) :
    ¬Reads bytes (.operation n) (slotsOf bytes (u :: us)) after left := by
  intro h
  have hne : u.kind ≠ .comment := by
    intro hk
    rw [hk] at hu
    cases hu
  obtain ⟨m, rest, left', hm⟩ := h.exists_operand
  rw [slotsOf_cons bytes hne] at hm
  rw [hm.operand_kind.1] at hu
  cases hu

/-- No operation begins with a diagnostic, and none with the sign `!` and a diagnostic. -/
theorem not_reads_of_error {bytes : List UInt8} {n : Node} {t : Token} {ts : List Token}
    {after : List Slot} {left : Option Comment}
    (h : t.kind = .error ∨ t.kind = .not ∧ ∃ u us, ts = u :: us ∧ u.kind = .error) :
    ¬Reads bytes (.operation n) (slotsOf bytes (t :: ts)) after left := by
  intro hn
  obtain ⟨m, rest, left', hm⟩ := hn.exists_operand
  rcases h with hk | ⟨hk, u, us, rfl, hu⟩
  · rw [slotsOf_cons bytes (by simp [hk])] at hm
    exact hm.operand_kind.2 hk
  · rw [slotsOf_cons bytes (by simp [hk])] at hm
    obtain ⟨m', rest', left'', hm'⟩ := hm.operand_not hk
    rw [slotsOf_cons bytes (by simp [hu])] at hm'
    exact hm'.operand_kind.2 hu

/-! ## Whole texts -/

section

variable {bytes : List UInt8} {n body : Node} {ns : List Node} {info : Info} {t : Slot}
  {ts before after : List Slot} {left₀ left : Option Comment}

/-- Where the text is not at its end, a statement is read. -/
theorem Reads.of_cons
    (h : Reads bytes (.statements left₀ (n :: ns)) (t :: ts) after left)
    (ht : t.token.kind ≠ .eof) :
    ∃ mid left₁, Reads bytes (.statement n) (t :: ts) mid left₁ ∧
      Reads bytes (.statements left₁ ns) mid after left := by
  generalize hns : n :: ns = ms at h
  cases h with
  | done hk => exact absurd hk ht
  | more _ hn hs =>
    cases hns
    exact ⟨_, _, hn, hs⟩

/-- Behind the word `lambda:` its body is read. -/
theorem Reads.operation_of_lambda
    (h : Reads bytes (.statement (.lambda info body)) (t :: ts) after left)
    (ht : t.token.kind = .lambda) : Reads bytes (.operation body) ts after left := by
  cases h with
  | express _ hexp =>
    cases hexp with
    | lambda _ hbody => exact hbody
    | unnamed _ hk => exact absurd ht hk
    | named hk | chained hk | callChained hk | callJoined hk =>
      rw [ht] at hk
      cases hk

/-- No statement is a comment. -/
theorem Shaped.isRemark_eq {part : Part} (h : Shaped part n) : n.isRemark = false := by
  induction h with
  | operandCall _ ih | operation _ ih | chained _ ih | baseCall _ ih | stepCall _ ih
  | express _ ih => exact ih
  | _ => rfl

/-- Only comments are left at the end of the text. -/
theorem Reads.exists_eof {comments : List Comment}
    (h : Reads bytes (.statements left₀ (comments.map .comment)) before after left)
    (hb : ∀ t ∈ before, t.token.Formed) : ∃ e rest, before = e :: rest ∧ e.token.kind = .eof := by
  generalize hns : comments.map Node.comment = ns at h
  cases h with
  | done he => exact ⟨_, _, rfl, he⟩
  | @more _ _ _ _ n _ _ _ _ _ hn _ =>
    obtain ⟨c, -, hc⟩ := List.mem_map.1 (hns ▸ List.mem_cons_self : n ∈ comments.map Node.comment)
    have hremark := Shaped.isRemark_eq (show Shaped .statement n from hn.shaped hb)
    rw [← hc] at hremark
    cases hremark

end

section

variable {source : String} {n body : Node} {info : Info} {position : Position} {t : Token}
  {us : List Token} {comments : List Comment}

/-- **The body of a lambda by itself** is an operation and the end of the text. -/
theorem parseLambda_eq_ok_iff :
    parseLambda source = .ok n ↔
      ∃ body t after left, n = .lambda ⟨.locate (Text.bytes source.toList) 0, none⟩ body ∧
        t.token.kind = .eof ∧
        Reads (Text.bytes source.toList) (.operation body) (slotsIn source.toList) (t :: after)
          left := by
  constructor
  · intro h
    have hs := Lookahead.ofSource_at source.toList
    have hsealed := sealed_slotsIn source.toList
    rw [parseLambda, Parser.runOn] at h
    split at h
    · rename_i n' s' hrun
      cases h
      rw [Parser.lambdaBody, Parser.depth_bind] at hrun
      obtain ⟨body, s₁, hbody, hrun⟩ := Parser.bind_eq_ok hrun
      obtain ⟨after, left, last, hreads, hs₁, -⟩ :=
        (keeps _ _).1 (.operation body) hbody hs trivial hsealed
      rw [Parser.bind_ok (Parser.locate_at hs₁ 0)] at hrun
      obtain ⟨token, s₂, heof, hrun⟩ := Parser.bind_eq_ok hrun
      obtain ⟨rfl, -⟩ := Parser.pure_eq_ok hrun
      obtain ⟨t, rest, rfl, ht, -⟩ := Parser.expect_eq_ok heof hs₁ (hreads.sealed hsealed)
      exact ⟨body, t, rest, left, rfl, ht, hreads⟩
    · cases h
  · rintro ⟨body, t, after, left, rfl, ht, hreads⟩
    have hparse := parseLambda_of_reads ht hreads
    rwa [String.ofList_toList] at hparse

theorem slotsIn_of_lambda (htokens : (tokenize source).tokens = t :: us) (ht : t.kind = .lambda) :
    slotsIn source.toList = ⟨t, none⟩ :: slotsOf (Text.bytes source.toList) us := by
  rw [slotsIn, show (TokenStream.ofSource source.toList).tokens = t :: us from htokens]
  exact slotsOf_cons _ (by simp [ht]) us

/-- **A script of one lambda** is the word, the body and the end of the text. -/
theorem parse_lambda_iff (htokens : (tokenize source).tokens = t :: us) (ht : t.kind = .lambda) :
    (∃ (position : Position) (info : Info) (comments : List Comment),
        parse source = .ok (.program position (.lambda info body :: comments.map .comment))) ↔
      ∃ e after left, e.token.kind = .eof ∧
        Reads (Text.bytes source.toList) (.operation body)
          (slotsOf (Text.bytes source.toList) us) (e :: after) left := by
  have hslots := slotsIn_of_lambda htokens ht
  have hne (kind : TokenKind) (hk : kind ≠ .lambda) : t.kind ≠ kind := by
    rw [ht]
    exact hk.symm
  constructor
  · rintro ⟨position, info, comments, h⟩
    obtain ⟨ns, after, left, hns, hreads⟩ := reads_of_parse h
    obtain ⟨-, rfl⟩ := Node.program.inj hns
    have hformed : ∀ a ∈ ⟨t, none⟩ :: slotsOf (Text.bytes source.toList) us, a.token.Formed :=
      fun a ha => (formed_of_mem_slotsIn (hslots ▸ ha)).token
    rw [hslots] at hreads
    obtain ⟨mid, left₁, hlambda, hrest⟩ := hreads.of_cons (hne _ (by decide))
    have hbody := hlambda.operation_of_lambda ht
    have hmid : ∀ a ∈ mid, a.token.Formed := hlambda.forall_mem_after rfl hformed
    obtain ⟨e, rest, rfl, he⟩ := hrest.exists_eof hmid
    exact ⟨e, rest, left₁, he, hbody⟩
  · rintro ⟨e, after, left, he, hbody⟩
    have hstatements : Reads (Text.bytes source.toList)
        (.statements none (.lambda (Slot.info (Text.bytes source.toList) ⟨t, none⟩) body ::
          (left.toList ++ e.comment.toList).map .comment))
        (slotsIn source.toList) (e.bare :: after) none := by
      rw [hslots]
      exact .more (hne _ (by decide)) (.express (hne _ (by decide)) (.lambda ht hbody)) (.done he)
    have hparse := parse_of_reads hstatements
    rw [String.ofList_toList] at hparse
    exact ⟨_, _, _, hparse⟩

/-- Two runs of tokens with the same signs are alike. -/
theorem along_of_map_sign {ts us : List Token} (hts : ∀ t ∈ ts, t.Formed)
    (h : ts.map Token.sign = us.map Token.sign) :
    Along Ends.ended.cut (grammarTokens ts) (grammarTokens us) := by
  have hsigns (ts : List Token) : (grammarTokens ts).map Token.sign =
      (ts.map Token.sign).filter (·.kind != .comment) := by
    rw [List.filter_map]
    rfl
  refine along_of_signs (i := 0) (fun t ht => hts t (List.mem_filter.1 ht).1)
    (fun h0 => absurd rfl h0) ?_
  rw [List.replicate_zero, List.append_nil, hsigns, hsigns, h]

/-- The lambda of a script is read by itself, from a text with the tokens of its body. -/
theorem parseLambda_of_parse_lambda {source' : String}
    (htokens : (tokenize source').tokens = t :: us)
    (ht : t.kind = .lambda) (hsigns : us.map Token.sign = (tokenize source).tokens.map Token.sign)
    (hended : (tokenize source).ending = .ended)
    (h : parse source' = .ok (.program position (.lambda info body :: comments.map .comment))) :
    ∃ n, parseLambda source = .ok n ∧ (Node.lambda info body).same n = true := by
  obtain ⟨e, after, left, he, hbody⟩ :=
    (parse_lambda_iff htokens ht).1 ⟨position, info, comments, h⟩
  have hformed : ∀ u ∈ us, u.Formed := by
    intro u hu
    refine (TokenStream.ofSource_yields source'.toList).1 u ?_
    rw [show (TokenStream.ofSource source'.toList).tokens = t :: us from htokens]
    exact List.mem_cons_of_mem _ hu
  have hsealed : Sealed .ended (slotsIn source.toList) :=
    fun _ => sealed_slotsIn source.toList hended
  obtain ⟨body', e', after', left', hbody', hsame, he'⟩ :=
    hbody.operation_along (along_of_map_sign hformed hsigns) hsealed
  exact ⟨_, parseLambda_eq_ok_iff.2 ⟨body', e', after', left', rfl, he'.kind ▸ he, hbody'⟩, hsame⟩

/-- The body of a lambda makes a script of one lambda, of a text with its tokens behind the word. -/
theorem parse_lambda_of_parseLambda {source' : String}
    (htokens : (tokenize source').tokens = t :: us)
    (ht : t.kind = .lambda) (hsigns : us.map Token.sign = (tokenize source).tokens.map Token.sign)
    (hended : (tokenize source').ending = .ended) (h : parseLambda source = .ok n) :
    ∃ (position : Position) (info : Info) (body : Node) (comments : List Comment),
      parse source' = .ok (.program position (.lambda info body :: comments.map .comment)) := by
  obtain ⟨body, e, after, left, -, he, hbody⟩ := parseLambda_eq_ok_iff.1 h
  have hslots : slotsIn source'.toList = ⟨t, none⟩ :: slotsOf (Text.bytes source'.toList) us :=
    slotsIn_of_lambda htokens ht
  have hsealed : Sealed .ended (slotsOf (Text.bytes source'.toList) us) := by
    intro _
    have hall := sealed_slotsIn source'.toList hended
    rw [hslots] at hall
    exact hall.tail ht rfl
  obtain ⟨body', e', after', left', hbody', -, he'⟩ :=
    hbody.operation_along
      (along_of_map_sign (TokenStream.ofSource_yields source.toList).1 hsigns.symm)
      hsealed
  obtain ⟨position, info, comments, hparse⟩ :=
    (parse_lambda_iff htokens ht).2 ⟨e', after', left', he'.kind ▸ he, hbody'⟩
  exact ⟨position, info, body', comments, hparse⟩

/-- **The two ways to read the body of a lambda agree**, but for a regex or a star at its
beginning: the text behind `lambda:` is a script of one lambda, with comments behind it at most,
just if it is the body of a lambda by itself and begins with neither. The two lambdas have the same
meaning. -/
theorem parse_lambda_iff_parseLambda (h : (tokenize source).ending = .ended) :
    ((∃ (position : Position) (info : Info) (body : Node) (comments : List Comment),
          parse ("lambda:" ++ source) =
            .ok (.program position (.lambda info body :: comments.map .comment))) ↔
        (∃ n, parseLambda source = .ok n) ∧
          ∃ first, (tokenize source).tokens.head? = some first ∧
            first.kind ≠ .regex ∧ first.kind ≠ .star) ∧
      ∀ {position : Position} {info : Info} {body n : Node} {comments : List Comment},
        parse ("lambda:" ++ source) =
            .ok (.program position (.lambda info body :: comments.map .comment)) →
          parseLambda source = .ok n → (Node.lambda info body).same n = true := by
  obtain ⟨first, rest, us, htokens, hlambda, hcases⟩ := tokenize_lambda h
  rw [htokens, List.head?_cons]
  rcases hcases with ⟨hkinds, hsigns, hended⟩ | ⟨hfirst, u, vs, rfl, hu⟩
  · rw [← htokens] at hsigns
    refine ⟨⟨?_, ?_⟩, ?_⟩
    · rintro ⟨position, info, body, comments, hparse⟩
      obtain ⟨n, hn, -⟩ := parseLambda_of_parse_lambda hlambda rfl hsigns h hparse
      exact ⟨⟨n, hn⟩, first, rfl, hkinds⟩
    · rintro ⟨⟨n, hn⟩, -⟩
      exact parse_lambda_of_parseLambda hlambda rfl hsigns hended hn
    · intro position info body n comments hparse hn
      obtain ⟨m, hm, hsame⟩ := parseLambda_of_parse_lambda hlambda rfl hsigns h hparse
      cases hm.symm.trans hn
      exact hsame
  · -- Behind `lambda:` stands an operator, and no body of a lambda.
    have hnone {position : Position} {info : Info} {body : Node} {comments : List Comment}
        (hparse : parse ("lambda:" ++ source) =
          .ok (.program position (.lambda info body :: comments.map .comment))) : False := by
      obtain ⟨e, after, left, -, hbody⟩ :=
        (parse_lambda_iff hlambda rfl).1 ⟨position, info, comments, hparse⟩
      exact not_reads_of_isInfix hu hbody
    refine ⟨⟨?_, ?_⟩, fun hparse => (hnone hparse).elim⟩
    · rintro ⟨position, info, body, comments, hparse⟩
      exact (hnone hparse).elim
    · rintro ⟨⟨n, hn⟩, first', hhead, hregex, hstar⟩
      cases hhead
      obtain ⟨body, e, after, left, -, -, hbody⟩ := parseLambda_eq_ok_iff.1 hn
      rw [slotsIn, show (TokenStream.ofSource source.toList).tokens = first :: rest from htokens]
        at hbody
      exact (not_reads_of_error ((hfirst.resolve_left hregex).resolve_left hstar) hbody).elim

end

end

open scoped PatternEngine

/-- A body between two comments. By itself the second comment is lost, behind `lambda:` it follows
the lambda. -/
theorem parse_lambda_iff_parseLambda_comments :
    (tokenize "// rate\n\"value\" > -2 // limit").ending = .ended ∧
      ∃ (position : Position) (info : Info) (body n : Node) (comments : List Comment),
        parse ("lambda:" ++ "// rate\n\"value\" > -2 // limit") =
            .ok (.program position (.lambda info body :: comments.map .comment)) ∧
          parseLambda "// rate\n\"value\" > -2 // limit" = .ok n ∧
          (Node.lambda info body).same n = true := by
  have hended : (tokenize "// rate\n\"value\" > -2 // limit").ending = .ended := by decide +kernel
  have hfirst : (tokenize "// rate\n\"value\" > -2 // limit").tokens.head? =
      some ⟨.comment, 0, "// rate\n"⟩ := by decide +kernel
  obtain ⟨n, hn, -⟩ := exists_ok_of_any (x := parseLambda "// rate\n\"value\" > -2 // limit")
    (P := fun _ => true) (by decide +kernel)
  obtain ⟨hiff, hsame⟩ := parse_lambda_iff_parseLambda hended
  obtain ⟨position, info, body, comments, hparse⟩ :=
    hiff.2 ⟨⟨n, hn⟩, _, hfirst, by decide, by decide⟩
  exact ⟨hended, position, info, body, n, comments, hparse, hn, hsame hparse hn⟩

/-- A star is a body by itself only. -/
example : (parseLambda "*").toOption.isSome = true ∧ (parse "lambda:*").toOption = none := by
  decide +kernel

end PipelineScript

import PipelineScript.Proofs.Encoding
import PipelineScript.Proofs.LambdaBody
import PipelineScript.Proofs.Quoting
import PipelineScript.Proofs.RoundTrip

/-!
Regexes as literals.

A regex is built from its pattern by a backslash before every slash, and reading drops those
backslashes again, so every pattern can be built, whatever slashes and backslashes it has. Written
behind `=~` it is read back just if it does not end in a backslash: one at the end hides the slash
that closes the literal, and the scanner finds no other one up to the end of the text
(`regexes_invertible`).

Of patterns nothing is used but that their text alone decides whether they are valid.
-/
namespace PipelineScript

section

variable {engine : PatternEngine}

/-- The text of a match of the name `x` with what a node is written as. -/
def matchText (n : Node) : String := "x =~ " ++ n.render

section

variable (pattern : Pattern) (literal : String)

theorem Node.render_regex :
    (Node.regex .built pattern literal).render = String.ofList ('/' :: (literal.toList ++ ['/'])) :=
  render_of_literalSign? rfl rfl

theorem toList_matchText :
    (matchText (.regex .built pattern literal)).toList =
      'x' :: ' ' :: '=' :: '~' :: ' ' :: '/' :: (literal.toList ++ ['/']) := by
  rw [matchText, Node.render_regex, String.toList_append, String.toList_ofList]
  simp

/-- The match is written as the tree that it is. -/
theorem matchText_regex :
    matchText (.regex .built pattern literal) =
      (Node.ofBinary .regexEqual (.ofName "x") (.regex .built pattern literal)).render := by
  rw [← String.toList_inj, toList_matchText]
  simp [Node.render, Node.renderAt, Node.ofBinary, Node.ofName, Node.renderIn, Node.head,
    Identifier.render, Identifier.ofName, Info.built, renderComment, lineStart,
    BinaryOp.spelling]

end

/-- What is built from a pattern that does not end in a backslash is read back behind `=~`. -/
theorem exists_parseLambda_match {pattern : String} {n : Node} (hn : Node.ofPattern pattern = .ok n)
    (h : pattern.toList.getLast? ≠ some '\\') :
    ∃ info q, parseLambda (Node.ofBinary .regexEqual (.ofName "x") n).render =
        .ok (.lambda info q) ∧ q.same (Node.ofBinary .regexEqual (.ofName "x") n) = true := by
  have hbuilt : Built .expression (Node.ofBinary .regexEqual (.ofName "x") n) :=
    .matching rfl (.inl rfl) rfl (.name ⟨by decide, rfl⟩) h hn
  have hplaced := hbuilt.arranged [] true false .operand [] rfl fun _ => rfl
  rw [List.append_nil] at hplaced
  exact parseLambda_render_operation hbuilt.spellable hplaced

/-- A tree with the meaning of a match is a match with a regex of that meaning. -/
theorem Node.exists_eq_match {q left right : Node}
    (h : q.same (.ofBinary .regexEqual left right) = true) :
    ∃ info left' right' parenthesized broken,
      q = .binary info .regexEqual left' right' parenthesized broken ∧
        right'.same right = true := by
  cases q with
  | binary info op left' right' parenthesized broken =>
    simp only [ofBinary, Node.same, Bool.and_eq_true, beq_iff_eq] at h
    obtain ⟨⟨rfl, -⟩, hright⟩ := h
    exact ⟨info, left', right', parenthesized, broken, rfl, hright⟩
  | _ => cases h

/-! ## A pattern that ends in a backslash -/

/-- A literal whose closing slash is hidden is not read behind `=~`. -/
theorem tokenize_match_fault {source : String} {rest : List Char}
    (hsource : source.toList = 'x' :: ' ' :: '=' :: '~' :: ' ' :: '/' :: rest)
    (h : Lexeme.closing '/' rest = none) :
    (tokenize source).tokens =
      [⟨.ident, 0, "x"⟩, ⟨.binary .regexEqual, 2, "=~"⟩, ⟨.error, 5, "unterminated regex"⟩] := by
  have hclear : Clear (' ' :: '=' :: '~' :: ' ' :: '/' :: rest) := clear_cons _ (by simp)
  have hname : Scanner.next ⟨source.toList, some ⟨.operand, 0, source.toList⟩⟩ =
      .token ⟨.ident, 0, "x"⟩
        (some ⟨.operator, 1, ' ' :: '=' :: '~' :: ' ' :: '/' :: rest⟩) := by
    have hfits : Sign.Fits ⟨.ident, ['x']⟩ .operand _ := Sign.fits_ident (by decide) hclear
    rw [hsource]
    exact hfits _ 0
  have hop : Scanner.next
        ⟨source.toList, some ⟨.operator, 1, ' ' :: '=' :: '~' :: ' ' :: '/' :: rest⟩⟩ =
      .token ⟨.binary .regexEqual, 2, "=~"⟩ (some ⟨.pattern, 4, ' ' :: '/' :: rest⟩) :=
    (Scanner.read_blank [' '] Text.isSpace_blank).trans
      (Sign.fits_binary .regexEqual (.inl rfl) _ 2)
  have hfault : Scanner.next ⟨source.toList, some ⟨.pattern, 4, ' ' :: '/' :: rest⟩⟩ =
      .token ⟨.error, 5, "unterminated regex"⟩ none := by
    have hread : Scanner.read source.toList ⟨.pattern, 5, '/' :: rest⟩ =
        Scan.fail 5 "unterminated regex" := by
      rw [Scanner.read_cons (by decide)]
      simp only [if_true, Scan.regex, h]
    exact (Scanner.read_blank [' '] Text.isSpace_blank).trans hread
  obtain ⟨k, hk⟩ : ∃ k, Text.size source.toList + 1 = k + 3 :=
    ⟨Text.size (source.toList.drop 2), by
      rw [hsource]
      simp only [List.drop, Text.size_cons, show 'x'.utf8Size = 1 from rfl,
        show ' '.utf8Size = 1 from rfl]
      omega⟩
  rw [tokenize, TokenStream.ofSource, hk, Scanner.ofSource, Scanner.run_succ hname,
    Scanner.run_succ hop, Scanner.run_succ hfault, Scanner.run_over]

/-- What is built from a pattern that ends in a backslash is not read behind `=~`: the text does
not come to its end. -/
theorem parseLambda_matchText_ne_ok {pattern : Pattern} {literal : String}
    (hclosing : Lexeme.closing '/' (literal.toList ++ ['/']) = none) (n : Node) :
    parseLambda (matchText (.regex .built pattern literal)) ≠ .ok n := by
  intro h
  obtain ⟨body, t, after, left, -, ht, hbody⟩ := parseLambda_eq_ok_iff.1 h
  have htokens := tokenize_match_fault (toList_matchText pattern literal) hclosing
  have hall : ∀ s ∈ slotsIn (matchText (.regex .built pattern literal)).toList,
      s.token.kind ≠ .eof := by
    rw [slotsIn, show (TokenStream.ofSource _).tokens = _ from htokens]
    simp [slotsOf, slotsBehind, Lookahead.isComment]
  exact hbody.forall_mem_after rfl hall t List.mem_cons_self ht

/-! ## Patterns as literals -/

/-- **Regexes are invertible.** A regex can be built from every pattern and matches that pattern.
Written behind `=~` it is read back as the right side of the match, unless the pattern ends in a
backslash: then nothing can be read. -/
theorem regexes_invertible (pattern : Pattern) :
    ∃ literal, Node.ofPattern pattern.text = .ok (.regex .built pattern literal) ∧
      ((∃ info info' left right parenthesized broken,
          parseLambda (matchText (.regex .built pattern literal)) =
              .ok (.lambda info (.binary info' .regexEqual left right parenthesized broken)) ∧
            right.same (.regex .built pattern literal) = true) ↔
        pattern.text.toList.getLast? ≠ some '\\') ∧
      (pattern.text.toList.getLast? = some '\\' →
        ∀ n, parseLambda (matchText (.regex .built pattern literal)) ≠ .ok n) := by
  have hbuilt := Json.Record.ofPattern_text pattern
  have hfails (h : pattern.text.toList.getLast? = some '\\') :
      ∀ n, parseLambda (matchText (.regex .built pattern
        (String.ofList (Text.escapeMark '/' pattern.text.toList)))) ≠ .ok n := by
    refine parseLambda_matchText_ne_ok ?_
    rw [String.toList_ofList]
    exact Sign.closing_escapeMark (by decide) h
  refine ⟨_, hbuilt, ⟨?_, fun h => ?_⟩, hfails⟩
  · rintro ⟨info, info', left, right, parenthesized, broken, hparse, -⟩ h
    exact hfails h _ hparse
  · obtain ⟨info, q, hparse, hsame⟩ := exists_parseLambda_match hbuilt h
    obtain ⟨info', left, right, parenthesized, broken, rfl, hright⟩ := Node.exists_eq_match hsame
    rw [← matchText_regex] at hparse
    exact ⟨info, info', left, right, parenthesized, broken, hparse, hright⟩

end

open scoped PatternEngine

/-- A slash behind one backslash and behind two is escaped again, and is read back. -/
theorem regexes_invertible_slashes :
    ∃ pattern literal, pattern.text = "a\\/b\\\\/" ∧
      Node.ofPattern pattern.text = .ok (.regex .built pattern literal) ∧
      ∃ info info' left right parenthesized broken,
        parseLambda (matchText (.regex .built pattern literal)) =
            .ok (.lambda info (.binary info' .regexEqual left right parenthesized broken)) ∧
          right.same (.regex .built pattern literal) = true := by
  have hvalid : PatternEngine.fault? "a\\/b\\\\/" = none := rfl
  have hlast : "a\\/b\\\\/".toList.getLast? ≠ some '\\' := by decide
  obtain ⟨literal, hbuilt, hread, -⟩ := regexes_invertible ⟨_, hvalid⟩
  exact ⟨_, literal, rfl, hbuilt, hread.2 hlast⟩

end PipelineScript

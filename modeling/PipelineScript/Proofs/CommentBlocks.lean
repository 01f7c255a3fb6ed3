import PipelineScript.Proofs.Offsets
import PipelineScript.Proofs.Tokens

/-!
Comments that are written and read again.

Comment tokens that stand one behind the other make one comment, with a block of lines for each of
them. It is written line by line at some indentation, with an empty line between two blocks. From
this text the scanner gives comment tokens again, and they make a comment with the same lines
(`Comment.exists_reread_of_run`).

The lines of such a comment have no newline in them and no blank at their ends, and each block has
one (`Comment.Tidy`). That is all that is needed of it, wherever it comes from
(`Comment.Tidy.exists_reread`).
-/
namespace PipelineScript

namespace Comment

/-- Where an operand is expected, and so behind every comment, the scanner takes a comment. -/
theorem placed_lines (indent tail : List Char) (lines : List String) :
    Placed .operand (continued indent tail lines).2 = true ∧
      Placed .operand (remarks indent tail lines) = true := by
  induction lines with
  | nil => simp [continued, remarks, Placed]
  | cons line lines ih =>
    by_cases h : line = gap
    · simpa [continued, remarks, if_pos h, Placed] using ih.2
    · simpa [continued, remarks, if_neg h, Placed, Sign.suits, TokenKind.modeAfter] using ih.1

/-- The text of a comment is divided into its blocks. -/
theorem tokenize_render {c : Comment} (h : ∀ line ∈ c.lines, line = gap ∨ '\n' ∉ line.toList)
    {indent : List Char} (hi : Margin indent) :
    tokenize (String.ofList (c.render indent true)) =
      ⟨tokensOf 0 (remarks indent [] c.lines) ++
        [⟨.eof, Text.size (c.render indent true), ""⟩], .ended⟩ := by
  have hspelled : c.render indent true = spelled (remarks indent [] c.lines) := by
    rw [(spelled_lines indent [] c.lines).2, List.append_nil]
    rfl
  have hend : EndsComment (spelled []) := by simp [EndsComment]
  have hdelimits : Delimits (remarks indent [] c.lines ++ []) :=
    (delimits_lines hi margin_nil hend trivial h).2
  rw [List.append_nil] at hdelimits
  have htokens := tokensAt_append 0 (remarks indent [] c.lines) []
  rw [List.append_nil, Nat.zero_add] at htokens
  rw [hspelled, tokenize, String.toList_ofList,
    TokenStream.ofSource_spelled hdelimits (placed_lines indent [] c.lines).2, htokens]
  rfl

/-- A tidy comment that is written is read again, line for line. -/
theorem Tidy.exists_reread {c : Comment} (h : c.Tidy) {indent : List Char} (hi : Margin indent) :
    ∃ again : List Token,
      tokenize (String.ofList (c.render indent true)) =
          ⟨again ++ [⟨.eof, Text.size (c.render indent true), ""⟩], .ended⟩ ∧
        (∀ t ∈ again, t.kind = .comment) ∧ joinTexts (again.map (·.text)) = c.lines := by
  refine ⟨_, tokenize_render h.lined hi, (kind_of_mem_tokensOf c.lines 0).2, ?_⟩
  rw [map_text_tokensOf]
  exact (joinTexts_lines hi margin_nil h).2.2

/-- The comment of some comment tokens of a script is tidy. -/
theorem tidy_of_run {source : List Char} {n : Nat} {run : List Token}
    (hrun : run <:+: (Scanner.run n (.ofSource source)).tokens)
    (hk : ∀ t ∈ run, t.kind = .comment) (hne : run ≠ []) (position : Position) :
    (ofTexts position (run.map (·.text))).Tidy := by
  have hstart : Text.suffixAt source (Cursor.mk .operand 0 source).offset =
      some (Cursor.mk .operand 0 source).rest := Text.suffixAt_size_append [] source
  have hformed := (Scanner.run_yields n hstart).1
  refine tidy_ofTexts position (by simpa using hne) fun text htext => ?_
  obtain ⟨t, ht, rfl⟩ := List.mem_map.1 htext
  have hcomment : t.Formed := hformed t (hrun.subset ht)
  rwa [Token.Formed, hk t ht] at hcomment

/-- **A comment block is written so that it is read again.** Of comment tokens that stand one behind
the other in a script the comment is made, and it is written at an indentation of spaces and tabs.
This text is nothing but comment tokens, which make a comment with the same lines and the same gaps
between them. -/
theorem exists_reread_of_run {source : String} {n : Nat} {run : List Token}
    (hrun : run <:+: (Scanner.run n (.ofSource source.toList)).tokens)
    (hk : ∀ t ∈ run, t.kind = .comment) (position : Position) {indent : List Char}
    (hi : ∀ c ∈ indent, c = ' ' ∨ c = '\t') :
    ∃ again : List Token,
      tokenize (String.ofList ((ofTexts position (run.map (·.text))).render indent true)) =
          ⟨again ++ [⟨.eof, Text.size ((ofTexts position (run.map (·.text))).render indent true),
            ""⟩],
            .ended⟩ ∧
        (∀ t ∈ again, t.kind = .comment) ∧
        ∀ position', (ofTexts position' (again.map (·.text))).lines =
          (ofTexts position (run.map (·.text))).lines := by
  have hmargin : Margin indent := by
    intro c hc
    rcases hi c hc with rfl | rfl <;> decide
  cases run with
  | nil =>
    exact ⟨[], tokenize_render (c := ofTexts position []) (by simp [ofTexts, joinTexts]) hmargin,
      by simp, fun _ => rfl⟩
  | cons t ts =>
    have htidy := tidy_of_run hrun hk (List.cons_ne_nil t ts) position
    obtain ⟨again, hagain, hcomments, hlines⟩ := htidy.exists_reread hmargin
    exact ⟨again, hagain, hcomments, fun _ => hlines⟩

/-- Three blocks, with lines that go on with a single slash, begin with a slash, a tab or a space of
their own, hold nothing, or end with a carriage return, behind a tab and a space. -/
theorem exists_reread_of_run_blocks :
    [⟨.comment, 2, "// x\n  / y\n\t///z\n"⟩, ⟨.comment, 20, "//\t w\n//\n"⟩,
          ⟨.comment, 32, "//  last \r\n"⟩] <:+:
        (Scanner.run 9
          (.ofSource "a // x\n  / y\n\t///z\n\n//\t w\n//\n\n  //  last \r\nb".toList)).tokens ∧
      ∃ (again : List Token) (offset : Nat),
        tokenize (String.ofList
            ((ofTexts .nowhere
              ["// x\n  / y\n\t///z\n", "//\t w\n//\n", "//  last \r\n"]).render
                ['\t', ' '] true)) =
          ⟨again ++ [⟨.eof, offset, ""⟩], .ended⟩ ∧
        (∀ t ∈ again, t.kind = .comment) ∧
        ∀ position, (ofTexts position (again.map (·.text))).lines =
          ["x", "/ y", "/z", gap, "\t w", "", gap, " last"] := by
  have hrun : [⟨.comment, 2, "// x\n  / y\n\t///z\n"⟩, ⟨.comment, 20, "//\t w\n//\n"⟩,
        ⟨.comment, 32, "//  last \r\n"⟩] <:+:
      (Scanner.run 9
        (.ofSource "a // x\n  / y\n\t///z\n\n//\t w\n//\n\n  //  last \r\nb".toList)).tokens := by
    decide +kernel
  have hlines : (ofTexts .nowhere
      ["// x\n  / y\n\t///z\n", "//\t w\n//\n", "//  last \r\n"]).lines =
        ["x", "/ y", "/z", gap, "\t w", "", gap, " last"] := by decide +kernel
  have hindent : ∀ c ∈ ['\t', ' '], c = ' ' ∨ c = '\t' := by simp
  obtain ⟨again, hagain, hcomments, hsame⟩ := exists_reread_of_run hrun (by simp) .nowhere hindent
  exact ⟨hrun, again, _, hagain, hcomments, fun position => (hsame position).trans hlines⟩

end Comment

end PipelineScript

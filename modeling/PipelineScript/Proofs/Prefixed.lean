import PipelineScript.Proofs.SameTokens

/-!
A text behind the word `lambda:`.

A scanner reads a text as it reads the same text behind another one, unless it gets lost at its
beginning: the only thing that it looks at apart from what follows is what a slash before a
character of more than one byte sends it back to, and that stands at the same distance.

Behind `lambda:` the scanner expects an operator, at the beginning of a text an operand.
`tokenize_lambda` says what comes of it. Either the first token is read alike, and with it all
others, or behind `lambda:` there is an operator that begins no operand, and by itself the text
begins with a regex, a star, or nothing that begins an operand either.
-/
namespace PipelineScript

/-! ## Behind another text -/

section

variable {start source cs : List Char} {offset : Nat} {c : Char}

namespace Scan

theorem slash_behind (start : List Char) (h : slash source offset cs ≠ .lost) :
    slash (start ++ source) (Text.size start + offset) cs =
      (slash source offset cs).moveTo (Text.size start + offset) := by
  cases cs with
  | nil => rfl
  | cons d ds =>
    simp only [slash] at h ⊢
    by_cases hd : d = '/'
    · rw [if_pos hd, if_pos hd]
      exact comment_moveTo.symm
    · rw [if_neg hd] at h ⊢
      rw [if_neg hd]
      by_cases hsize : d.utf8Size = 1
      · rw [if_pos hsize, if_pos hsize]
        exact regex_moveTo.symm
      · rw [if_neg hsize] at h ⊢
        rw [if_neg hsize]
        by_cases hback : offset + 1 < d.utf8Size
        · rw [if_pos hback] at h
          exact absurd rfl h
        · have hplace : Text.size start + offset + 1 - d.utf8Size =
              Text.size start + (offset + 1 - d.utf8Size) := by omega
          rw [if_neg hback] at h ⊢
          rw [if_neg (by omega), hplace, Text.suffixAt_behind]
          cases htext : Text.suffixAt source (offset + 1 - d.utf8Size) with
          | none =>
            rw [htext] at h
            exact absurd rfl h
          | some text => exact regex_moveTo.symm

theorem operand_slash : operand source offset '/' cs = slash source offset cs := rfl

theorem operand_behind (start : List Char) (h : operand source offset c cs ≠ .lost) :
    operand (start ++ source) (Text.size start + offset) c cs =
      (operand source offset c cs).moveTo (Text.size start + offset) := by
  by_cases hslash : c = '/'
  · subst hslash
    exact slash_behind start h
  · exact (operand_moveTo fun hc => absurd hc hslash).symm

end Scan

/-- The same place in a text that stands behind another one. -/
def Cursor.behind (start : List Char) (cursor : Cursor) : Cursor :=
  { cursor with offset := Text.size start + cursor.offset }

namespace Scanner

variable {cursor : Cursor} {after : Option Cursor} {t : Token}

/-- What is read at some place, seen from another text behind which it stands. -/
theorem moveTo_behind (start : List Char)
    (hk : Text.suffixAt source cursor.offset = some cursor.rest)
    (hread : read source cursor = .token t after) :
    (Scan.token t after).moveTo
        (Text.size start + cursor.offset + Text.size (Lexeme.blank cursor.rest).1) =
      .token { t with offset := Text.size start + t.offset } (after.map (Cursor.behind start)) := by
  rw [Scan.moveTo, offset_of_read hk hread, Nat.add_assoc]
  cases after with
  | none => rfl
  | some cursor₁ =>
    rw [Option.map_some, Option.map_some, Cursor.behind, (cut_of_read hk hread).stop_eq,
      Nat.add_assoc _ _ (Text.size _)]

/-- **A text is read alike behind another one**, unless the scanner gets lost. -/
theorem read_behind (start : List Char)
    (hk : Text.suffixAt source cursor.offset = some cursor.rest)
    (hread : read source cursor = .token t after) :
    read (start ++ source) (cursor.behind start) =
      .token { t with offset := Text.size start + t.offset } (after.map (Cursor.behind start)) := by
  have hfound : read source cursor ≠ .lost := by simp [hread]
  rw [← moveTo_behind start hk hread, ← hread]
  rw [read_skip source] at hfound
  rw [read_skip (start ++ source), read_skip source, Nat.add_assoc]
  simp only [Cursor.behind]
  rw [Nat.add_assoc]
  cases hrest : (Lexeme.blank cursor.rest).2 with
  | nil => rfl
  | cons c cs =>
    have hc := isSpace_of_blank hrest
    rw [hrest, read_cons hc] at hfound
    rw [read_cons hc, read_cons hc]
    cases hm : cursor.mode with
    | operand =>
      rw [hm] at hfound
      exact Scan.operand_behind start hfound
    | operator => exact Scan.operator_moveTo.symm
    | pattern =>
      refine (Scan.ite_moveTo (fun _ => Scan.regex_moveTo) fun hne => ?_).symm
      exact Scan.operand_moveTo fun hc => absurd hc hne

/-- The tokens of a text that come to an end are the same behind another text. -/
theorem run_behind (start : List Char) (limit more : Nat)
    (hk : ∀ cursor, after = some cursor → Text.suffixAt source cursor.offset = some cursor.rest)
    (he : (run limit ⟨source, after⟩).ending = .ended) :
    (run (limit + more) ⟨start ++ source, after.map (Cursor.behind start)⟩).tokens.map Token.sign =
        (run limit ⟨source, after⟩).tokens.map Token.sign ∧
      (run (limit + more) ⟨start ++ source, after.map (Cursor.behind start)⟩).ending = .ended := by
  induction limit generalizing after with
  | zero =>
    cases after with
    | none => simp [run_over]
    | some cursor =>
      obtain ⟨n, _, _, hlimit, -⟩ := exists_read_of_ended 0 (hk cursor rfl) he
      cases hlimit
  | succ limit ih =>
    cases after with
    | none => simp [run_over]
    | some cursor =>
      have hplace := hk cursor rfl
      obtain ⟨n, t, after, hlimit, hread, htokens, hended⟩ := exists_read_of_ended _ hplace he
      cases hlimit
      have hnext : next ⟨start ++ source, some (cursor.behind start)⟩ = _ :=
        read_behind start hplace hread
      rw [Option.map_some, htokens, Nat.add_right_comm, run_succ hnext]
      obtain ⟨hrest, hlast⟩ := ih (fun cursor₁ h₁ => keeps_of_read hplace (h₁ ▸ hread)) hended
      exact ⟨congrArg (t.sign :: ·) hrest, hlast⟩

end Scanner

end

/-! ## An operator in the place of an operand -/

namespace Scan

variable {source source' cs : List Char} {offset offset' back : Nat} {c : Char}

/-- What a scanner that expects an operand reads of a text that begins with a binary operator: a
regex, a star, a diagnostic, or the sign `!` and then, where the operator goes on, a diagnostic. -/
def Misreads : Scan → Prop
  | .token t next =>
    t.kind = .regex ∨ t.kind = .star ∨ t.kind = .error ∨
      t.kind = .not ∧ ∃ offset d ds, next = some ⟨.operand, offset, d :: ds⟩ ∧ (d = '=' ∨ d = '~')
  | _ => True

theorem misreads_fail {message : String} : (fail offset message).Misreads := .inr (.inr (.inl rfl))

theorem misreads_regex {text : List Char} : (regex offset back text).Misreads := by
  simp only [regex]
  repeat' split
  all_goals first | exact misreads_fail | exact .inl rfl | trivial

theorem misreads_slash (hcs : cs.head? ≠ some '/') : (slash source offset cs).Misreads := by
  cases cs with
  | nil => exact misreads_fail
  | cons d ds =>
    have hd : d ≠ '/' := by simpa using hcs
    simp only [slash, if_neg hd]
    repeat' split
    all_goals first | exact misreads_regex | trivial

/-- Only a comment begins with a slash alike in both modes. -/
theorem operator_slash (source : List Char) (offset : Nat) (cs : List Char) :
    operator source offset '/' cs = operand source offset '/' cs ∧ cs.head? = some '/' ∨
      (operator source offset '/' cs).isInfix = true ∧ cs.head? ≠ some '/' := by
  rw [operand_slash, operator.eq_def, if_neg (by decide), if_neg (by decide), if_neg (by decide),
    if_neg (by decide), if_pos rfl]
  cases cs with
  | nil => exact .inr ⟨rfl, by simp⟩
  | cons d ds =>
    by_cases hd : d = '/'
    · subst hd
      exact .inl ⟨rfl, rfl⟩
    · simp only [slash, if_neg hd]
      exact .inr ⟨rfl, by simpa using hd⟩

theorem exists_token_of_isInfix {s : Scan} (h : s.isInfix = true) :
    ∃ t next, s = .token t next ∧ t.kind.isInfix = true := by
  cases s with
  | token t next => exact ⟨t, next, rfl, h⟩
  | ended => cases h
  | lost => cases h

theorem isInfix_moveTo (s : Scan) (offset : Nat) : (s.moveTo offset).isInfix = s.isInfix := by
  cases s <;> rfl

theorem misreads_of_isInfix (h : (operator source offset c cs).isInfix = true) :
    (operand source' offset' c cs).Misreads := by
  by_cases hslash : c = '/'
  · subst hslash
    rcases operator_slash source offset cs with ⟨heq, hcs⟩ | ⟨-, hcs⟩
    · obtain ⟨ds, rfl⟩ := List.head?_eq_some_iff.1 hcs
      rw [heq] at h
      cases h
    · exact misreads_slash hcs
  by_cases hmark : c ∈ ['+', '%', '>', '<', '=']
  · simp only [List.mem_cons, List.not_mem_nil, or_false] at hmark
    rcases hmark with rfl | rfl | rfl | rfl | rfl <;> exact misreads_fail
  by_cases hstar : c = '*'
  · subst hstar
    exact .inr (.inl rfl)
  by_cases hnot : c = '!'
  · subst hnot
    cases cs with
    | nil => cases h
    | cons d ds =>
      refine .inr (.inr (.inr ⟨rfl, _, d, ds, rfl, ?_⟩))
      by_contra hd
      rw [not_or] at hd
      have hplain : operator source offset '!' (d :: ds) =
          emit .not offset ['!'] (d :: ds) .operand := by
        simp [operator, extended, hd.1, hd.2]
      rw [hplain] at h
      cases h
  · -- All other characters are read as where an operand is expected.
    simp only [List.mem_cons, List.not_mem_nil, or_false, not_or] at hmark
    obtain ⟨hplus, hpercent, hgreater, hless, hequal⟩ := hmark
    have hcommon : (operator source offset c cs).isPlain = true := by
      by_cases hminus : c = '-'
      · subst hminus
        rfl
      · rw [operator.eq_def, if_neg hplus, if_neg hminus, if_neg hstar, if_neg hpercent,
          if_neg hslash, if_neg hnot, if_neg hgreater, if_neg hless, if_neg hequal]
        exact isPlain_operand hslash
    rw [isPlain_of_isInfix h] at hcommon
    cases hcommon

/-- **How a text begins where an operator may stand**: with a token that begins it as well where an
operand is expected, and is no regex and no star; or with a binary operator. -/
theorem operator_cases (source : List Char) (offset : Nat) (c : Char) (cs : List Char) :
    operator source offset c cs = operand source offset c cs ∧
        (∀ t next, operand source offset c cs = .token t next →
          t.kind ≠ .regex ∧ t.kind ≠ .star) ∨
      (operator source offset c cs).isInfix = true := by
  by_cases hslash : c = '/'
  · subst hslash
    rcases operator_slash source offset cs with ⟨heq, hcs⟩ | ⟨h, -⟩
    · obtain ⟨ds, rfl⟩ := List.head?_eq_some_iff.1 hcs
      refine .inl ⟨heq, fun t next ht => ?_⟩
      cases ht
      exact ⟨by simp, by simp⟩
    · exact .inr h
  by_cases hstar : c = '*'
  · subst hstar
    exact .inr rfl
  refine (operator_eq hslash).imp (fun heq => ⟨heq, fun t next ht => ?_⟩) id
  have hcommon : (operand source offset c cs).isCommon = true := isCommon_operand hslash hstar
  rw [ht] at hcommon
  simp only [isCommon, Bool.and_eq_true, bne_iff_ne] at hcommon
  exact ⟨hcommon.1.2, hcommon.2⟩

end Scan

namespace Scanner

variable {source : List Char} {cursor : Cursor} {after : Option Cursor} {t : Token}

/-- What a text begins with behind another one if the scanner expects an operator there. -/
theorem read_operator_behind (start : List Char)
    (hk : Text.suffixAt source cursor.offset = some cursor.rest) (hm : cursor.mode = .operand)
    (hread : read source cursor = .token t after) :
    read (start ++ source) { cursor.behind start with mode := .operator } =
          .token { t with offset := Text.size start + t.offset }
            (after.map (Cursor.behind start)) ∧
        t.kind ≠ .regex ∧ t.kind ≠ .star ∨
      (read (start ++ source) { cursor.behind start with mode := .operator }).isInfix = true ∧
        (Scan.token t after).Misreads := by
  rw [← moveTo_behind start hk hread]
  have hskip := read_skip source cursor
  rw [hread] at hskip
  rw [read_skip (start ++ source)]
  simp only [Cursor.behind]
  cases hrest : (Lexeme.blank cursor.rest).2 with
  | nil =>
    rw [hrest] at hskip
    rw [hskip]
    refine .inl ⟨rfl, ?_⟩
    cases hskip
    exact ⟨by simp, by simp⟩
  | cons c cs =>
    have hc := isSpace_of_blank hrest
    rw [hrest, read_cons hc, hm] at hskip
    have hoperand : Scan.operand source
        (cursor.offset + Text.size (Lexeme.blank cursor.rest).1) c cs = .token t after := hskip.symm
    have hmoved (offset' : Nat) : Scan.operator (start ++ source) offset' c cs =
        (Scan.operator source (cursor.offset + Text.size (Lexeme.blank cursor.rest).1) c cs).moveTo
          offset' := Scan.operator_moveTo.symm
    rw [read_cons hc, ← hoperand]
    simp only [hmoved]
    rcases Scan.operator_cases source
      (cursor.offset + Text.size (Lexeme.blank cursor.rest).1) c cs with ⟨heq, hkinds⟩ | hop
    · exact .inl ⟨by rw [heq], hkinds t after hoperand⟩
    · exact .inr ⟨(Scan.isInfix_moveTo _ _).trans hop, Scan.misreads_of_isInfix hop⟩

/-- Where an operand is expected, the signs that go on the operators `!=` and `!~` are the end. -/
theorem exists_error (limit : Nat) {offset : Nat} {d : Char} {ds : List Char}
    (hk : Text.suffixAt source offset = some (d :: ds)) (hd : d = '=' ∨ d = '~')
    (he : (run limit ⟨source, some ⟨.operand, offset, d :: ds⟩⟩).ending = .ended) :
    ∃ t ts, (run limit ⟨source, some ⟨.operand, offset, d :: ds⟩⟩).tokens = t :: ts ∧
      t.kind = .error := by
  let cursor : Cursor := ⟨.operand, offset, d :: ds⟩
  have hplace : Text.suffixAt source cursor.offset = some cursor.rest := hk
  obtain ⟨n, t, after, rfl, hread, htokens, -⟩ := exists_read_of_ended limit hplace he
  refine ⟨t, _, htokens, ?_⟩
  have hspace : Text.isSpace d = false := by rcases hd with rfl | rfl <;> decide
  rw [read_cons hspace] at hread
  rcases hd with rfl | rfl <;> (cases hread; rfl)

end Scanner

section

open Scanner

variable {source : String}

/-- **A text behind `lambda:`**: its tokens are those that it has by itself, or it begins with an
operator there. -/
theorem tokenize_lambda (h : (tokenize source).ending = .ended) :
    ∃ first rest us, (tokenize source).tokens = first :: rest ∧
      (tokenize ("lambda:" ++ source)).tokens = ⟨.lambda, 0, "lambda:"⟩ :: us ∧
      ((first.kind ≠ .regex ∧ first.kind ≠ .star) ∧
          us.map Token.sign = (first :: rest).map Token.sign ∧
          (tokenize ("lambda:" ++ source)).ending = .ended ∨
        (first.kind = .regex ∨ first.kind = .star ∨ first.kind = .error ∨
            first.kind = .not ∧ ∃ t ts, rest = t :: ts ∧ t.kind = .error) ∧
          ∃ u vs, us = u :: vs ∧ u.kind.isInfix = true) := by
  let cursor : Cursor := ⟨.operand, 0, source.toList⟩
  have hk : Text.suffixAt source.toList cursor.offset = some cursor.rest :=
    Text.suffixAt_size_append [] _
  obtain ⟨n, first, after, hlimit, hread, htokens, hended⟩ := exists_read_of_ended _ hk h
  obtain rfl : Text.size source.toList = n := Nat.succ.inj hlimit
  have hkeeps := fun cursor (hafter : after = some cursor) => keeps_of_read hk (hafter ▸ hread)
  -- The word is read first, and the scanner expects an operator behind it.
  have hlambda : next (Scanner.ofSource (Sign.lambdaText ++ source.toList)) =
      .token ⟨.lambda, 0, "lambda:"⟩ (some ⟨.operator, 7, source.toList⟩) :=
    (Sign.fits_lambda : Sign.Fits ⟨.lambda, Sign.lambdaText⟩ .operand source.toList) _ 0
  have hstream : tokenize ("lambda:" ++ source) =
      run (Text.size source.toList + 7 + 1)
        (Scanner.ofSource (Sign.lambdaText ++ source.toList)) := by
    have hsource : ("lambda:" ++ source).toList = Sign.lambdaText ++ source.toList :=
      String.toList_append
    have hsize : Text.size Sign.lambdaText = 7 := by decide
    rw [tokenize, hsource, TokenStream.ofSource, Text.size_append, hsize, Nat.add_comm 7]
  rw [hstream, run_succ hlambda]
  refine ⟨first, _, _, htokens, rfl, ?_⟩
  rcases read_operator_behind Sign.lambdaText hk rfl hread with ⟨hbody, hkinds⟩ | ⟨hop, hmisreads⟩
  · have hnext : next ⟨Sign.lambdaText ++ source.toList, some ⟨.operator, 7, source.toList⟩⟩ = _ :=
      hbody
    obtain ⟨hrest, hlast⟩ := run_behind Sign.lambdaText _ 6 hkeeps hended
    have hrun := run_succ hnext (Text.size source.toList + 6)
    refine .inl ⟨hkinds, ?_, ?_⟩
    · exact (congrArg (fun stream => stream.tokens.map Token.sign) hrun).trans
        (congrArg (first.sign :: ·) hrest)
    · exact (congrArg TokenStream.ending hrun).trans hlast
  · refine .inr ⟨?_, ?_⟩
    · refine hmisreads.imp id (Or.imp id (Or.imp id fun hnot => ⟨hnot.1, ?_⟩))
      obtain ⟨offset, d, ds, rfl, hd⟩ := hnot.2
      exact exists_error _ (hkeeps _ rfl) hd hended
    · obtain ⟨u, after', hnext, hu⟩ := Scan.exists_token_of_isInfix hop
      have hnext :
          next ⟨Sign.lambdaText ++ source.toList, some ⟨.operator, 7, source.toList⟩⟩ = _ :=
        hnext
      have hrun := run_succ hnext (Text.size source.toList + 6)
      exact ⟨u, _, congrArg TokenStream.tokens hrun, hu⟩

end

end PipelineScript

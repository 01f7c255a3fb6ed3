import PipelineScript.Proofs.Again
import PipelineScript.Proofs.InBounds

/-!
What each state of the scanner reads.

A state that cuts off a token cuts off the one that `Scanner.read` gives, and leaves the scanner
before the rest of the text in the state that belongs to the mode behind the token (`Emits`). A
state that only finds out what kind of token comes goes on to another state (`Leads`).
-/
namespace PipelineScript

namespace ByteScanner

/-- A scanner between two tokens: its place and what it reads next stand for a cursor, if there is
one. In mode `pattern` it has passed over the white space and seen whether a slash follows. -/
def Meets (source : List Char) (emitted : Option Token) (cursor : Option Cursor)
    (next : Option ScanState) (s : ByteScanner) : Prop :=
  match cursor with
  | none => next = none ∧ s.emitted = emitted ∧ ∀ head ∈ s.past, head.InBounds source
  | some ⟨.operand, offset, rest⟩ => next = some .token ∧ s.At source emitted offset [] rest
  | some ⟨.operator, offset, rest⟩ =>
    next = some .binaryOperator ∧ s.At source emitted offset [] rest
  | some ⟨.pattern, offset, rest⟩ =>
    next = some (if (Lexeme.blank rest).2.head? = some '/' then .regex else .token) ∧
      s.At source emitted (offset + Text.size (Lexeme.blank rest).1) [] (Lexeme.blank rest).2

/-- A scanner that has just read what `scan` says. -/
def Emits (source : List Char) (scan : Scan) (next : Option ScanState) (s : ByteScanner) : Prop :=
  ∃ t cursor, scan = .token t cursor ∧ s.Meets source (some t) cursor next

section

variable {s : ByteScanner} {source lexeme rest cs : List Char} {emitted : Option Token}
variable {offset n : Nat} {c : Char}

/-! ### Ends of tokens -/

theorem emits_operand (kind : TokenKind) (h : s.At source emitted offset lexeme rest) :
    Gives (emitThen source kind .token) s
      (Emits source (Scan.emit kind offset lexeme rest .operand)) :=
  (emit_gives kind h).bind fun _ _ h₁ => gives_pure ⟨_, _, rfl, rfl, h₁⟩

theorem emits_operator (kind : TokenKind) (h : s.At source emitted offset lexeme rest) :
    Gives (emitThen source kind .binaryOperator) s
      (Emits source (Scan.emit kind offset lexeme rest .operator)) :=
  (emit_gives kind h).bind fun _ _ h₁ => gives_pure ⟨_, _, rfl, rfl, h₁⟩

theorem regexOrToken_gives {t : Token} (h : s.At source (some t) offset [] rest) :
    Gives (regexOrToken source) s
      (Emits source (.token t (some ⟨.pattern, offset, rest⟩))) := by
  refine (ignoreSpace_gives h).bind fun _ s₁ h₁ => (peek_gives h₁).bind ?_
  rintro _ s₂ ⟨rfl, h₂, -⟩
  exact gives_pure ⟨_, _, rfl, rfl, h₂⟩

theorem emits_pattern (kind : TokenKind) (h : s.At source emitted offset lexeme rest) :
    Gives (do emit source kind; regexOrToken source) s
      (Emits source (Scan.emit kind offset lexeme rest .pattern)) :=
  (emit_gives kind h).bind fun _ _ h₁ => regexOrToken_gives h₁

theorem emits_fail (message : String) (h : s.At source emitted offset lexeme rest) :
    Gives (error message) s (Emits source (Scan.fail offset message)) :=
  (error_gives message h).mono fun _ _ ⟨hn, h₁⟩ => ⟨_, _, rfl, hn, h₁.emitted_eq, h₁.past⟩

/-! ### Tokens between marks -/

/-- A token that reaches as far as its closing mark, or a diagnostic if there is none. -/
def upTo (kind : TokenKind) (offset : Nat) (lexeme : List Char) (mode : ScanMode)
    (message : String) : Option (List Char × List Char) → Scan
  | some (part, rest) => Scan.emit kind offset (lexeme ++ part) rest mode
  | none => Scan.fail offset message

theorem upTo_keep (kind : TokenKind) (mode : ScanMode) (message : String)
    (parts : Option (List Char × List Char)) :
    upTo kind offset lexeme mode message (parts.map (Lexeme.keep c)) =
      upTo kind offset (lexeme ++ [c]) mode message parts := by
  cases parts <;> simp [upTo, Lexeme.keep]

theorem lexClosing_gives (mark : Char) {kind : TokenKind} {next : ScanState} {mode : ScanMode}
    (message : String)
    (hemit : ∀ {s : ByteScanner} {lexeme rest : List Char},
      s.At source none offset lexeme rest →
      Gives (emitThen source kind next) s (Emits source (Scan.emit kind offset lexeme rest mode)))
    (h : s.At source none offset lexeme rest) (hn : rest.length < n) :
    Gives (lexClosing source mark kind next message n) s
      (Emits source (upTo kind offset lexeme mode message (Lexeme.closing mark rest))) := by
  -- By induction on the fuel. What has been read goes along in `lexeme`, so the parts that
  -- `closing` finds in the rest are put behind it (`upTo_keep`).
  induction n generalizing s lexeme rest with
  | zero => omega
  | succ n ih =>
    rw [lexClosing]
    refine (nextChar_gives h).bind ?_
    rintro _ s₁ ⟨rfl, h₁⟩
    cases rest with
    | nil => exact emits_fail message h₁.1
    | cons c cs =>
      simp only [List.head?_cons]
      rw [List.length_cons] at hn
      by_cases hc : c = '\\'
      · -- the backslash hides a mark behind it
        simp only [if_pos hc]
        cases cs with
        | nil =>
          refine (accept_left h₁.1 rfl).bind fun _ s₂ h₂ => ?_
          simpa [Lexeme.closing, hc, upTo] using ih h₂ (by simpa using hn)
        | cons d ds =>
          rw [List.length_cons] at hn
          by_cases hd : d = mark
          · refine (accept_taken h₁.1 (by simp [hd])).bind fun _ s₂ h₂ => ?_
            rw [Lexeme.closing, if_pos hc]
            simp only [if_pos hd]
            rw [upTo_keep, upTo_keep]
            exact ih h₂ (by omega)
          · refine (accept_left h₁.1 (by simpa using hd)).bind fun _ s₂ h₂ => ?_
            rw [Lexeme.closing, if_pos hc]
            simp only [if_neg hd]
            rw [upTo_keep]
            exact ih h₂ (by rw [List.length_cons]; omega)
      · simp only [if_neg hc]
        rw [Lexeme.closing_cons hc]
        by_cases hm : c = mark
        · simp only [if_pos hm]
          exact hemit h₁.1
        · simp only [if_neg hm]
          rw [upTo_keep]
          exact ih h₁.1 (by omega)

theorem lexReference_gives (h : s.At source none offset ['"'] cs) :
    Gives (lexReference source) s (Emits source (Scan.reference offset cs)) := by
  have hg := lexClosing_gives '"' "unterminated field reference"
    (emits_operator .reference) h h.length_lt
  rw [Scan.reference]
  exact hg

theorem lexRegex_gives (h : s.At source none offset [] ('/' :: cs)) :
    Gives (lexRegex source) s (Emits source (Scan.regex offset 0 ('/' :: cs))) := by
  refine (nextChar_cons h).bind ?_
  rintro _ s₁ ⟨rfl, h₁, -⟩
  simp only [if_true]
  have hg := lexClosing_gives '/' "unterminated regex" (emits_operand .regex) h₁ h₁.length_lt
  have hscan : Scan.regex offset 0 ('/' :: cs) =
      upTo .regex offset ['/'] .operand "unterminated regex" (Lexeme.closing '/' cs) := by
    rw [Scan.regex, if_pos rfl]
    cases Lexeme.closing '/' cs <;> simp [upTo, Text.suffixAt]
  rw [hscan]
  exact hg

/-- Behind a slash at the end of the script there is no regex. -/
theorem lexRegex_nil (h : s.At source none offset lexeme []) :
    Gives (lexRegex source) s (Emits source (Scan.fail offset "unterminated regex")) := by
  refine (nextChar_gives h).bind ?_
  rintro _ s₁ ⟨rfl, h₁⟩
  exact emits_fail _ h₁.1

theorem lexQuoted_gives (total : Nat) {count : Nat} (h : s.At source none offset lexeme rest)
    (hn : rest.length < n) :
    Gives (lexQuoted source total count n) s
      (Emits source (upTo .string offset lexeme .operator "unterminated string"
        (Lexeme.closingQuotes total count rest))) := by
  -- As for one mark, and `count` quotes of `total` are still to come.
  induction n generalizing s lexeme rest count with
  | zero => omega
  | succ n ih =>
    rw [lexQuoted]
    refine (nextChar_gives h).bind ?_
    rintro _ s₁ ⟨rfl, h₁⟩
    cases rest with
    | nil =>
      simp only [List.head?_nil, Lexeme.closingQuotes]
      exact emits_fail _ h₁.1
    | cons c cs =>
      simp only [List.head?_cons]
      rw [List.length_cons] at hn
      by_cases hc : c = '\\' ∧ count = 1
      · -- the backslash hides a quote behind it
        simp only [if_pos hc]
        obtain ⟨hb, rfl⟩ := hc
        cases cs with
        | nil =>
          refine (accept_left h₁.1 rfl).bind fun _ s₂ h₂ => ?_
          simpa [Lexeme.closingQuotes, hb, upTo] using ih h₂ (by simpa using hn)
        | cons d ds =>
          rw [List.length_cons] at hn
          by_cases hd : d = '\''
          · refine (accept_taken h₁.1 (by simp [hd])).bind fun _ s₂ h₂ => ?_
            rw [Lexeme.closingQuotes, if_pos ⟨hb, rfl⟩]
            simp only [if_pos hd]
            rw [upTo_keep, upTo_keep]
            exact ih h₂ (by omega)
          · refine (accept_left h₁.1 (by simpa using hd)).bind fun _ s₂ h₂ => ?_
            rw [Lexeme.closingQuotes, if_pos ⟨hb, rfl⟩]
            simp only [if_neg hd]
            rw [upTo_keep]
            exact ih h₂ (by rw [List.length_cons]; omega)
      · simp only [if_neg hc]
        rw [Lexeme.closingQuotes_cons hc]
        by_cases hq : c = '\''
        · simp only [if_pos hq]
          by_cases hcount : count = 1
          · simp only [if_pos hcount]
            exact emits_operator .string h₁.1
          · simp only [if_neg hcount]
            rw [upTo_keep]
            exact ih h₁.1 (by omega)
        · simp only [if_neg hq]
          rw [upTo_keep]
          exact ih h₁.1 (by omega)

/-- A string in one or three quotes, behind the quotes that open it. -/
theorem quoted_eq (offset : Nat) (opening cs : List Char) :
    Scan.quoted offset opening cs =
      upTo .string offset opening .operator "unterminated string"
        (Lexeme.closingQuotes opening.length opening.length cs) := by
  rw [Scan.quoted]
  cases Lexeme.closingQuotes opening.length opening.length cs <;> rfl

theorem lexString_gives (h : s.At source none offset [] ('\'' :: cs)) :
    Gives (lexString source) s (Emits source (Scan.string offset cs)) := by
  refine (nextChar_cons h).bind ?_
  rintro _ s₁ ⟨rfl, h₁, -⟩
  simp only [ne_eq, not_true_eq_false, if_false]
  refine (peek_gives h₁).bind ?_
  rintro _ s₂ ⟨rfl, h₂, -⟩
  have hsingle : Gives (lexQuoted source 1 1 (fuel source)) s₂
      (Emits source (Scan.quoted offset ['\''] cs)) := by
    rw [quoted_eq]
    exact lexQuoted_gives 1 h₂ h₂.length_lt
  cases cs with
  | nil => exact hsingle
  | cons c ds =>
    rw [Scan.string.eq_def]
    dsimp only
    by_cases hc : c = '\''
    · simp only [List.head?_cons, hc, if_true]
      -- A second quote: an empty string, unless a third one opens a string in triple quotes.
      subst hc
      refine (nextChar_cons h₂).bind ?_
      rintro _ s₃ ⟨-, h₃, -⟩
      refine (peek_gives h₃).bind ?_
      rintro _ s₄ ⟨rfl, h₄, -⟩
      cases ds with
      | nil =>
        simp only [List.head?_nil, reduceCtorEq, not_false_eq_true, if_true]
        exact emits_operator .string h₄
      | cons d es =>
        by_cases hd : d = '\''
        · subst hd
          simp only [List.head?_cons, not_true_eq_false, if_false, if_true]
          refine (nextChar_cons h₄).bind ?_
          rintro _ s₅ ⟨-, h₅, -⟩
          rw [quoted_eq]
          exact lexQuoted_gives 3 h₅ h₅.length_lt
        · simp only [List.head?_cons, Option.some.injEq, hd, not_false_eq_true, if_true, if_false]
          exact emits_operator .string h₄
    · simp only [List.head?_cons, Option.some.injEq, hc, if_false]
      exact hsingle

/-! ### Comments -/

/-- Behind a newline a comment takes the blanks that open the line, and goes on if a slash follows
them. -/
theorem comment_margin_eq (cs : List Char) :
    Lexeme.comment true cs =
      match cs.dropWhile isMargin with
      | [] => (cs.takeWhile isMargin, [])
      | d :: ds =>
        if d = '/' then
          (cs.takeWhile isMargin ++ d :: (Lexeme.comment false ds).1, (Lexeme.comment false ds).2)
        else (cs.takeWhile isMargin, d :: ds) := by
  induction cs with
  | nil => rfl
  | cons c cs ih =>
    rw [Lexeme.comment, if_pos rfl]
    by_cases hc : c = '/'
    · subst hc
      have hm : isMargin '/' = false := by decide
      simp [hm, Lexeme.keep]
    · rw [if_neg hc]
      -- What stands before the slash or the end of the margin is kept, one character after the
      -- other.
      by_cases hm : c ≠ '\n' ∧ Text.isSpace c = true
      · have hmargin : isMargin c = true := by simp [isMargin, hm]
        rw [if_pos hm, ih, List.takeWhile_cons_of_pos hmargin, List.dropWhile_cons_of_pos hmargin]
        cases cs.dropWhile isMargin with
        | nil => rfl
        | cons d ds =>
          dsimp only
          split <;> rfl
      · have hmargin : ¬ isMargin c = true := by simpa [isMargin] using hm
        rw [if_neg hm, List.takeWhile_cons_of_neg hmargin, List.dropWhile_cons_of_neg hmargin]
        simp [hc]

theorem lexCommentLines_gives (h : s.At source none offset lexeme rest) (hn : rest.length < n) :
    Gives (lexCommentLines source n) s
      (Emits source (Scan.emit .comment offset (lexeme ++ (Lexeme.comment false rest).1)
        (Lexeme.comment false rest).2 .operand)) := by
  induction n generalizing s lexeme rest with
  | zero => omega
  | succ n ih =>
    rw [lexCommentLines]
    refine (nextChar_gives h).bind ?_
    rintro _ s₁ ⟨rfl, h₁⟩
    cases rest with
    | nil =>
      simp only [List.head?_nil, Lexeme.comment, List.append_nil]
      exact emits_operand .comment h₁.1
    | cons c cs =>
      rw [List.length_cons] at hn
      simp only [List.head?_cons]
      rw [Lexeme.comment, if_neg Bool.false_ne_true]
      by_cases hc : c = '\n'
      · subst hc
        simp only [if_true, decide_true, Lexeme.keep_fst, Lexeme.keep_snd]
        -- Behind the end of a line the scanner passes over the margin of the next one.
        refine (skip_gives h₁.1 h₁.1.length_lt).bind ?_
        rintro _ s₂ ⟨rfl, h₂⟩
        have hle : (cs.dropWhile isMargin).length ≤ cs.length :=
          (List.dropWhile_sublist isMargin).length_le
        rw [comment_margin_eq]
        cases hd : cs.dropWhile isMargin with
        | nil =>
          rw [hd] at h₂
          simp only [List.head?_nil, reduceCtorEq, if_false]
          refine (backup_gives h₂).bind fun _ s₃ h₃ => ?_
          simpa using emits_operand .comment h₃.1
        | cons d ds =>
          rw [hd] at h₂ hle
          rw [List.length_cons] at hle
          by_cases hslash : d = '/'
          · simp only [List.head?_cons, hslash, if_true]
            subst hslash
            simpa using ih h₂.1 (by omega)
          · simp only [List.head?_cons, Option.some.injEq, hslash, if_false]
            refine (backup_gives h₂).bind fun _ s₃ h₃ => ?_
            simpa using emits_operand .comment h₃.1
      · simp only [hc, if_false, decide_false, Lexeme.keep_fst, Lexeme.keep_snd]
        simpa using ih h₁.1 (by omega)

theorem lexComment_gives (h : s.At source none offset [] ('/' :: '/' :: cs)) :
    Gives (lexComment source) s (Emits source (Scan.comment offset cs)) := by
  refine (nextChar_cons h).bind ?_
  rintro _ s₁ ⟨rfl, h₁, -⟩
  simp only [ne_eq, not_true_eq_false, if_false]
  refine (nextChar_cons h₁).bind ?_
  rintro _ s₂ ⟨rfl, h₂, -⟩
  simp only [not_true_eq_false, if_false]
  exact lexCommentLines_gives h₂ h₂.length_lt

/-! ### Numbers -/

theorem all_isDigit_snoc {part : List Char} (hp : part.all Text.isDigit = true)
    (hc : Text.isDigit c = true) : (part ++ [c]).all Text.isDigit = true := by
  simpa [hc] using hp

theorem isDigit_point : Text.isDigit '.' = false := by decide

/-- Behind the point of a number. -/
theorem lexNumber_fraction {whole part : List Char} (hp : part.all Text.isDigit = true)
    (h : s.At source none offset (whole ++ '.' :: part) rest) (hn : rest.length < n) :
    Gives (lexNumber source false true n) s
      (Emits source (Scan.fraction offset whole (part ++ rest))) := by
  -- The digits behind the point that have been read are in `part`.
  induction n generalizing s part rest with
  | zero => omega
  | succ n ih =>
    rw [lexNumber]
    refine (nextChar_gives h).bind ?_
    rintro _ s₁ ⟨rfl, h₁⟩
    cases rest with
    | nil =>
      rw [Scan.fraction, Sign.digits_of_clear hp clear_nil]
      simp only [List.head?_nil]
      exact (backup_gives h₁).bind fun _ _ h₂ => emits_operator .number h₂.1
    | cons c cs =>
      rw [List.length_cons] at hn
      simp only [List.head?_cons]
      by_cases hpoint : c = '.'
      · rw [Scan.fraction, Sign.digits_append_cons hp (by rw [hpoint, isDigit_point])]
        simp only [hpoint, if_true, Bool.false_eq_true, if_false, pure_bind]
        exact emits_fail _ h₁.1
      simp only [if_neg hpoint]
      by_cases hd : Text.isDigit c = true
      · simp only [hd, if_true]
        have hs := ih (all_isDigit_snoc hp hd) (by simpa using h₁.1) (by omega)
        simpa using hs
      · rw [Scan.fraction, Sign.digits_append_cons hp (by simpa using hd)]
        simp only [hd, Bool.false_eq_true, if_false, if_neg hpoint, Bool.not_true,
          Bool.false_and]
        exact (backup_gives h₁).bind fun _ _ h₂ => emits_operator .number h₂.1

/-- The duration that ends with the unit `c`, or with `ms`. -/
def duration (offset : Nat) (lexeme : List Char) (c : Char) (cs : List Char) : Scan :=
  match cs with
  | d :: ds =>
    if c = 'm' ∧ d = 's' then Scan.emit .duration offset (lexeme ++ [c, d]) ds .operator
    else Scan.emit .duration offset (lexeme ++ [c]) (d :: ds) .operator
  | [] => Scan.emit .duration offset (lexeme ++ [c]) [] .operator

/-- Behind the first character of a unit. -/
theorem lexUnit_gives (h : s.At source none offset (lexeme ++ [c]) cs) :
    Gives
      (if c = 'm' then do
        accept source (· == 's')
        emitThen source .duration .binaryOperator
      else emitThen source .duration .binaryOperator) s
      (Emits source (duration offset lexeme c cs)) := by
  rw [duration.eq_def]
  by_cases hm : c = 'm'
  · simp only [hm, if_true, true_and]
    rw [hm] at h
    cases cs with
    | nil => exact (accept_left h rfl).bind fun _ _ h₁ => emits_operator .duration h₁
    | cons d ds =>
      by_cases hs : d = 's'
      · simp only [hs, if_true]
        rw [hs] at h
        refine (accept_taken h rfl).bind fun _ _ h₁ => ?_
        simpa using emits_operator .duration h₁
      · simp only [if_neg hs]
        exact (accept_left h (by simpa using hs)).bind fun _ _ h₁ => emits_operator .duration h₁
  · simp only [hm, if_false, false_and]
    cases cs <;> exact emits_operator .duration h

/-- Among the digits that open a number. -/
theorem lexNumber_whole (hl : lexeme.all Text.isDigit = true)
    (h : s.At source none offset lexeme rest) (hn : rest.length < n) :
    Gives (lexNumber source false false n) s
      (Emits source (Scan.number offset (lexeme ++ rest))) := by
  induction n generalizing s lexeme rest with
  | zero => omega
  | succ n ih =>
    rw [lexNumber]
    refine (nextChar_gives h).bind ?_
    rintro _ s₁ ⟨rfl, h₁⟩
    cases rest with
    | nil =>
      rw [Scan.number, Sign.digits_of_clear hl clear_nil]
      simp only [List.head?_nil]
      exact (backup_gives h₁).bind fun _ _ h₂ => emits_operator .number h₂.1
    | cons c cs =>
      rw [List.length_cons] at hn
      simp only [List.head?_cons]
      by_cases hpoint : c = '.'
      · rw [Scan.number, Sign.digits_append_cons hl (by rw [hpoint, isDigit_point])]
        simp only [hpoint, if_true, Bool.false_eq_true, if_false, pure_bind]
        subst hpoint
        exact lexNumber_fraction (by simp) h₁.1 (by omega)
      simp only [if_neg hpoint]
      by_cases hd : Text.isDigit c = true
      · simp only [hd, if_true]
        have hs := ih (all_isDigit_snoc hl hd) h₁.1 (by omega)
        simpa using hs
      · rw [Scan.number, Sign.digits_append_cons hl (by simpa using hd)]
        simp only [hd, Bool.false_eq_true, if_false, if_neg hpoint, Bool.not_false, Bool.true_and]
        by_cases hu : Scan.isUnit c = true
        · simp only [hu, if_true]
          -- A unit behind the digits makes a duration of them.
          have hg := lexUnit_gives h₁.1
          cases cs <;> exact hg
        · simp only [hu, Bool.false_eq_true, if_false]
          exact (backup_gives h₁).bind fun _ _ h₂ => emits_operator .number h₂.1

theorem lexNumber_digit (hc : Text.isDigit c = true) (h : s.At source none offset [] (c :: cs)) :
    Gives (lexNumber source true false (fuel source)) s
      (Emits source (Scan.number offset (c :: cs))) := by
  have hn := h.length_lt
  rw [List.length_cons] at hn
  -- The first character takes one step of the fuel, and it is a digit.
  obtain ⟨n, hfuel⟩ : ∃ n, fuel source = n + 1 := ⟨source.length, rfl⟩
  rw [hfuel, lexNumber]
  refine (nextChar_cons h).bind ?_
  rintro _ s₁ ⟨rfl, h₁, -⟩
  have hpoint : c ≠ '.' := Text.ne_of_test hc isDigit_point
  simp only [if_neg hpoint, hc, if_true]
  exact lexNumber_whole (by simpa using hc) h₁ (by omega)

theorem lexNumber_point (h : s.At source none offset [] ('.' :: cs)) :
    Gives (lexNumber source true false (fuel source)) s
      (Emits source (Scan.point offset cs)) := by
  have hn := h.length_lt
  rw [List.length_cons] at hn
  obtain ⟨n, hfuel⟩ : ∃ n, fuel source = n + 1 := ⟨source.length, rfl⟩
  rw [hfuel, lexNumber]
  refine (nextChar_cons h).bind ?_
  rintro _ s₁ ⟨rfl, h₁, -⟩
  simp only [if_true]
  refine (peek_gives h₁).bind ?_
  rintro _ s₂ ⟨rfl, h₂, -⟩
  simp only [pure_bind, Bool.false_eq_true, if_false]
  cases cs with
  | nil => exact emits_operand (.chain .dot) h₂
  | cons d ds =>
    rw [Scan.point]
    -- A point is a number only in front of a digit.
    by_cases hd : Text.isDigit d = true
    · simp only [List.head?_cons, Option.any_some, hd, Bool.not_true, Bool.false_eq_true,
        if_false, if_true]
      exact lexNumber_fraction (by simp) h₂ (by omega)
    · simp only [List.head?_cons, Option.any_some, hd, Bool.not_false, Bool.false_eq_true,
        if_false, if_true]
      exact emits_operand (.chain .dot) h₂

/-! ### Words -/

theorem lexWord_gives (h : s.At source none offset [c] cs) :
    Gives (lexWord source) s (Emits source (Scan.word offset c cs)) := by
  refine (skip_gives h h.length_lt).bind ?_
  rintro _ s₁ ⟨-, h₁⟩
  refine (backup_gives h₁).bind ?_
  rintro _ s₂ ⟨h₂, -⟩
  refine gives_current h₂ ?_
  rw [Scan.word]
  simp only [Lexeme.name, List.singleton_append]
  -- What a word is depends on its text alone, except for the word that opens a lambda.
  have hemit (kind : TokenKind) : Gives (do emit source kind; return some .binaryOperator) s₂
      (Emits source (Scan.emit kind offset (c :: cs.takeWhile Text.isNamePart)
        (cs.dropWhile Text.isNamePart) .operator)) := emits_operator kind h₂
  cases TokenKind.keyword? (String.ofList (c :: cs.takeWhile Text.isNamePart)) with
  | none => exact hemit .ident
  | some kind =>
    cases kind with
    | lambda =>
      -- the word is a keyword only with a colon behind it
      refine (nextChar_gives h₂).bind ?_
      rintro _ s₃ ⟨rfl, h₃⟩
      cases hrest : cs.dropWhile Text.isNamePart with
      | nil =>
        rw [hrest] at h₃
        exact (backup_gives h₃).bind fun _ _ h₄ => emits_operator .ident h₄.1
      | cons d ds =>
        rw [hrest] at h₃
        by_cases hd : d = ':'
        · simp only [List.head?_cons, hd, if_true]
          have h₄ := h₃.1
          rw [hd] at h₄
          exact emits_operator .lambda h₄
        · simp only [List.head?_cons, Option.some.injEq, hd, if_false]
          exact (backup_gives h₃).bind fun _ _ h₄ => emits_operator .ident h₄.1
    | _ => exact hemit _

/-! ### From state to state -/

/-- A scanner on its way to what `scan` says: it has read that, or does so within so many states. -/
def Leads (source : List Char) (scan : Scan) : Nat → Option ScanState → ByteScanner → Prop
  | 0, next, s => Emits source scan next s
  | n + 1, next, s =>
    Emits source scan next s ∨
      s.emitted = none ∧ ∃ state, next = some state ∧
        ∀ after, Gives (step source state) { s with state := after } (Leads source scan n)

variable {scan : Scan} {state : ScanState} {next : Option ScanState}

theorem Emits.leads (n : Nat) (h : s.Emits source scan next) : s.Leads source scan n next := by
  cases n with
  | zero => exact h
  | succ n => exact .inl h

theorem Leads.succ (h : s.Leads source scan n next) : s.Leads source scan (n + 1) next := by
  induction n generalizing s next with
  | zero => exact .inl h
  | succ n ih =>
    rcases h with h | ⟨he, state, hn, hstep⟩
    · exact .inl h
    · exact .inr ⟨he, state, hn, fun after => (hstep after).mono fun _ _ => ih⟩

theorem At.leads (h : s.At source none offset lexeme rest)
    (hstep : ∀ {s' : ByteScanner}, s'.At source none offset lexeme rest →
      Gives (step source state) s' (Leads source scan n)) :
    s.Leads source scan (n + 1) (some state) :=
  .inr ⟨h.emitted_eq, state, rfl, fun _ =>
    hstep ⟨h.place, h.start_eq, h.pos_eq, h.emitted_eq, h.past⟩⟩

/-! ### Operands -/

/-- Where an operand is expected the scanner goes back behind a slash by the width of the character
that it has looked at, so it stands at the slash again if that width is one. -/
theorem slash_gives (hw : ¬Scan.WideSlash source offset)
    (h : s.HasRead source none offset [] ('/' :: cs)) :
    Gives (do
      let behind ← peek source
      backup
      return some (if behind = some '/' then .comment else .regex)) s
      (Leads source (Scan.slash source offset cs) 1) := by
  refine (peek_gives h.1).bind ?_
  rintro _ s₁ ⟨rfl, h₁, hwidth⟩
  cases cs with
  | nil =>
    have hread : s₁.HasRead source none offset ['/'] [] := ⟨h₁, hwidth⟩
    refine (backup_gives hread).bind fun _ s₂ h₂ => ?_
    exact gives_pure (h₂.1.leads fun h₃ => lexRegex_nil h₃)
  | cons d ds =>
    -- The character behind the slash has one byte, so the step back ends at the slash.
    have hd : d.utf8Size = 1 := Scan.size_of_not_wideSlash hw h₁.place d rfl
    have hread : s₁.HasRead source none offset [] ('/' :: d :: ds) := ⟨h₁, hwidth.trans hd⟩
    refine (backup_gives hread).bind fun _ s₂ h₂ => ?_
    simp only [Scan.slash, List.head?_cons, Option.some.injEq]
    by_cases hslash : d = '/'
    · subst hslash
      simp only [if_true]
      exact gives_pure (h₂.1.leads fun h₃ => lexComment_gives h₃)
    · simp only [if_neg hslash, if_pos hd]
      exact gives_pure (h₂.1.leads fun h₃ => lexRegex_gives h₃)

theorem single_gives {kind : TokenKind} {after : ScanState} (hc : single? c = some (kind, after))
    (h : s.At source none offset [c] cs) :
    Gives (emitThen source kind after) s (Emits source (Scan.operand source offset c cs)) := by
  rw [single?] at hc
  repeat' split at hc
  -- One goal for each mark that is a token by itself.
  all_goals cases hc
  all_goals subst_vars
  · exact emits_operand .lparen h
  · exact emits_operator .rparen h
  · exact emits_operand .lbracket h
  · exact emits_operand .rbracket h
  · exact emits_operand (.chain .pipe) h
  · exact emits_operand (.chain .dynamic) h
  · exact emits_operand .comma h
  · exact emits_operand .star h

theorem operand_of_not_single (hc : single? c = none) (hne : c ≠ '-' ∧ c ≠ '!')
    (hd : Text.isDigit c = false ∧ c ≠ '.') (ha : Text.isAlphabetic c = false) (hr : c ≠ '"')
    (hq : c ≠ '\'') :
    Scan.operand source offset c cs =
      if c = '/' then Scan.slash source offset cs
      else Scan.fail offset ("unknown state, last char: " ++ Text.quoteChar c) := by
  have hmark (d : Char) (hs : single? d ≠ none) : c ≠ d := by
    rintro rfl
    exact hs hc
  simp only [Scan.operand, hne, hd, ha, hr, hq, hmark '(' (by decide), hmark ')' (by decide),
    hmark '[' (by decide), hmark ']' (by decide), hmark '|' (by decide), hmark '@' (by decide),
    hmark ',' (by decide), hmark '*' (by decide), Bool.false_eq_true, if_false]

theorem lexUnaryOperator_gives (hc : c = '-' ∨ c = '!')
    (h : s.At source none offset [] (c :: cs)) :
    Gives (lexUnaryOperator source) s (Emits source (Scan.operand source offset c cs)) := by
  refine (nextChar_cons h).bind ?_
  rintro _ s₁ ⟨rfl, h₁, -⟩
  rcases hc with rfl | rfl
  · exact emits_operand (.binary .subtract) h₁
  · exact emits_operand .not h₁

theorem lexNumber_gives (hc : Text.isDigit c = true ∨ c = '.')
    (h : s.At source none offset [] (c :: cs)) :
    Gives (lexNumber source true false (fuel source)) s
      (Emits source (Scan.operand source offset c cs)) := by
  by_cases hd : Text.isDigit c = true
  · have hne : ∀ d, Text.isDigit d = false → c ≠ d := fun _ => Text.ne_of_test hd
    have hscan : Scan.operand source offset c cs = Scan.number offset (c :: cs) := by
      simp only [Scan.operand, hne '-' (by decide), hne '!' (by decide), hd, if_false, if_true]
    rw [hscan]
    exact lexNumber_digit hd h
  · obtain rfl : c = '.' := hc.resolve_left hd
    exact lexNumber_point h

theorem isDigit_of_isSpace (hs : Text.isSpace c = true) : Text.isDigit c = false := by
  cases hd : Text.isDigit c with
  | false => rfl
  | true =>
    rw [Sign.isSpace_of_isDigit hd] at hs
    cases hs

/-- Where an operand is expected, the scanner passes over white space and then goes to the state
that reads the token, or cuts the token off at once. -/
theorem lexToken_gives (hw : ∀ offset, ¬Scan.WideSlash source offset)
    (h : s.At source none offset [] rest) (hn : rest.length < n) :
    Gives (lexToken source n) s
      (Leads source (Scanner.read source ⟨.operand, offset, rest⟩) 1) := by
  induction n generalizing s offset rest with
  | zero => omega
  | succ n ih =>
    rw [lexToken]
    refine (nextChar_gives h).bind ?_
    rintro _ s₁ ⟨rfl, h₁⟩
    cases rest with
    | nil =>
      refine (emit_gives .eof h₁.1).bind fun _ s₂ h₂ => gives_pure (.inl ?_)
      exact ⟨_, _, rfl, rfl, h₂.emitted_eq, h₂.past⟩
    | cons c cs =>
      simp only [List.head?_cons]
      by_cases hs : Text.isSpace c = true
      · have hne : ∀ d, Text.isSpace d = false → c ≠ d := fun _ => Text.ne_of_test hs
        simp only [hne '-' (by decide), hne '!' (by decide), hne '.' (by decide),
          hne '"' (by decide), hne '\'' (by decide), isDigit_of_isSpace hs,
          Text.isAlphabetic_of_isSpace hs, hs, Bool.false_eq_true, or_self, if_false, if_true]
        -- White space is passed over, and the rest is read in the same state.
        refine (ignore_gives h₁.1).bind fun _ s₂ h₂ => ?_
        have hread : Scanner.read source ⟨.operand, offset, c :: cs⟩ = _ :=
          Scanner.read_blank [c] (by simpa using hs)
        rw [hread]
        exact ih h₂.1 (by simpa using hn)
      rw [Scanner.read_cons (by simpa using hs)]
      dsimp only
      -- From here the first character decides; the scanner asks in this order.
      by_cases hsign : c = '-' ∨ c = '!'
      · simp only [if_pos hsign]
        refine (backup_gives h₁).bind fun _ s₂ h₂ => gives_pure (h₂.1.leads fun h₃ => ?_)
        exact lexUnaryOperator_gives hsign h₃
      simp only [if_neg hsign]
      by_cases hnumber : Text.isDigit c = true ∨ c = '.'
      · simp only [if_pos hnumber]
        refine (backup_gives h₁).bind fun _ s₂ h₂ => gives_pure (h₂.1.leads fun h₃ => ?_)
        exact lexNumber_gives hnumber h₃
      simp only [if_neg hnumber]
      by_cases ha : Text.isAlphabetic c = true
      · have hscan : Scan.operand source offset c cs = Scan.word offset c cs := by
          simp only [Scan.operand, not_or.1 hsign, not_or.1 hnumber, ha, Bool.false_eq_true,
            if_false, if_true]
        simp only [if_pos ha]
        rw [hscan]
        exact gives_pure (h₁.1.leads fun h₂ => lexWord_gives h₂)
      simp only [if_neg ha]
      by_cases hr : c = '"'
      · subst hr
        exact gives_pure (h₁.1.leads fun h₂ => lexReference_gives h₂)
      simp only [if_neg hr]
      by_cases hq : c = '\''
      · subst hq
        refine (backup_gives h₁).bind fun _ s₂ h₂ => gives_pure (h₂.1.leads fun h₃ => ?_)
        exact lexString_gives h₃
      simp only [if_neg hq, if_neg hs]
      cases hsingle : single? c with
      | some found => exact (single_gives hsingle h₁.1).mono fun _ _ => Emits.leads 1
      | none =>
        rw [operand_of_not_single hsingle (not_or.1 hsign) (by simpa using hnumber)
          (by simpa using ha) hr hq]
        by_cases hslash : c = '/'
        · subst hslash
          simp only [if_true]
          exact slash_gives (hw offset) h₁
        · simp only [if_neg hslash]
          exact (emits_fail _ h₁.1).mono fun _ _ => Emits.leads 1

/-! ### Operators -/

theorem emitOperator_gives {kind : TokenKind}
    (hk : TokenKind.operator? (String.ofList lexeme) = some kind)
    (h : s.At source none offset lexeme rest) :
    Gives (emitOperator source) s (Emits source (Scan.emit kind offset lexeme rest .operand)) := by
  refine gives_current h ?_
  simp only [hk]
  exact emits_operand kind h

/-- Behind an exclamation mark and what extends it. A regex may follow the operator `!~` only. -/
theorem exclamation_gives {kind : TokenKind}
    (hk : TokenKind.operator? (String.ofList lexeme) = some kind)
    (h : s.At source none offset lexeme rest) :
    Gives (do
      let text ← current source
      let _ ← emitOperator source
      if text = ['!', '~'] then regexOrToken source else return some .token) s
      (Emits source (Scan.emit kind offset lexeme rest
        (if lexeme = ['!', '~'] then .pattern else .operand))) := by
  refine gives_current h ((emitOperator_gives hk h).bind ?_)
  rintro _ s₁ ⟨_, _, hscan, h₁⟩
  cases hscan
  split
  · exact regexOrToken_gives h₁.2
  · exact gives_pure ⟨_, _, rfl, rfl, h₁.2⟩

theorem comparison_gives {kind longer : TokenKind}
    (hk : TokenKind.operator? (String.ofList [c]) = some kind)
    (hl : TokenKind.operator? (String.ofList [c, '=']) = some longer)
    (h : s.At source none offset [c] cs) :
    Gives (do accept source (· == '='); emitOperator source) s
      (Emits source (Scan.extended offset c cs
        (fun d => if d = '=' then some (longer, .operand) else none) kind .operand)) := by
  cases cs with
  | nil => exact (accept_left h rfl).bind fun _ _ h₁ => emitOperator_gives hk h₁
  | cons d ds =>
    rw [Scan.extended]
    by_cases hd : d = '='
    · subst hd
      exact (accept_taken h rfl).bind fun _ _ h₁ => emitOperator_gives hl h₁
    · simp only [if_neg hd]
      exact (accept_left h (by simpa using hd)).bind fun _ _ h₁ => emitOperator_gives hk h₁

theorem not_gives (h : s.At source none offset ['!'] cs) :
    Gives (do
      accept source fun d => d == '=' || d == '~'
      let text ← current source
      let _ ← emitOperator source
      if text = ['!', '~'] then regexOrToken source else return some .token) s
      (Emits source (Scan.operator source offset '!' cs)) := by
  cases cs with
  | nil => exact (accept_left h rfl).bind fun _ _ h₁ => exclamation_gives rfl h₁
  | cons d ds =>
    by_cases he : d = '='
    · subst he
      exact (accept_taken h rfl).bind fun _ _ h₁ => exclamation_gives rfl h₁
    · by_cases ht : d = '~'
      · subst ht
        exact (accept_taken h rfl).bind fun _ _ h₁ => exclamation_gives rfl h₁
      · refine (accept_left h (by simp [he, ht])).bind fun _ _ h₁ => ?_
        simpa [Scan.operator, Scan.extended, he, ht] using exclamation_gives rfl h₁

theorem equals_gives (h : s.At source none offset ['='] cs) :
    Gives (do
      let behind ← peek source
      if behind = some '~' then
        let _ ← nextChar source
        emit source (.binary .regexEqual)
        regexOrToken source
      else if behind = some '=' then
        let _ ← nextChar source
        emitThen source (.binary .equal) .token
      else
        emit source .assign
        regexOrToken source) s
      (Emits source (Scan.operator source offset '=' cs)) := by
  refine (peek_gives h).bind ?_
  rintro _ s₁ ⟨rfl, h₁, -⟩
  cases cs with
  | nil => exact emits_pattern .assign h₁
  | cons d ds =>
    simp only [List.head?_cons, Option.some.injEq]
    by_cases ht : d = '~'
    · subst ht
      refine (nextChar_cons h₁).bind ?_
      rintro _ s₂ ⟨-, h₂, -⟩
      exact emits_pattern (.binary .regexEqual) h₂
    · by_cases he : d = '='
      · subst he
        refine (nextChar_cons h₁).bind ?_
        rintro _ s₂ ⟨-, h₂, -⟩
        exact emits_operand (.binary .equal) h₂
      · simp only [if_neg ht, if_neg he]
        simpa [Scan.operator, Scan.extended, he, ht] using emits_pattern .assign h₁

theorem division_gives (h : s.HasRead source none offset [] ('/' :: cs)) :
    Gives (do
      let behind ← peek source
      if behind = some '/' then
        backup
        return some .comment
      else emitOperator source) s
      (Leads source (Scan.operator source offset '/' cs) 2) := by
  refine (peek_gives h.1).bind ?_
  rintro _ s₁ ⟨rfl, h₁, hwidth⟩
  cases cs with
  | nil => exact (emitOperator_gives rfl h₁).mono fun _ _ => Emits.leads 2
  | cons d ds =>
    by_cases hd : d = '/'
    · subst hd
      simp only [List.head?_cons, if_true]
      have hread : s₁.HasRead source none offset [] ('/' :: '/' :: ds) := ⟨h₁, hwidth⟩
      refine (backup_gives hread).bind fun _ s₂ h₂ => gives_pure (h₂.1.leads fun h₃ => ?_)
      exact (lexComment_gives h₃).mono fun _ _ => Emits.leads 1
    · simp only [List.head?_cons, Option.some.injEq, if_neg hd]
      refine Gives.mono ?_ fun _ _ => Emits.leads 2
      have hkind : TokenKind.operator? (String.ofList ['/']) = some (.binary .divide) := rfl
      simpa [Scan.operator, hd] using emitOperator_gives hkind h₁

/-- Where an operator may stand, a scanner that finds none goes on as if an operand were
expected. -/
theorem lexBinaryOperator_gives (hw : ∀ offset, ¬Scan.WideSlash source offset)
    (h : s.At source none offset [] rest) :
    Gives (lexBinaryOperator source) s
      (Leads source (Scanner.read source ⟨.operator, offset, rest⟩) 2) := by
  refine (ignoreSpace_gives h).bind fun _ s₁ h₁ => (nextChar_gives h₁).bind ?_
  rintro _ s₂ ⟨rfl, h₂⟩
  rw [Scanner.read_skip]
  dsimp only
  generalize offset + Text.size (Lexeme.blank rest).1 = place at h₂
  cases hrest : (Lexeme.blank rest).2 with
  | nil =>
    rw [hrest] at h₂
    simp only [List.head?_nil, reduceCtorEq, or_self, if_false]
    refine (backup_gives h₂).bind fun _ s₃ h₃ => gives_pure (h₃.1.leads fun h₄ => ?_)
    exact lexToken_gives hw h₄ h₄.length_lt
  | cons c cs =>
    have hs : Text.isSpace c = false := Scanner.isSpace_of_blank hrest
    rw [hrest] at h₂
    rw [Scanner.read_cons hs]
    simp only [List.head?_cons, Option.some.injEq]
    by_cases hplain : c = '+' ∨ c = '-' ∨ c = '*' ∨ c = '%'
    · simp only [if_pos hplain]
      refine Gives.mono ?_ fun _ _ => Emits.leads 2
      rcases hplain with rfl | rfl | rfl | rfl <;> exact emitOperator_gives rfl h₂.1
    simp only [if_neg hplain]
    by_cases hslash : c = '/'
    · subst hslash
      simp only [if_true]
      exact division_gives h₂
    simp only [if_neg hslash]
    by_cases hnot : c = '!'
    · subst hnot
      exact (not_gives h₂.1).mono fun _ _ => Emits.leads 2
    simp only [if_neg hnot]
    by_cases hcompare : c = '>' ∨ c = '<'
    · simp only [if_pos hcompare]
      refine Gives.mono ?_ fun _ _ => Emits.leads 2
      rcases hcompare with rfl | rfl <;> exact comparison_gives rfl rfl h₂.1
    simp only [if_neg hcompare]
    by_cases hequals : c = '='
    · subst hequals
      exact (equals_gives h₂.1).mono fun _ _ => Emits.leads 2
    simp only [if_neg hequals]
    refine (backup_gives h₂).bind fun _ s₃ h₃ => gives_pure (h₃.1.leads fun h₄ => ?_)
    -- No operator begins with this character, so the scanner is in the mode for an operand.
    have hscan : Scan.operator source place c cs = Scan.operand source place c cs := by
      simp only [not_or] at hplain hcompare
      simp only [Scan.operator, hplain, hslash, hnot, hcompare, hequals, if_false]
    have hread : Scanner.read source ⟨.operand, place, c :: cs⟩ = _ := Scanner.read_cons hs
    have htoken := lexToken_gives hw h₄ h₄.length_lt
    rwa [hread, ← hscan] at htoken

/-! ### Steps -/

/-- **One step of a scanner between two tokens leads to the next token.** -/
theorem step_gives (hw : ∀ offset, ¬Scan.WideSlash source offset) {cursor : Cursor}
    (h : s.Meets source none (some cursor) (some state)) :
    Gives (step source state) s (Leads source (Scanner.read source cursor) 2) := by
  obtain ⟨mode, offset, rest⟩ := cursor
  cases mode with
  | operand =>
    obtain ⟨hstate, h⟩ := h
    cases hstate
    exact (lexToken_gives hw h h.length_lt).mono fun _ _ => Leads.succ
  | operator =>
    obtain ⟨hstate, h⟩ := h
    cases hstate
    exact lexBinaryOperator_gives hw h
  | pattern =>
    obtain ⟨hstate, h⟩ := h
    -- Behind an operator that a regex may follow, the mark behind the white space tells the state.
    rw [Scanner.read_skip]
    dsimp only
    generalize offset + Text.size (Lexeme.blank rest).1 = place at h
    cases hrest : (Lexeme.blank rest).2 with
    | nil =>
      rw [hrest] at h hstate
      cases hstate
      exact (lexToken_gives hw h h.length_lt).mono fun _ _ => Leads.succ
    | cons c cs =>
      have hs : Text.isSpace c = false := Scanner.isSpace_of_blank hrest
      rw [hrest] at h hstate
      rw [Scanner.read_cons hs]
      by_cases hc : c = '/'
      · subst hc
        cases hstate
        exact (lexRegex_gives h).mono fun _ _ => Emits.leads 2
      · simp only [List.head?_cons, Option.some.injEq, if_neg hc] at hstate ⊢
        subst hstate
        have htoken := lexToken_gives hw h h.length_lt
        rw [Scanner.read_cons hs] at htoken
        exact htoken.mono fun _ _ => Leads.succ

end

end ByteScanner

end PipelineScript

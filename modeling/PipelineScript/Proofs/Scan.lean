import Mathlib.Tactic.SplitIfs
import PipelineScript.Node.Render
import PipelineScript.Token.Stream

/-!
What the scanner reads at the beginning of a text.

A sign is a token without its place. `Sign.Fits` says that a scanner in some mode, before the text
of the sign and what follows it, reads that sign and nothing else; the mode that it leaves behind
depends on the kind of the sign alone. There is one lemma for each kind of sign, and each says what
the text behind the sign must not begin with.
-/
namespace PipelineScript

/-- The mode of the scanner behind a token. Words leave it expecting an operator, the words of
logic among them, and a regex or a star leaves it expecting an operand. -/
def TokenKind.modeAfter : TokenKind → ScanMode
  | .binary .and => .operator
  | .binary .or => .operator
  | .binary .regexEqual => .pattern
  | .binary .regexNotEqual => .pattern
  | .assign => .pattern
  | .var => .operator
  | .lambda => .operator
  | .bool _ => .operator
  | .ident => .operator
  | .reference => .operator
  | .number => .operator
  | .string => .operator
  | .duration => .operator
  | .rparen => .operator
  | _ => .operand

/-- A token without its place. -/
structure Sign where
  kind : TokenKind
  text : List Char
deriving DecidableEq, Repr

/-- A scanner in a mode reads the sign from its text when `rest` follows. -/
def Sign.Fits (g : Sign) (mode : ScanMode) (rest : List Char) : Prop :=
  ∀ source offset,
    Scanner.read source ⟨mode, offset, g.text ++ rest⟩ =
      Scan.emit g.kind offset g.text rest g.kind.modeAfter

/-! ## Characters -/

namespace Text

theorem isAlphabetic_of_isSpace {c : Char} (h : isSpace c = true) : isAlphabetic c = false := by
  have hwide : ∀ code, 0x2000 ≤ code → code ≤ 0x200a → inRanges alphabeticRanges code = false := by
    intro code h₁ h₂
    obtain ⟨k, hk, rfl⟩ : ∃ k, k < 11 ∧ code = 0x2000 + k := ⟨code - 0x2000, by omega, by omega⟩
    revert k
    decide +kernel
  simp only [isSpace, isAlphabetic] at *
  split at h
  · rename_i hlt
    simp only [hlt, if_true, isAsciiLetter]
    simp only [Bool.or_eq_true, Bool.and_eq_true, beq_iff_eq, decide_eq_true_eq] at h
    simp only [Bool.or_eq_false_iff, Bool.and_eq_false_iff, decide_eq_false_iff_not]
    omega
  · rename_i hge
    simp only [hge, if_false]
    simp only [Bool.or_eq_true, Bool.and_eq_true, beq_iff_eq, decide_eq_true_eq] at h
    rcases h with (((((((h | h) | h) | h) | h) | h) | h) | h) | h
    · rw [h]; decide +kernel
    · rw [h]; decide +kernel
    · rw [h]; decide +kernel
    · exact hwide _ h.1 h.2
    · rw [h]; decide +kernel
    · rw [h]; decide +kernel
    · rw [h]; decide +kernel
    · rw [h]; decide +kernel
    · rw [h]; decide +kernel

theorem isSpace_of_isAlphabetic {c : Char} (h : isAlphabetic c = true) : isSpace c = false := by
  cases hs : isSpace c with
  | false => rfl
  | true => rw [isAlphabetic_of_isSpace hs] at h; contradiction

theorem isSpace_blank : ∀ c ∈ [' '], isSpace c = true := List.forall_mem_singleton.2 (by decide)

theorem isSpace_newline : ∀ c ∈ ['\n'], isSpace c = true := List.forall_mem_singleton.2 (by decide)

/-- A test that one character passes and another does not tells them apart. -/
theorem ne_of_test {p : Char → Bool} {c d : Char} (hc : p c = true) (hd : p d = false) : c ≠ d := by
  rintro rfl
  rw [hd] at hc
  contradiction

end Text

/-- The characters that mean something else where an operator may stand. -/
def operatorMarks : List Char := ['+', '-', '*', '%', '/', '!', '>', '<', '=']

/-- What may follow a token that could go on: the end, a blank, or a mark that closes, separates
or opens. -/
def Clear (rest : List Char) : Prop :=
  ∀ c, rest.head? = some c → c ∈ [' ', '\n', ',', ')', ']', '(']

theorem Clear.head {rest : List Char} (h : Clear rest) {c : Char} {cs : List Char}
    (hr : rest = c :: cs) : c ∈ [' ', '\n', ',', ')', ']', '('] :=
  h c (by rw [hr]; rfl)

theorem clear_nil : Clear [] := by simp [Clear]

theorem clear_cons {c : Char} (cs : List Char) (h : c ∈ [' ', '\n', ',', ')', ']', '(']) :
    Clear (c :: cs) := by
  intro d hd
  rw [List.head?_cons, Option.some.injEq] at hd
  rwa [← hd]

/-- A class of characters to which no mark that may follow belongs ends there. -/
theorem Clear.takeWhile {p : Char → Bool}
    (hp : ∀ c ∈ [' ', '\n', ',', ')', ']', '('], p c = false) {cs rest : List Char}
    (hcs : ∀ c ∈ cs, p c = true) (h : Clear rest) :
    (cs ++ rest).takeWhile p = cs ∧ (cs ++ rest).dropWhile p = rest := by
  have hrest : rest.takeWhile p = [] ∧ rest.dropWhile p = rest := by
    cases rest with
    | nil => exact ⟨rfl, rfl⟩
    | cons c cs => simp [hp c (h.head rfl)]
  rw [List.takeWhile_append_of_pos hcs, List.dropWhile_append_of_pos hcs, hrest.1, hrest.2]
  simp

/-! ## Reading a character -/

variable {source cs rest : List Char} {mode : ScanMode} {offset : Nat} {c : Char}

theorem Scanner.read_cons (hc : Text.isSpace c = false) :
    Scanner.read source ⟨mode, offset, c :: cs⟩ =
      match mode with
      | .operand => Scan.operand source offset c cs
      | .operator => Scan.operator source offset c cs
      | .pattern =>
        if c = '/' then Scan.regex offset 0 (c :: cs) else Scan.operand source offset c cs := by
  cases mode <;> simp [Scanner.read, Lexeme.blank, hc]

/-- A character that is no operator is read the same way in every mode. -/
theorem Scanner.read_plain (hc : Text.isSpace c = false) (ho : c ∉ operatorMarks) :
    Scanner.read source ⟨mode, offset, c :: cs⟩ = Scan.operand source offset c cs := by
  simp only [operatorMarks, List.mem_cons, List.not_mem_nil, or_false, not_or] at ho
  rw [Scanner.read_cons hc]
  cases mode with
  | operand => rfl
  | operator => simp only [Scan.operator, ho, if_false]
  | pattern => simp only [ho, if_false]

/-- A class of characters to which no operator belongs. -/
theorem not_mem_operatorMarks {p : Char → Bool} (hc : p c = true)
    (hp : operatorMarks.all (fun d => !p d) = true) : c ∉ operatorMarks := by
  intro hm
  have hfalse : p c = false := by simpa using List.all_eq_true.1 hp c hm
  rw [hc] at hfalse
  contradiction

theorem Scanner.read_blank (b : List Char) (hb : ∀ c ∈ b, Text.isSpace c = true) :
    Scanner.read source ⟨mode, offset, b ++ rest⟩ =
      Scanner.read source ⟨mode, offset + Text.size b, rest⟩ := by
  have hblank : Lexeme.blank (b ++ rest) = (b ++ (Lexeme.blank rest).1, (Lexeme.blank rest).2) := by
    simp only [Lexeme.blank, List.takeWhile_append_of_pos hb, List.dropWhile_append_of_pos hb]
  simp only [Scanner.read, hblank, Text.size_append, Nat.add_assoc]

namespace Sign

/-! ## Marks -/

/-- The marks that are tokens of their own in every mode. -/
def punctuation : List (Char × TokenKind) :=
  [('(', .lparen), (')', .rparen), ('[', .lbracket), (']', .rbracket), (',', .comma),
   ('|', .chain .pipe), ('@', .chain .dynamic)]

theorem fits_punctuation {kind : TokenKind} (h : (c, kind) ∈ punctuation) :
    Fits ⟨kind, [c]⟩ mode rest := by
  intro source offset
  simp only [punctuation, List.mem_cons, List.not_mem_nil, or_false, Prod.mk.injEq] at h
  rcases h with ⟨rfl, rfl⟩ | ⟨rfl, rfl⟩ | ⟨rfl, rfl⟩ | ⟨rfl, rfl⟩ | ⟨rfl, rfl⟩ | ⟨rfl, rfl⟩ |
    ⟨rfl, rfl⟩ <;>
  exact Scanner.read_plain (by decide) (by decide)

theorem fits_minus : Fits ⟨.binary .subtract, ['-']⟩ mode rest := by
  intro source offset
  refine (Scanner.read_cons (by decide)).trans ?_
  cases mode <;> rfl

/-- Behind `!` stands an operand, which begins with neither `=` nor `~`. -/
theorem fits_not (h : ∀ d, rest.head? = some d → d ≠ '=' ∧ d ≠ '~') :
    Fits ⟨.not, ['!']⟩ mode rest := by
  intro source offset
  refine (Scanner.read_cons (by decide)).trans ?_
  cases mode with
  | operand => rfl
  | pattern => rfl
  | operator =>
    cases rest with
    | nil => rfl
    | cons d ds =>
      obtain ⟨h₁, h₂⟩ := h d rfl
      simp [Scan.operator, Scan.extended, h₁, h₂, TokenKind.modeAfter]

theorem fits_dot (h : ∀ d, rest.head? = some d → Text.isDigit d = false) :
    Fits ⟨.chain .dot, ['.']⟩ mode rest := by
  intro source offset
  refine (Scanner.read_plain (by decide) (by decide)).trans ?_
  show Scan.point offset rest = _
  cases rest with
  | nil => rfl
  | cons d ds =>
    simp only [Scan.point, h d rfl, Bool.false_eq_true, if_false]
    rfl

/-- A star is one only where no operator may stand. -/
theorem fits_star (h : mode ≠ .operator) : Fits ⟨.star, ['*']⟩ mode rest := by
  intro source offset
  refine (Scanner.read_cons (by decide)).trans ?_
  cases mode with
  | operator => contradiction
  | _ => rfl

theorem fits_assign (h : rest.head? = some ' ') : Fits ⟨.assign, ['=']⟩ .operator rest := by
  intro source offset
  cases rest with
  | nil => simp at h
  | cons d ds =>
    obtain rfl : d = ' ' := by simpa using h
    exact Scanner.read_cons (by decide)

/-! ## Words -/

/-- A letter and characters that continue a name. -/
def isWord (text : List Char) : Bool :=
  match text with
  | [] => false
  | c :: cs => Text.isAlphabetic c && cs.all Text.isNamePart

theorem isDigit_of_isAlphabetic (hc : Text.isAlphabetic c = true) : Text.isDigit c = false := by
  simp only [Text.isAlphabetic, Text.isAsciiLetter, Text.isDigit] at hc ⊢
  simp only [Bool.and_eq_false_iff, decide_eq_false_iff_not]
  split at hc
  · simp only [Bool.or_eq_true, Bool.and_eq_true, decide_eq_true_eq] at hc
    omega
  · omega

theorem read_word (hc : Text.isAlphabetic c = true) :
    Scanner.read source ⟨mode, offset, c :: cs⟩ = Scan.word offset c cs := by
  have hne : ∀ d, Text.isAlphabetic d = false → c ≠ d := fun _ => Text.ne_of_test hc
  have hdigit := isDigit_of_isAlphabetic hc
  rw [Scanner.read_plain (Text.isSpace_of_isAlphabetic hc)
    (not_mem_operatorMarks hc (by decide))]
  simp only [Scan.operand, hne '-' (by decide), hne '!' (by decide), hne '.' (by decide), hdigit,
    hc, Bool.false_eq_true, if_false, if_true]

theorem isNamePart_clear : ∀ c ∈ [' ', '\n', ',', ')', ']', '('], Text.isNamePart c = false := by
  simp only [List.forall_mem_cons, List.not_mem_nil, false_imp_iff, implies_true]
  decide

theorem name_of_clear {text : List Char} (ht : text.all Text.isNamePart = true) (h : Clear rest) :
    Lexeme.name (text ++ rest) = (text, rest) := by
  obtain ⟨h₁, h₂⟩ := Clear.takeWhile isNamePart_clear (List.all_eq_true.1 ht) h
  rw [Lexeme.name, h₁, h₂]

theorem fits_keyword {text : List Char} {kind : TokenKind} (hw : isWord text = true)
    (hk : TokenKind.keyword? (String.ofList text) = some kind) (hl : kind ≠ .lambda)
    (h : Clear rest) : Fits ⟨kind, text⟩ mode rest := by
  intro source offset
  cases text with
  | nil => simp [isWord] at hw
  | cons c cs =>
    simp only [isWord, Bool.and_eq_true] at hw
    have hmode : kind.modeAfter = .operator := by
      simp only [TokenKind.keyword?] at hk
      split_ifs at hk <;> cases hk <;> rfl
    show Scanner.read source ⟨mode, offset, c :: (cs ++ rest)⟩ = _
    rw [read_word hw.1]
    simp only [Scan.word, name_of_clear hw.2 h, hk, hmode]

/-- What is written as a name and read as one: a word that is no keyword, or the word `lambda`,
which is a keyword only before a colon. -/
def isName (text : List Char) : Bool :=
  isWord text &&
    (TokenKind.keyword? (String.ofList text) == none ||
      TokenKind.keyword? (String.ofList text) == some .lambda)

theorem fits_ident {text : List Char} (hn : isName text = true) (h : Clear rest) :
    Fits ⟨.ident, text⟩ mode rest := by
  intro source offset
  simp only [isName, Bool.and_eq_true, Bool.or_eq_true, beq_iff_eq] at hn
  obtain ⟨hw, hk⟩ := hn
  cases text with
  | nil => simp [isWord] at hw
  | cons c cs =>
    simp only [isWord, Bool.and_eq_true] at hw
    show Scanner.read source ⟨mode, offset, c :: (cs ++ rest)⟩ = _
    rw [read_word hw.1]
    rcases hk with hk | hk
    · simp only [Scan.word, name_of_clear hw.2 h, hk]
      rfl
    · simp only [Scan.word, name_of_clear hw.2 h, hk]
      cases rest with
      | nil => rfl
      | cons d ds =>
        have hd : d ≠ ':' := ne_of_mem_of_not_mem (h.head rfl) (by decide)
        simp only [hd, if_false]
        rfl

/-- The text of the keyword `lambda:`. -/
def lambdaText : List Char := ['l', 'a', 'm', 'b', 'd', 'a', ':']

theorem fits_lambda : Fits ⟨.lambda, lambdaText⟩ mode rest := by
  intro source offset
  refine (read_word (by decide)).trans ?_
  simp only [Scan.word, Lexeme.name]
  rfl

/-! ## Operators -/

/-- An operator is read where one is expected, if a blank follows. -/
theorem fits_binary (op : BinaryOp) (h : rest.head? = some ' ' ∨ rest.head? = some '\n') :
    Fits ⟨.binary op, op.spelling.toList⟩ .operator rest := by
  have hclear : Clear rest := by
    intro c hc
    rcases h with h | h <;> (rw [h] at hc; cases hc; decide)
  obtain ⟨d, ds, rfl, hd⟩ : ∃ d ds, rest = d :: ds ∧ (d = ' ' ∨ d = '\n') := by
    cases rest with
    | nil => simp at h
    | cons d ds => exact ⟨d, ds, rfl, by simpa using h⟩
  cases op with
  | and => exact fits_keyword (by decide) (by decide) (by decide) hclear
  | or => exact fits_keyword (by decide) (by decide) (by decide) hclear
  | _ =>
    intro source offset
    refine (Scanner.read_cons (by decide)).trans ?_
    rcases hd with rfl | rfl <;> rfl

/-- The words of logic are operators in every mode. -/
theorem fits_logical {op : BinaryOp} (hop : op.isLogical = true) (h : Clear rest) :
    Fits ⟨.binary op, op.spelling.toList⟩ mode rest := by
  cases op with
  | and => exact fits_keyword (by decide) (by decide) (by decide) h
  | or => exact fits_keyword (by decide) (by decide) (by decide) h
  | _ => simp [BinaryOp.isLogical] at hop

/-! ## Numbers and durations -/

theorem isDigit_clear : ∀ c ∈ [' ', '\n', ',', ')', ']', '('], Text.isDigit c = false := by
  simp only [List.forall_mem_cons, List.not_mem_nil, false_imp_iff, implies_true]
  decide

theorem digits_of_clear {ds : List Char} (hd : ds.all Text.isDigit = true) (h : Clear rest) :
    Lexeme.digits (ds ++ rest) = (ds, rest) := by
  obtain ⟨h₁, h₂⟩ := Clear.takeWhile isDigit_clear (List.all_eq_true.1 hd) h
  rw [Lexeme.digits, h₁, h₂]

/-- Digits in front of a character that is none. -/
theorem digits_append_cons {ds : List Char} (hd : ds.all Text.isDigit = true)
    (hc : Text.isDigit c = false) : Lexeme.digits (ds ++ c :: rest) = (ds, c :: rest) := by
  have hpos : ∀ d ∈ ds, Text.isDigit d = true := List.all_eq_true.1 hd
  rw [Lexeme.digits, List.takeWhile_append_of_pos hpos, List.dropWhile_append_of_pos hpos]
  simp [hc]

/-- A digit. -/
theorem isDigit_iff : Text.isDigit c = true ↔ 48 ≤ c.toNat ∧ c.toNat ≤ 57 := by
  simp [Text.isDigit]

theorem isSpace_of_isDigit (hc : Text.isDigit c = true) : Text.isSpace c = false := by
  rw [isDigit_iff] at hc
  have hlt : c.toNat < 128 := by omega
  simp only [Text.isSpace, hlt, if_true, Bool.or_eq_false_iff, Bool.and_eq_false_iff,
    decide_eq_false_iff_not, beq_eq_false_iff_ne]
  omega

theorem read_number (hc : Text.isDigit c = true) :
    Scanner.read source ⟨mode, offset, c :: cs⟩ = Scan.number offset (c :: cs) := by
  have hne : ∀ d, Text.isDigit d = false → c ≠ d := fun _ => Text.ne_of_test hc
  rw [Scanner.read_plain (isSpace_of_isDigit hc) (not_mem_operatorMarks hc (by decide))]
  simp only [Scan.operand, hne '-' (by decide), hne '!' (by decide), hc, if_false, if_true]

/-- One or more digits. -/
def isWhole (text : List Char) : Bool := !text.isEmpty && text.all Text.isDigit

theorem exists_cons_of_isWhole {ds : List Char} (hd : isWhole ds = true) :
    ∃ e es, ds = e :: es ∧ Text.isDigit e = true := by
  cases ds with
  | nil => simp [isWhole] at hd
  | cons e es =>
    simp only [isWhole, List.isEmpty_cons, Bool.not_false, Bool.true_and, List.all_cons,
      Bool.and_eq_true] at hd
    exact ⟨e, es, rfl, hd.1⟩

theorem read_isWhole {ds : List Char} (hd : isWhole ds = true) :
    Scanner.read source ⟨mode, offset, ds ++ rest⟩ = Scan.number offset (ds ++ rest) := by
  obtain ⟨e, es, rfl, he⟩ := exists_cons_of_isWhole hd
  exact read_number he

theorem all_of_isWhole {ds : List Char} (hd : isWhole ds = true) : ds.all Text.isDigit = true := by
  simp only [isWhole, Bool.and_eq_true] at hd
  exact hd.2

theorem ne_nil_of_isWhole {ds : List Char} (hd : isWhole ds = true) : ds ≠ [] := by
  rintro rfl
  cases hd

/-- Digits are a number where neither a digit, a point nor a unit follows. -/
theorem fits_number {ds : List Char} (hd : isWhole ds = true)
    (h : ∀ c, rest.head? = some c → Text.isDigit c = false ∧ c ≠ '.' ∧ Scan.isUnit c = false) :
    Fits ⟨.number, ds⟩ mode rest := by
  intro source offset
  refine (read_isWhole hd).trans ?_
  cases rest with
  | nil =>
    simp only [Scan.number, digits_of_clear (all_of_isWhole hd) clear_nil]
    rfl
  | cons c cs =>
    obtain ⟨hdigit, hpoint, hunit⟩ := h c rfl
    simp only [Scan.number, digits_append_cons (all_of_isWhole hd) hdigit, hpoint, hunit,
      Bool.false_eq_true, if_false]
    rfl

theorem fits_whole {ds : List Char} (hd : isWhole ds = true) (h : Clear rest) :
    Fits ⟨.number, ds⟩ mode rest := by
  have hall : ∀ c ∈ [' ', '\n', ',', ')', ']', '('],
      Text.isDigit c = false ∧ c ≠ '.' ∧ Scan.isUnit c = false := by
    simp only [List.forall_mem_cons, List.not_mem_nil, false_imp_iff, implies_true]
    decide
  exact fits_number hd fun c hc => hall c (h c hc)

theorem fits_fraction {whole part : List Char} (hw : isWhole whole = true)
    (hp : part.all Text.isDigit = true) (h : Clear rest) :
    Fits ⟨.number, whole ++ '.' :: part⟩ mode rest := by
  intro source offset
  show Scanner.read source ⟨mode, offset, (whole ++ '.' :: part) ++ rest⟩ = _
  rw [List.append_assoc, List.cons_append, read_isWhole hw]
  have hpoint : Text.isDigit '.' = false := by decide
  simp only [Scan.number, digits_append_cons (all_of_isWhole hw) hpoint, if_true, Scan.fraction,
    digits_of_clear hp h]
  cases rest with
  | nil => rfl
  | cons c cs =>
    have hne : c ≠ '.' := ne_of_mem_of_not_mem (h.head rfl) (by decide)
    simp only [hne, if_false]
    rfl

/-- The text of a unit of time, as the scanner knows it. -/
def isUnitText (text : List Char) : Bool :=
  match text with
  | [c] => Scan.isUnit c
  | [c, d] => c == 'm' && d == 's'
  | _ => false

theorem fits_duration {whole unit : List Char} (hw : isWhole whole = true)
    (hu : isUnitText unit = true) (h : Clear rest) : Fits ⟨.duration, whole ++ unit⟩ mode rest := by
  intro source offset
  show Scanner.read source ⟨mode, offset, (whole ++ unit) ++ rest⟩ = _
  rw [List.append_assoc, read_isWhole hw]
  have hunit : ∀ c, Scan.isUnit c = true → Text.isDigit c = false ∧ c ≠ '.' := by
    intro c hc
    simp only [Scan.isUnit, Bool.or_eq_true, beq_iff_eq] at hc
    rcases hc with (((((rfl | rfl) | rfl) | rfl) | rfl) | rfl) | rfl <;> decide
  match unit, hu with
  | [c], hc =>
    obtain ⟨hd, hne⟩ := hunit c hc
    have hc : Scan.isUnit c = true := hc
    simp only [List.singleton_append, Scan.number, digits_append_cons (all_of_isWhole hw) hd, hne,
      hc, if_false, if_true]
    cases rest with
    | nil => rfl
    | cons d ds =>
      have hs : d ≠ 's' := ne_of_mem_of_not_mem (h.head rfl) (by decide)
      simp only [hs, and_false, if_false]
      rfl
  | [c, d], hc =>
    simp only [isUnitText, Bool.and_eq_true, beq_iff_eq] at hc
    obtain ⟨rfl, rfl⟩ := hc
    simp only [List.cons_append, List.nil_append, Scan.number,
      digits_append_cons (all_of_isWhole hw) (by decide : Text.isDigit 'm' = false)]
    rfl

/-! ## Quoted texts -/

/-- The text between two marks, followed by the closing one, ends there. -/
def Closes (mark : Char) (body : List Char) : Prop :=
  Lexeme.closing mark (body ++ [mark]) = some (body ++ [mark], [])

instance (mark : Char) (body : List Char) : Decidable (Closes mark body) :=
  inferInstanceAs (Decidable (_ = _))

theorem closes_iff {mark : Char} {body : List Char} :
    Closes mark body ↔ Lexeme.Closed mark 1 1 (body ++ [mark]) := by
  rw [Closes, Lexeme.closing_eq_some_iff, List.append_nil, and_iff_right rfl]

theorem Closes.closing {mark : Char} {body : List Char} (h : Closes mark body)
    (rest : List Char) :
    Lexeme.closing mark (body ++ mark :: rest) = some (body ++ [mark], rest) := by
  have := Lexeme.closing_again rest h
  simpa using this

/-- A text without a backslash at its end closes once its marks are escaped. -/
theorem closes_escapeMark {mark : Char} (hm : mark ≠ '\\') {text : List Char}
    (ht : text.getLast? ≠ some '\\') : Closes mark (Text.escapeMark mark text) := by
  rw [closes_iff]
  induction text with
  | nil => exact .last hm
  | cons c cs ih =>
    have ih := ih fun h => ht (by simp [List.getLast?_cons, h])
    by_cases hc : c = mark
    · subst hc
      rw [Text.escapeMark, if_pos rfl]
      exact .hidden ih
    · rw [Text.escapeMark, if_neg hc]
      by_cases hb : c = '\\'
      · -- A backslash is not the last character, and no mark stands behind it.
        subst hb
        have hhead := Text.head?_escapeMark_ne mark hm cs
        cases cs with
        | nil => simp at ht
        | cons d ds =>
          obtain ⟨e, es, he⟩ : ∃ e es, Text.escapeMark mark (d :: ds) = e :: es := by
            rw [Text.escapeMark]
            split <;> exact ⟨_, _, rfl⟩
          rw [he] at ih hhead ⊢
          exact .backslash (by simpa using hhead) ih
      · exact .plain hc (fun h => hb h.1) ih

theorem fits_reference {body : List Char} (hb : Closes '"' body) :
    Fits ⟨.reference, '"' :: (body ++ ['"'])⟩ mode rest := by
  intro source offset
  show Scanner.read source ⟨mode, offset, '"' :: ((body ++ ['"']) ++ rest)⟩ = _
  rw [Scanner.read_plain (by decide) (by decide)]
  show Scan.reference offset _ = _
  rw [List.append_assoc, List.singleton_append, Scan.reference, hb.closing rest]
  rfl

theorem read_quote :
    Scanner.read source ⟨mode, offset, '\'' :: cs⟩ = Scan.string offset cs :=
  Scanner.read_plain (by decide) (by decide)

/-- A string in single quotes. An empty one must not be followed by a third quote. -/
theorem fits_string {body : List Char} (hb : Closes '\'' body) (hq : body.head? ≠ some '\'')
    (h : Clear rest) : Fits ⟨.string, '\'' :: (body ++ ['\''])⟩ mode rest := by
  intro source offset
  show Scanner.read source ⟨mode, offset, '\'' :: ((body ++ ['\'']) ++ rest)⟩ = _
  rw [read_quote]
  cases body with
  | nil =>
    cases rest with
    | nil => rfl
    | cons d ds =>
      have hd : d ≠ '\'' := ne_of_mem_of_not_mem (h.head rfl) (by decide)
      simp only [List.nil_append, List.singleton_append, Scan.string, if_true, hd, if_false]
      rfl
  | cons c cs =>
    have hc : c ≠ '\'' := by simpa using hq
    have hclosing := hb.closing rest
    simp only [List.cons_append, List.append_assoc, List.nil_append] at hclosing ⊢
    simp only [Scan.string, hc, if_false, Scan.quoted, List.length_singleton,
      Lexeme.closingQuotes_one, hclosing]
    rfl

/-- The text between triple quotes, followed by the closing ones, ends there. -/
def ClosesTriple (body : List Char) : Prop :=
  Lexeme.closingQuotes 3 3 (body ++ ['\'', '\'', '\'']) =
    some (body ++ ['\'', '\'', '\''], [])

instance (body : List Char) : Decidable (ClosesTriple body) :=
  inferInstanceAs (Decidable (_ = _))

/-- A string in triple quotes. -/
theorem fits_triple {body : List Char} (hb : ClosesTriple body) :
    Fits ⟨.string, ['\'', '\'', '\''] ++ (body ++ ['\'', '\'', '\''])⟩ mode rest := by
  intro source offset
  show Scanner.read source
    ⟨mode, offset, '\'' :: '\'' :: '\'' :: ((body ++ ['\'', '\'', '\'']) ++ rest)⟩ = _
  have hclosing := Lexeme.closingQuotes_again rest hb
  rw [read_quote]
  simp only [Scan.string, if_true, Scan.quoted, List.length_cons, List.length_nil, Nat.zero_add,
    Nat.reduceAdd, hclosing]
  rfl

/-! ## Regexes -/

theorem regex_of_closes {body : List Char} (hb : Closes '/' body) :
    Scan.regex offset 0 ('/' :: (body ++ '/' :: rest)) =
      Scan.emit .regex offset ('/' :: (body ++ ['/'])) rest .operand := by
  simp only [Scan.regex, if_true, hb.closing rest]
  rfl

/-- Behind an operator that takes one, a slash opens a regex whatever follows it. -/
theorem fits_regex {body : List Char} (hb : Closes '/' body) :
    Fits ⟨.regex, '/' :: (body ++ ['/'])⟩ .pattern rest := by
  intro source offset
  show Scanner.read source ⟨.pattern, offset, '/' :: ((body ++ ['/']) ++ rest)⟩ = _
  rw [Scanner.read_cons (by decide), List.append_assoc, List.singleton_append]
  exact regex_of_closes hb

/-- Where an operand is expected, a slash opens a regex if one byte that is no slash follows. -/
def opensPlainly (text : List Char) : Bool :=
  match text with
  | _ :: c :: _ => c != '/' && c.utf8Size == 1
  | _ => false

theorem fits_regex_operand {body : List Char} (hb : Closes '/' body)
    (hp : opensPlainly ('/' :: (body ++ ['/'])) = true) :
    Fits ⟨.regex, '/' :: (body ++ ['/'])⟩ .operand rest := by
  intro source offset
  show Scanner.read source ⟨.operand, offset, '/' :: ((body ++ ['/']) ++ rest)⟩ = _
  rw [Scanner.read_cons (by decide), List.append_assoc, List.singleton_append]
  show Scan.slash source offset (body ++ '/' :: rest) = _
  cases body with
  | nil => simp [opensPlainly] at hp
  | cons c cs =>
    simp only [List.cons_append, opensPlainly, Bool.and_eq_true, bne_iff_ne, beq_iff_eq] at hp
    simp only [List.cons_append, Scan.slash, hp.1, hp.2, if_false, if_true]
    exact regex_of_closes hb

/-! ## Comments -/

/-- A comment takes its line up to the newline. -/
theorem comment_line {line : List Char} (h : '\n' ∉ line) (rest : List Char) :
    Lexeme.comment false (line ++ '\n' :: rest) =
      (line ++ '\n' :: (Lexeme.comment true rest).1, (Lexeme.comment true rest).2) := by
  induction line with
  | nil => simp [Lexeme.comment, Lexeme.keep]
  | cons c cs ih =>
    simp only [List.mem_cons, not_or] at h
    have hc : c ≠ '\n' := fun e => h.1 e.symm
    simp [Lexeme.comment, hc, ih h.2, Lexeme.keep]

theorem fits_comment {body : List Char} (hm : mode ≠ .pattern)
    (hb : Lexeme.comment false (body ++ rest) = (body, rest)) :
    Fits ⟨.comment, '/' :: '/' :: body⟩ mode rest := by
  intro source offset
  show Scanner.read source ⟨mode, offset, '/' :: '/' :: (body ++ rest)⟩ = _
  have hcomment : Scan.comment offset (body ++ rest) =
      Scan.emit .comment offset ('/' :: '/' :: body) rest .operand := by
    simp only [Scan.comment, hb]
  rw [Scanner.read_cons (by decide)]
  cases mode with
  | operand => exact hcomment
  | operator => exact hcomment
  | pattern => contradiction

end Sign

end PipelineScript

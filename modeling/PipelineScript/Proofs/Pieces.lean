import PipelineScript.Proofs.Complete
import PipelineScript.Proofs.Scan

/-!
Texts made of blanks and signs.

A written text is a list of pieces. It is read back sign by sign if the scanner takes every sign
where it stands (`Fitting`). For a canonical text that is two things: what follows does not run into
a sign (`Sign.Delimited`, which does not depend on the mode of the scanner) and the mode in which
the scanner arrives is one that takes it (`Sign.suits`, which does not depend on what follows). The
main statement is `slotsIn_fitting`: the slots of such a text are its signs, with the end of the
text behind them.
-/
namespace PipelineScript

/-- A piece of a written text. A comment token is a sign too. -/
inductive Piece where
  | blank (text : List Char)
  | sign (g : Sign)
deriving DecidableEq, Repr

/-- The text of a piece. -/
def Piece.text : Piece → List Char
  | .blank text => text
  | .sign g => g.text

/-- The text that pieces make. -/
def spelled (ps : List Piece) : List Char := ps.flatMap Piece.text

@[simp] theorem spelled_nil : spelled [] = [] := rfl

@[simp] theorem spelled_blank (b : List Char) (ps : List Piece) :
    spelled (.blank b :: ps) = b ++ spelled ps := rfl

@[simp] theorem spelled_sign (g : Sign) (ps : List Piece) :
    spelled (.sign g :: ps) = g.text ++ spelled ps := rfl

@[simp] theorem spelled_append (ps qs : List Piece) :
    spelled (ps ++ qs) = spelled ps ++ spelled qs := by
  simp [spelled]

/-- The signs that reach the grammar. -/
def signsOf : List Piece → List Sign
  | [] => []
  | .blank _ :: ps => signsOf ps
  | .sign g :: ps => if g.kind = .comment then signsOf ps else g :: signsOf ps

@[simp] theorem signsOf_nil : signsOf [] = [] := rfl

@[simp] theorem signsOf_blank (b : List Char) (ps : List Piece) :
    signsOf (.blank b :: ps) = signsOf ps := rfl

theorem signsOf_sign {g : Sign} (ps : List Piece) (h : g.kind ≠ .comment) :
    signsOf (.sign g :: ps) = g :: signsOf ps := by
  simp [signsOf, h]

theorem signsOf_comment {g : Sign} (ps : List Piece) (h : g.kind = .comment) :
    signsOf (.sign g :: ps) = signsOf ps := by
  simp [signsOf, h]

@[simp] theorem signsOf_append (ps qs : List Piece) :
    signsOf (ps ++ qs) = signsOf ps ++ signsOf qs := by
  induction ps with
  | nil => rfl
  | cons p ps ih =>
    cases p with
    | blank b => simpa using ih
    | sign g =>
      by_cases h : g.kind = .comment
      · simpa [signsOf_comment _ h] using ih
      · simpa [signsOf_sign _ h] using ih

/-! ## Signs that are read back -/

/-- What follows a sign does not run into it. -/
inductive Sign.Delimited : Sign → List Char → Prop where
  | punctuation {c : Char} {kind : TokenKind} {rest : List Char}
      (h : (c, kind) ∈ Sign.punctuation) : Delimited ⟨kind, [c]⟩ rest
  | minus {rest : List Char} : Delimited ⟨.binary .subtract, ['-']⟩ rest
  | not {rest : List Char} (h : ∀ d, rest.head? = some d → d ≠ '=' ∧ d ≠ '~') :
      Delimited ⟨.not, ['!']⟩ rest
  | dot {rest : List Char} (h : ∀ d, rest.head? = some d → Text.isDigit d = false) :
      Delimited ⟨.chain .dot, ['.']⟩ rest
  | star {rest : List Char} : Delimited ⟨.star, ['*']⟩ rest
  | assign {rest : List Char} (h : rest.head? = some ' ') : Delimited ⟨.assign, ['=']⟩ rest
  | keyword {text rest : List Char} {kind : TokenKind} (hw : Sign.isWord text = true)
      (hk : TokenKind.keyword? (String.ofList text) = some kind) (hl : kind ≠ .lambda)
      (h : Clear rest) : Delimited ⟨kind, text⟩ rest
  | ident {text rest : List Char} (hn : Sign.isName text = true) (h : Clear rest) :
      Delimited ⟨.ident, text⟩ rest
  | lambda {rest : List Char} : Delimited ⟨.lambda, Sign.lambdaText⟩ rest
  | binary {rest : List Char} (op : BinaryOp)
      (h : rest.head? = some ' ' ∨ rest.head? = some '\n') :
      Delimited ⟨.binary op, op.spelling.toList⟩ rest
  | whole {text rest : List Char} (hw : Sign.isWhole text = true) (h : Clear rest) :
      Delimited ⟨.number, text⟩ rest
  | fraction {whole part rest : List Char} (hw : Sign.isWhole whole = true)
      (hp : part.all Text.isDigit = true) (h : Clear rest) :
      Delimited ⟨.number, whole ++ '.' :: part⟩ rest
  | duration {whole unit rest : List Char} (hw : Sign.isWhole whole = true)
      (hu : Sign.isUnitText unit = true) (h : Clear rest) :
      Delimited ⟨.duration, whole ++ unit⟩ rest
  | reference {body rest : List Char} (hb : Sign.Closes '"' body) :
      Delimited ⟨.reference, '"' :: (body ++ ['"'])⟩ rest
  | string {body rest : List Char} (hb : Sign.Closes '\'' body) (hq : body.head? ≠ some '\'')
      (h : Clear rest) : Delimited ⟨.string, '\'' :: (body ++ ['\''])⟩ rest
  | triple {body rest : List Char} (hb : Sign.ClosesTriple body) :
      Delimited ⟨.string, ['\'', '\'', '\''] ++ (body ++ ['\'', '\'', '\''])⟩ rest
  | regex {body rest : List Char} (hb : Sign.Closes '/' body) :
      Delimited ⟨.regex, '/' :: (body ++ ['/'])⟩ rest
  | comment {body rest : List Char} (hb : Lexeme.comment false (body ++ rest) = (body, rest)) :
      Delimited ⟨.comment, '/' :: '/' :: body⟩ rest

/-- Whether a scanner takes the sign for what it is when it arrives in a mode. -/
def Sign.suits (mode : ScanMode) (g : Sign) : Bool :=
  match g.kind with
  | .star => mode != .operator
  | .assign => mode == .operator
  | .binary op => op.isLogical || op == .subtract || mode == .operator
  | .regex => mode == .pattern || (mode == .operand && Sign.opensPlainly g.text)
  | .comment => mode != .pattern
  | _ => true

namespace Sign

variable {g : Sign} {mode : ScanMode} {rest : List Char}

/-- The two conditions together are enough. -/
theorem Delimited.fits (h : g.Delimited rest) (hm : g.suits mode = true) : g.Fits mode rest := by
  cases h with
  | punctuation h => exact fits_punctuation h
  | minus => exact fits_minus
  | not h => exact fits_not h
  | dot h => exact fits_dot h
  | star => exact fits_star (by simpa [suits] using hm)
  | assign h =>
    obtain rfl : mode = .operator := by simpa [suits] using hm
    exact fits_assign h
  | keyword hw hk hl h => exact fits_keyword hw hk hl h
  | ident hn h => exact fits_ident hn h
  | lambda => exact fits_lambda
  | binary op h =>
    have hclear : Clear rest := by
      intro c hc
      rcases h with h | h <;> (rw [h] at hc; cases hc; decide)
    simp only [suits, Bool.or_eq_true, beq_iff_eq] at hm
    rcases hm with (hop | rfl) | rfl
    · exact fits_logical hop hclear
    · exact fits_minus
    · exact fits_binary op h
  | whole hw h => exact fits_whole hw h
  | fraction hw hp h => exact fits_fraction hw hp h
  | duration hw hu h => exact fits_duration hw hu h
  | reference hb => exact fits_reference hb
  | string hb hq h => exact fits_string hb hq h
  | triple hb => exact fits_triple hb
  | regex hb =>
    simp only [suits, Bool.or_eq_true, Bool.and_eq_true, beq_iff_eq] at hm
    rcases hm with rfl | ⟨rfl, hp⟩
    · exact fits_regex hb
    · exact fits_regex_operand hb hp
  | comment hb => exact fits_comment (by simpa [suits] using hm) hb

theorem Delimited.text_ne_nil (h : g.Delimited rest) : g.text ≠ [] := by
  cases h with
  | keyword hw _ _ _ => rintro rfl; simp [isWord] at hw
  | ident hn _ => rintro rfl; simp [isName, isWord] at hn
  | whole hw _ => exact ne_nil_of_isWhole hw
  | duration hw _ _ => exact List.append_ne_nil_of_left_ne_nil (ne_nil_of_isWhole hw) _
  | binary op _ => cases op <;> decide
  | _ => simp [lambdaText]

end Sign

/-! ## Texts that are read back -/

/-- No sign runs into the next one. -/
def Delimits : List Piece → Prop
  | [] => True
  | .blank b :: ps => (∀ c ∈ b, Text.isSpace c = true) ∧ Delimits ps
  | .sign g :: ps => g.Delimited (spelled ps) ∧ Delimits ps

/-- Every sign suits the mode in which the scanner arrives, when it starts in `mode`. -/
def Placed (mode : ScanMode) : List Piece → Bool
  | [] => true
  | .blank _ :: ps => Placed mode ps
  | .sign g :: ps => g.suits mode && Placed g.kind.modeAfter ps

/-- Every sign is read where it stands, when the scanner starts in `mode`. -/
def Fitting (mode : ScanMode) : List Piece → Prop
  | [] => True
  | .blank b :: ps => (∀ c ∈ b, Text.isSpace c = true) ∧ Fitting mode ps
  | .sign g :: ps => g.text ≠ [] ∧ g.Fits mode (spelled ps) ∧ Fitting g.kind.modeAfter ps

theorem fitting_of_delimits {ps : List Piece} {mode : ScanMode} (hd : Delimits ps)
    (hp : Placed mode ps = true) : Fitting mode ps := by
  induction ps generalizing mode with
  | nil => trivial
  | cons p ps ih =>
    cases p with
    | blank b => exact ⟨hd.1, ih hd.2 hp⟩
    | sign g =>
      simp only [Placed, Bool.and_eq_true] at hp
      exact ⟨hd.1.text_ne_nil, hd.1.fits hp.1, ih hd.2 hp.2⟩

/-- The tokens of pieces that stand at an offset, with the end of the text. -/
def tokensAt (offset : Nat) : List Piece → List Token
  | [] => [⟨.eof, offset, ""⟩]
  | .blank b :: ps => tokensAt (offset + Text.size b) ps
  | .sign g :: ps =>
    ⟨g.kind, offset, String.ofList g.text⟩ :: tokensAt (offset + Text.size g.text) ps

theorem length_tokensAt_le {ps : List Piece} {mode : ScanMode} (h : Fitting mode ps)
    (offset : Nat) : (tokensAt offset ps).length ≤ Text.size (spelled ps) + 1 := by
  induction ps generalizing mode offset with
  | nil => simp [tokensAt]
  | cons p ps ih =>
    cases p with
    | blank b =>
      have := ih h.2 (offset + Text.size b)
      simp only [tokensAt, spelled_blank, Text.size_append]
      omega
    | sign g =>
      have hlen := ih h.2.2 (offset + Text.size g.text)
      have hpos := Text.size_pos h.1
      simp only [tokensAt, spelled_sign, Text.size_append, List.length_cons]
      omega

theorem Scanner.run_congr {source : List Char} {a b : Option Cursor} (limit : Nat)
    (h : Scanner.next ⟨source, a⟩ = Scanner.next ⟨source, b⟩) :
    Scanner.run limit ⟨source, a⟩ = Scanner.run limit ⟨source, b⟩ := by
  rw [Scanner.run, Scanner.run, h]

/-- A text made of pieces is scanned piece by piece. -/
theorem Scanner.run_spelled {ps : List Piece} {mode : ScanMode} (h : Fitting mode ps)
    (source : List Char) (offset limit : Nat) (hl : (tokensAt offset ps).length ≤ limit) :
    Scanner.run limit ⟨source, some ⟨mode, offset, spelled ps⟩⟩ =
      ⟨tokensAt offset ps, .ended⟩ := by
  induction ps generalizing mode offset limit with
  | nil =>
    obtain ⟨k, rfl⟩ : ∃ k, limit = k + 1 := ⟨limit - 1, by simp [tokensAt] at hl; omega⟩
    have hnext : Scanner.next ⟨source, some ⟨mode, offset, spelled []⟩⟩ =
        .token ⟨.eof, offset, ""⟩ none := rfl
    have hend : Scanner.run k ⟨source, none⟩ = ⟨[], .ended⟩ := by rw [Scanner.run, Scanner.next]
    rw [Scanner.run, hnext]
    simp only [hend, tokensAt]
  | cons p ps ih =>
    cases p with
    | blank b =>
      have hnext : Scanner.next ⟨source, some ⟨mode, offset, b ++ spelled ps⟩⟩ =
          Scanner.next ⟨source, some ⟨mode, offset + Text.size b, spelled ps⟩⟩ :=
        Scanner.read_blank b h.1
      rw [spelled_blank, Scanner.run_congr limit hnext]
      exact ih h.2 _ _ hl
    | sign g =>
      obtain ⟨k, rfl⟩ : ∃ k, limit = k + 1 := ⟨limit - 1, by simp [tokensAt] at hl; omega⟩
      have hnext : Scanner.next ⟨source, some ⟨mode, offset, g.text ++ spelled ps⟩⟩ =
          Scan.emit g.kind offset g.text (spelled ps) g.kind.modeAfter :=
        h.2.1 source offset
      have hrest := ih h.2.2 (offset + Text.size g.text) k (by simpa [tokensAt] using hl)
      rw [spelled_sign, Scanner.run, hnext]
      simp only [Scan.emit, hrest, tokensAt]

/-- The tokens of a text made of pieces. -/
theorem TokenStream.ofSource_fitting {ps : List Piece} (h : Fitting .operand ps) :
    TokenStream.ofSource (spelled ps) = ⟨tokensAt 0 ps, .ended⟩ :=
  Scanner.run_spelled h _ 0 _ (length_tokensAt_le h 0)

theorem TokenStream.ofSource_spelled {ps : List Piece} (hd : Delimits ps)
    (hp : Placed .operand ps = true) :
    TokenStream.ofSource (spelled ps) = ⟨tokensAt 0 ps, .ended⟩ :=
  ofSource_fitting (fitting_of_delimits hd hp)

/-! ## Slots -/

/-- The sign of a slot's token. -/
def Slot.sign (t : Slot) : Sign := ⟨t.token.kind, t.token.text.toList⟩

theorem Slot.kind_of_sign {t : Slot} {kind : TokenKind} {text : List Char}
    (h : t.sign = ⟨kind, text⟩) : t.token.kind = kind := congrArg Sign.kind h

theorem Slot.text_of_sign {t : Slot} {kind : TokenKind} {text : List Char}
    (h : t.sign = ⟨kind, text⟩) : t.token.text = String.ofList text := by
  have htext : t.token.text.toList = text := congrArg Sign.text h
  rw [← htext, String.ofList_toList]

theorem map_sign_slotsBehind (bytes : List UInt8) (before : List Token) (offset : Nat)
    (ps : List Piece) :
    (slotsBehind bytes before (tokensAt offset ps)).map Slot.sign = signsOf ps ++ [⟨.eof, []⟩] := by
  induction ps generalizing before offset with
  | nil => simp [tokensAt, slotsBehind, Lookahead.isComment, Slot.sign]
  | cons p ps ih =>
    cases p with
    | blank b => exact ih _ _
    | sign g =>
      by_cases h : g.kind = .comment
      · simp only [tokensAt, slotsBehind, Lookahead.isComment, h, beq_self_eq_true, if_true,
          signsOf_comment ps h, ih]
      · simp only [tokensAt, slotsBehind, Lookahead.isComment, beq_eq_false_iff_ne.2 h,
          Bool.false_eq_true, if_false, List.map_cons, signsOf_sign ps h, ih]
        simp [Slot.sign]

/-- The slots of a written text are its signs and the end of the text. -/
theorem slotsIn_fitting {ps : List Piece} (h : Fitting .operand ps) :
    (slotsIn (spelled ps)).map Slot.sign = signsOf ps ++ [⟨.eof, []⟩] := by
  rw [slotsIn, TokenStream.ofSource_fitting h]
  exact map_sign_slotsBehind _ _ _ _

end PipelineScript

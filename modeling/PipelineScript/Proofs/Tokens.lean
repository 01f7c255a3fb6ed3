import PipelineScript.Comment
import PipelineScript.Node.Literal
import PipelineScript.Proofs.Scan

/-!
What the tokens of a script can be.

`Sign.Fits` says which texts are read as a sign; this module says the converse, what the text of a
token is like once the scanner has given it. There is one lemma for each function of the scanner,
and `Scanner.run_yields` puts them together for a whole script.

The scanner also keeps its place: the text that it holds is the text of the script from its offset
on. That matters for a regex that is looked for a few bytes back, whose token begins at the slash
where the scanner stands.
-/
namespace PipelineScript

/-- The kinds of token that end a text. -/
def TokenKind.isLast : TokenKind → Bool
  | .eof => true
  | .error => true
  | _ => false

/-! ## Places in a text -/

namespace Text

/-- What stands at an offset is what is left behind a beginning of that size. -/
theorem suffixAt_eq_some_iff {text rest : List Char} {offset : Nat} :
    suffixAt text offset = some rest ↔ ∃ start, text = start ++ rest ∧ size start = offset := by
  constructor
  · intro h
    induction text generalizing offset with
    | nil =>
      cases offset with
      | zero => exact ⟨[], by simpa [suffixAt] using h, rfl⟩
      | succ n => simp [suffixAt] at h
    | cons c cs ih =>
      cases offset with
      | zero => exact ⟨[], by simpa [suffixAt] using h, rfl⟩
      | succ n =>
        rw [suffixAt] at h
        split at h
        · rename_i hle
          obtain ⟨start, rfl, hsize⟩ := ih h
          refine ⟨c :: start, rfl, ?_⟩
          rw [size_cons, hsize]
          omega
        · cases h
  · rintro ⟨start, rfl, rfl⟩
    exact suffixAt_size_append start rest

/-- Behind a part of what stands at an offset stands the rest of it. -/
theorem suffixAt_add {text part rest : List Char} {offset : Nat}
    (h : suffixAt text offset = some (part ++ rest)) :
    suffixAt text (offset + size part) = some rest := by
  obtain ⟨start, rfl, rfl⟩ := suffixAt_eq_some_iff.1 h
  exact suffixAt_eq_some_iff.2 ⟨start ++ part, by simp, by simp⟩

/-- A text of characters of one byte has as many bytes as characters. -/
theorem size_eq_length {cs : List Char} (h : ∀ c ∈ cs, c.utf8Size = 1) : size cs = cs.length := by
  induction cs with
  | nil => rfl
  | cons c cs ih =>
    have hc := h c List.mem_cons_self
    have hcs := ih fun d hd => h d (List.mem_cons_of_mem _ hd)
    rw [size_cons, hc, hcs, List.length_cons, Nat.add_comm]

/-- Two texts that stand at the same offset are the same. -/
theorem append_left_of_size {xs xs' ys ys' : List Char} (h : xs ++ ys = xs' ++ ys')
    (hsize : size xs = size xs') : xs = xs' ∧ ys = ys' := by
  have h₁ := suffixAt_size_append xs ys
  rw [h, hsize, suffixAt_size_append xs' ys', Option.some.injEq] at h₁
  subst h₁
  exact ⟨List.append_cancel_right h, rfl⟩

end Text

/-! ## Texts that close -/

namespace Sign

/-- Where a text is found to close, it is a body with the mark behind it. -/
theorem closes_of_closing {mark : Char} {text lexeme rest : List Char}
    (h : Lexeme.closing mark text = some (lexeme, rest)) :
    ∃ body, lexeme = body ++ [mark] ∧ Closes mark body := by
  have hclosed := (Lexeme.closing_eq_some_iff.1 h).2
  obtain ⟨body, rfl⟩ := hclosed.exists_body
  exact ⟨body, rfl, closes_iff.2 hclosed⟩

section

variable {mark c d : Char} {cs ds : List Char}

theorem Closes.of_cons (hc : c ≠ '\\') (h : Closes mark (c :: cs)) : Closes mark cs := by
  rw [closes_iff, List.cons_append] at h
  by_cases hm : c = mark
  · subst hm
    simpa using (Lexeme.closed_last_iff hc).1 h
  · rw [Lexeme.closed_plain_iff hm fun hb => hc hb.1] at h
    exact closes_iff.2 h

/-- An escaped mark does not close a text. -/
theorem Closes.of_escape (h : Closes mark ('\\' :: mark :: cs)) : Closes mark cs :=
  closes_iff.2 (Lexeme.closed_hidden_iff.1 (closes_iff.1 h))

theorem Closes.of_backslash (hd : d ≠ mark) (h : Closes mark ('\\' :: d :: cs)) :
    Closes mark (d :: cs) :=
  closes_iff.2 ((Lexeme.closed_backslash_iff hd).1 (closes_iff.1 h))

theorem not_closes_mark (hm : mark ≠ '\\') : ¬Closes mark (mark :: cs) := by
  intro h
  simpa using (Lexeme.closed_last_iff hm).1 (closes_iff.1 h)

theorem not_closes_backslash : ¬Closes mark ['\\'] := by
  simp [Closes, Lexeme.closing]

/-- Behind a mark inside it a text closes as well: the mark has a backslash before it. -/
theorem Closes.behind_mark (hm : mark ≠ '\\') {body : List Char} :
    ∀ {before : List Char}, Closes mark (before ++ mark :: body) → Closes mark body
  | [], h => absurd h (not_closes_mark hm)
  | [c], h => by
    by_cases hc : c = '\\'
    · subst hc
      exact h.of_escape
    · exact absurd (h.of_cons hc) (not_closes_mark hm)
  | c :: d :: before, h => by
    by_cases hc : c = '\\'
    · subst hc
      by_cases hd : d = mark
      · rw [hd] at h
        exact Closes.behind_mark hm h.of_escape
      · have h' : Closes mark ((d :: before) ++ mark :: body) := h.of_backslash hd
        exact Closes.behind_mark hm h'
    · have h' : Closes mark ((d :: before) ++ mark :: body) := h.of_cons hc
      exact Closes.behind_mark hm h'

/-- A text that closes does not end in a backslash. -/
theorem Closes.getLast?_ne :
    ∀ {body : List Char}, Closes mark body → body.getLast? ≠ some '\\'
  | [], _ => by simp
  | [c], h => by
    intro hc
    obtain rfl : c = '\\' := by simpa using hc
    exact not_closes_backslash h
  | c :: d :: cs, h => by
    rw [List.getLast?_cons_cons]
    by_cases hc : c = '\\'
    · subst hc
      by_cases hd : d = mark
      · rw [hd] at h ⊢
        cases cs with
        | nil =>
          intro hm
          obtain rfl : mark = '\\' := by simpa using hm
          simp [Closes, Lexeme.closing] at h
        | cons e es =>
          rw [List.getLast?_cons_cons]
          exact Closes.getLast?_ne h.of_escape
      · exact Closes.getLast?_ne (h.of_backslash hd)
    · exact Closes.getLast?_ne (h.of_cons hc)

end

end Sign

/-! ## What the text of a token is like -/

/-- A text in triple quotes, up to where the scanner closed it: the last three bytes are three
characters, though they need not be quotes. -/
def Sign.IsTriple (text : List Char) : Prop :=
  ∃ body tail, text = ['\'', '\'', '\''] ++ (body ++ tail) ∧ Text.size tail = 3

/-- The text between triple quotes stands before the last three bytes, whatever these are. -/
theorem Node.stringBody?_triple {body tail : List Char} (htail : Text.size tail = 3) :
    Node.stringBody? (['\'', '\'', '\''] ++ (body ++ tail)) = some (body, true) := by
  have hquotes : Text.size ['\'', '\'', '\''] = 3 := rfl
  have hsize : Text.size (['\'', '\'', '\''] ++ (body ++ tail)) = Text.size body + 6 := by
    simp only [Text.size_append]
    omega
  rw [Node.stringBody?, hsize, if_pos ⟨by omega, rfl⟩, Nat.add_sub_cancel]
  show (Text.takeBytes? (body ++ tail) (Text.size body)).map _ = _
  rw [Text.takeBytes?_size_append, Option.map_some]

/-- There is a text between triple quotes. -/
theorem Sign.IsTriple.exists_body {text : List Char} (h : Sign.IsTriple text) :
    ∃ body, Node.stringBody? text = some (body, true) := by
  obtain ⟨body, tail, rfl, htail⟩ := h
  exact ⟨body, Node.stringBody?_triple htail⟩

/-- What the text of a token is like, by its kind. -/
def Token.Formed (t : Token) : Prop :=
  match t.kind with
  | .ident => Sign.isName t.text.toList = true
  | .number =>
    Sign.isWhole t.text.toList = true ∨
      ∃ whole part, t.text.toList = whole ++ '.' :: part ∧ whole.all Text.isDigit = true ∧
        part.all Text.isDigit = true
  | .duration =>
    ∃ whole unit, t.text.toList = whole ++ unit ∧ Sign.isWhole whole = true ∧
      Sign.isUnitText unit = true
  | .string =>
    (∃ body, t.text.toList = '\'' :: (body ++ ['\'']) ∧ Sign.Closes '\'' body ∧
      body.head? ≠ some '\'') ∨ Sign.IsTriple t.text.toList
  | .reference => ∃ body, t.text.toList = '"' :: (body ++ ['"']) ∧ Sign.Closes '"' body
  | .regex => Sign.Closes '/' (Text.dropEnds t.text.toList)
  | .comment => ∃ cs, t.text = String.ofList ('/' :: '/' :: cs)
  | _ => True

/-- Nothing is asked of the text of a last token. -/
theorem Token.formed_of_isLast {t : Token} (h : t.kind.isLast = true) : t.Formed := by
  cases hk : t.kind <;> simp [hk, TokenKind.isLast] at h <;> simp [Formed, hk]

namespace Scan

/-- At an offset stands a slash before a character of more than one byte. Where an operand is
expected, the scanner looks for a regex a few bytes back from there. -/
def WideSlash (source : List Char) (offset : Nat) : Prop :=
  ∃ d ds, Text.suffixAt source offset = some ('/' :: d :: ds) ∧ 1 < d.utf8Size

theorem size_of_not_wideSlash {source rest : List Char} {offset : Nat}
    (hw : ¬WideSlash source offset) (h : Text.suffixAt source offset = some ('/' :: rest)) :
    ∀ d, rest.head? = some d → d.utf8Size = 1 := by
  intro d hd
  obtain ⟨ds, rfl⟩ := List.head?_eq_some_iff.1 hd
  exact Nat.le_antisymm (Nat.not_lt.1 fun hlt => hw ⟨d, ds, h, hlt⟩) d.utf8Size_pos

/-- A token is cut off the text that stands at an offset of the source: its text is as it should
be, the cursor stands right behind it, and only a regex that was looked for a few bytes back may
be empty. -/
structure Cut (source : List Char) (offset : Nat) (t : Token) (cursor : Cursor) : Prop where
  inner : t.kind.isLast = false
  formed : t.Formed
  offset_eq : t.offset = offset
  mode_eq : cursor.mode = t.kind.modeAfter
  stop_eq : cursor.offset = offset + Text.size t.text.toList
  place : Text.suffixAt source offset = some (t.text.toList ++ cursor.rest)
  regex_of_empty : t.text.toList = [] → t.kind = .regex ∧ WideSlash source offset

/-- The cursor behind a token keeps its place. -/
theorem Cut.keeps {source : List Char} {offset : Nat} {t : Token} {cursor : Cursor}
    (h : Cut source offset t cursor) : Text.suffixAt source cursor.offset = some cursor.rest := by
  rw [h.stop_eq]
  exact Text.suffixAt_add h.place

/-- A last token: a diagnostic, or the end of the text where the text ends. -/
structure Stops (source : List Char) (offset : Nat) (t : Token) : Prop where
  kind_eq : t.kind = .error ∨ t.kind = .eof ∧ t.text = "" ∧ Text.suffixAt source offset = some []
  offset_eq : t.offset = offset

theorem Stops.isLast {source : List Char} {offset : Nat} {t : Token} (h : Stops source offset t) :
    t.kind.isLast = true := by
  rcases h.kind_eq with hk | ⟨hk, -⟩ <;> rw [hk] <;> rfl

/-- What a step of a scanner gives at an offset: a last token, or one that is cut off there. Only
before a character of more than one byte can the scanner be lost. -/
def Yields (source : List Char) (offset : Nat) : Scan → Prop
  | .token t none => Stops source offset t
  | .token t (some cursor) => Cut source offset t cursor
  | .ended => False
  | .lost => WideSlash source offset

variable {source lexeme cs rest : List Char} {offset : Nat} {c : Char}

theorem yields_fail (message : String) : (fail offset message).Yields source offset :=
  ⟨.inl rfl, rfl⟩

theorem yields_emit {kind : TokenKind} (hk : kind.isLast = false)
    (hf : Token.Formed ⟨kind, offset, String.ofList lexeme⟩)
    (hne : lexeme = [] → kind = .regex ∧ WideSlash source offset)
    (hs : Text.suffixAt source offset = some (lexeme ++ rest)) :
    (emit kind offset lexeme rest kind.modeAfter).Yields source offset where
  inner := hk
  formed := hf
  offset_eq := rfl
  mode_eq := rfl
  stop_eq := by simp only [String.toList_ofList]
  place := by simpa only [String.toList_ofList] using hs
  regex_of_empty := by simpa only [String.toList_ofList] using hne

/-- A token that begins with a character is not empty. -/
theorem yields_cons {kind : TokenKind} (hk : kind.isLast = false)
    (hf : Token.Formed ⟨kind, offset, String.ofList (c :: lexeme)⟩)
    (hs : Text.suffixAt source offset = some (c :: lexeme ++ rest)) :
    (emit kind offset (c :: lexeme) rest kind.modeAfter).Yields source offset :=
  yields_emit hk hf (by simp) hs

theorem yields_word (hc : Text.isAlphabetic c = true)
    (hs : Text.suffixAt source offset = some (c :: cs)) :
    (word offset c cs).Yields source offset := by
  have happ := Lexeme.name_append cs
  have hword : Sign.isWord (c :: (Lexeme.name cs).1) = true := by
    simp [Sign.isWord, hc, Lexeme.name]
  have hs' : Text.suffixAt source offset =
      some ((c :: (Lexeme.name cs).1) ++ (Lexeme.name cs).2) := by
    rw [hs, List.cons_append, happ]
  -- A name is a name unless it is a keyword, and the word that opens a lambda is one only before a
  -- colon.
  have hident : (TokenKind.keyword? (String.ofList (c :: (Lexeme.name cs).1)) = none ∨
      TokenKind.keyword? (String.ofList (c :: (Lexeme.name cs).1)) = some .lambda) →
      (emit .ident offset (c :: (Lexeme.name cs).1) (Lexeme.name cs).2 .operator).Yields
        source offset := by
    intro hk
    refine yields_cons rfl ?_ hs'
    simpa [Token.Formed, Sign.isName, hword] using hk
  rw [word]
  dsimp only
  cases hk : TokenKind.keyword? (String.ofList (c :: (Lexeme.name cs).1)) with
  | none => exact hident (.inl hk)
  | some kind =>
    by_cases hl : kind = .lambda
    · subst hl
      dsimp only
      split
      · rename_i d rest' hrest
        split
        · refine yields_cons rfl trivial ?_
          rw [hs', hrest]
          simp
        · exact hident (.inr hk)
      · exact hident (.inr hk)
    · have hplain : kind.isLast = false ∧ kind.modeAfter = .operator ∧
          Token.Formed ⟨kind, offset, String.ofList (c :: (Lexeme.name cs).1)⟩ := by
        simp only [TokenKind.keyword?] at hk
        split_ifs at hk <;> cases hk <;> exact ⟨rfl, rfl, trivial⟩
      have hemit : (emit kind offset (c :: (Lexeme.name cs).1) (Lexeme.name cs).2 .operator).Yields
          source offset := by
        rw [← hplain.2.1]
        exact yields_cons hplain.1 hplain.2.2 hs'
      cases kind with
      | lambda => contradiction
      | _ => exact hemit

/-- What `fraction` gives behind digits and a point. -/
theorem yields_fraction {whole : List Char} (hw : whole.all Text.isDigit = true)
    (hs : Text.suffixAt source offset = some (whole ++ '.' :: cs)) :
    (fraction offset whole cs).Yields source offset := by
  have happ := Lexeme.digits_append cs
  have hpart : (Lexeme.digits cs).1.all Text.isDigit = true := by simp [Lexeme.digits]
  have hemit : ∀ rest, (Lexeme.digits cs).2 = rest →
      (emit .number offset (whole ++ '.' :: (Lexeme.digits cs).1) rest .operator).Yields source
        offset := by
    rintro rest rfl
    refine yields_emit rfl (.inr ⟨whole, _, by rw [String.toList_ofList], hw, hpart⟩) (by simp) ?_
    rw [List.append_assoc, List.cons_append, happ]
    exact hs
  rw [fraction]
  dsimp only
  split
  · split
    · exact yields_fail _
    · exact hemit _ ‹_›
  · exact hemit _ ‹_›

theorem yields_number (hc : Text.isDigit c = true)
    (hs : Text.suffixAt source offset = some (c :: cs)) :
    (number offset (c :: cs)).Yields source offset := by
  have happ := Lexeme.digits_append (c :: cs)
  have hwhole : Sign.isWhole (Lexeme.digits (c :: cs)).1 = true := by
    simp [Sign.isWhole, Lexeme.digits, hc]
  have hwide : (Lexeme.digits (c :: cs)).1.all Text.isDigit = true := Sign.all_of_isWhole hwhole
  have hne : (Lexeme.digits (c :: cs)).1 ≠ [] := by
    intro hnil
    rw [hnil] at hwhole
    cases hwhole
  rw [← happ] at hs
  -- The scanner ends a number in two ways: as a duration with its unit, or as it is.
  have hduration : ∀ unit rest, (Lexeme.digits (c :: cs)).2 = unit ++ rest →
      Sign.isUnitText unit = true →
      (emit .duration offset ((Lexeme.digits (c :: cs)).1 ++ unit) rest .operator).Yields source
        offset := by
    intro unit rest hrest hu
    refine yields_emit rfl ⟨_, unit, by rw [String.toList_ofList], hwhole, hu⟩ (by simp [hne]) ?_
    rw [List.append_assoc, ← hrest]
    exact hs
  have hnumber : ∀ rest, (Lexeme.digits (c :: cs)).2 = rest →
      (emit .number offset (Lexeme.digits (c :: cs)).1 rest .operator).Yields source offset := by
    rintro rest rfl
    exact yields_emit rfl (.inl (by rw [String.toList_ofList]; exact hwhole)) (by simp [hne]) hs
  rw [number]
  dsimp only
  split
  · rename_i d rest' hrest
    split
    · rename_i hd
      subst hd
      rw [hrest] at hs
      exact yields_fraction hwide hs
    · split
      · rename_i hunit
        split
        · rename_i e rest''
          split
          · rename_i hms
            obtain ⟨rfl, rfl⟩ := hms
            exact hduration ['m', 's'] _ hrest (by decide)
          · exact hduration [d] _ hrest hunit
        · exact hduration [d] _ hrest hunit
      · exact hnumber _ hrest
  · exact hnumber _ ‹_›

theorem yields_point (hs : Text.suffixAt source offset = some ('.' :: cs)) :
    (point offset cs).Yields source offset := by
  rw [point.eq_def]
  split
  · split
    · exact yields_fraction rfl hs
    · exact yields_cons rfl trivial hs
  · exact yields_cons rfl trivial hs

theorem yields_reference (hs : Text.suffixAt source offset = some ('"' :: cs)) :
    (reference offset cs).Yields source offset := by
  rw [reference]
  split
  · rename_i lexeme rest hclosing
    obtain ⟨body, rfl, hbody⟩ := Sign.closes_of_closing hclosing
    have happ := Lexeme.closing_append hclosing
    refine yields_cons rfl ⟨body, by rw [String.toList_ofList], hbody⟩ ?_
    rw [List.cons_append, happ]
    exact hs
  · exact yields_fail _

/-- The end of a text, from where the count of its quotes began for the last time. It holds quotes
and the backslashes that leave the count alone. -/
def Closing (total : Nat) (lexeme : List Char) : Prop :=
  ∃ body tail, lexeme = body ++ tail ∧ (∀ c ∈ tail, c.utf8Size = 1) ∧
    (body = [] ∨ total ≤ tail.length)

theorem Closing.narrow {total : Nat} {c : Char} {lexeme : List Char} (hc : c.utf8Size = 1)
    (h : Closing total lexeme) : Closing total (c :: lexeme) := by
  obtain ⟨body, tail, rfl, htail, hbody⟩ := h
  rcases hbody with rfl | hlen
  · refine ⟨[], c :: tail, rfl, ?_, .inl rfl⟩
    intro d hd
    rcases List.mem_cons.1 hd with rfl | hd
    · exact hc
    · exact htail d hd
  · exact ⟨c :: body, tail, rfl, htail, .inr hlen⟩

theorem Closing.le {total : Nat} {lexeme : List Char} (h : Closing total lexeme)
    (hlen : total ≤ lexeme.length) :
    ∃ body tail, lexeme = body ++ tail ∧ (∀ c ∈ tail, c.utf8Size = 1) ∧ total ≤ tail.length := by
  obtain ⟨body, tail, rfl, htail, hbody⟩ := h
  rcases hbody with rfl | hle
  · exact ⟨[], tail, rfl, htail, hlen⟩
  · exact ⟨body, tail, rfl, htail, hle⟩

theorem closing_of_closed {total missing : Nat} {lexeme : List Char} (ht : 1 ≤ total)
    (h : Lexeme.Closed '\'' total missing lexeme) : Closing total lexeme := by
  have hquote : ('\'' : Char).utf8Size = 1 := rfl
  have hback : ('\\' : Char).utf8Size = 1 := rfl
  induction h with
  | hidden _ ih => exact (ih.narrow hquote).narrow hback
  | backslash _ _ ih => exact ih.narrow hback
  | last _ => exact ⟨[], ['\''], rfl, by simp [hquote], .inl rfl⟩
  | counted _ _ ih => exact ih.narrow hquote
  | plain _ _ hclosed ih =>
    -- Here the count begins again, so what follows is long enough.
    obtain ⟨body, tail, rfl, htail, hlen⟩ := ih.le (hclosed.le_length ht (Nat.le_refl _))
    exact ⟨_ :: body, tail, rfl, htail, .inr hlen⟩

/-- The last three bytes of a text that closes triple quotes are three characters. -/
theorem isTriple_of_closingQuotes {text lexeme rest : List Char}
    (h : Lexeme.closingQuotes 3 3 text = some (lexeme, rest)) :
    Sign.IsTriple (['\'', '\'', '\''] ++ lexeme) := by
  have hclosed := (Lexeme.closingQuotes_eq_some_iff.1 h).2
  have hlen := hclosed.le_length (by omega) (Nat.le_refl 3)
  obtain ⟨body, tail, rfl, htail, hle⟩ := (closing_of_closed (by omega) hclosed).le hlen
  refine ⟨body ++ tail.take (tail.length - 3), tail.drop (tail.length - 3), ?_, ?_⟩
  · rw [List.append_assoc, List.take_append_drop]
  · rw [Text.size_eq_length fun c hc => htail c (List.mem_of_mem_drop hc), List.length_drop]
    omega

theorem yields_string (hs : Text.suffixAt source offset = some ('\'' :: cs)) :
    (string offset cs).Yields source offset := by
  -- A string in single quotes, an empty one, and below one in triple quotes.
  have hsingle : cs.head? ≠ some '\'' → (quoted offset ['\''] cs).Yields source offset := by
    intro hq
    rw [quoted]
    split
    · rename_i lexeme rest hclosing
      have happ := Lexeme.closingQuotes_append hclosing
      rw [List.length_singleton, Lexeme.closingQuotes_one] at hclosing
      obtain ⟨body, rfl, hbody⟩ := Sign.closes_of_closing hclosing
      have hhead : body.head? ≠ some '\'' := by
        intro hb
        apply hq
        rw [← happ]
        cases body with
        | nil => simp at hb
        | cons b bs => simpa using hb
      refine yields_emit rfl (.inl ⟨body, by rw [String.toList_ofList]; rfl, hbody, hhead⟩)
        (by simp) ?_
      rw [List.append_assoc, happ]
      exact hs
    · exact yields_fail _
  have hempty : ∀ rest, cs = '\'' :: rest →
      (emit .string offset ['\'', '\''] rest .operator).Yields source offset := by
    rintro rest rfl
    have hcloses : Sign.Closes '\'' [] := by decide
    exact yields_cons rfl (.inl ⟨[], by rw [String.toList_ofList]; rfl, hcloses, by simp⟩) hs
  rw [string.eq_def]
  split
  · rename_i d ds
    split
    · rename_i hd
      subst hd
      split
      · rename_i e es
        split
        · rename_i he
          subst he
          rw [quoted]
          split
          · rename_i lexeme rest hclosing
            have happ := Lexeme.closingQuotes_append hclosing
            have htriple := isTriple_of_closingQuotes hclosing
            refine yields_emit rfl (.inr ?_) (by simp) ?_
            · rw [String.toList_ofList]
              exact htriple
            rw [List.append_assoc, happ]
            exact hs
          · exact yields_fail _
        · exact hempty _ rfl
      · exact hempty _ rfl
    · rename_i hd
      exact hsingle (by simpa using hd)
  · exact hsingle (by simp)

theorem yields_comment (hs : Text.suffixAt source offset = some ('/' :: '/' :: cs)) :
    (comment offset cs).Yields source offset := by
  rw [comment]
  refine yields_cons rfl ⟨_, rfl⟩ ?_
  rw [List.cons_append, List.cons_append, Lexeme.comment_append]
  exact hs

/-- The part of a closed regex that begins with a slash closes as well. -/
theorem closes_of_suffix {body start token rest : List Char} (hb : Sign.Closes '/' body)
    (hstart : '/' :: (body ++ ['/']) = start ++ token) (htoken : token ++ rest = '/' :: cs) :
    Sign.Closes '/' (Text.dropEnds token) := by
  have hnil : Sign.Closes '/' [] := by decide
  cases token with
  | nil => exact hnil
  | cons d ds =>
    obtain rfl : d = '/' := by simpa using congrArg List.head? htoken
    rcases List.eq_nil_or_concat ds with rfl | ⟨inner, e, rfl⟩
    · exact hnil
    · have hsplit : ('/' :: body) ++ ['/'] = (start ++ '/' :: inner) ++ [e] := by
        simpa using hstart
      obtain ⟨hbody, hlast⟩ := List.append_inj' hsplit rfl
      obtain rfl : '/' = e := by simpa using hlast
      rw [List.concat_eq_append, Text.dropEnds_cons_append]
      cases start with
      | nil =>
        obtain rfl : body = inner := by simpa using hbody
        exact hb
      | cons d start =>
        -- The part begins behind a slash of the body, which a backslash hides.
        obtain rfl : body = start ++ '/' :: inner := by
          simp only [List.cons_append, List.cons.injEq] at hbody
          exact hbody.2
        exact hb.behind_mark (by decide)

/-- A regex, also one that is looked for a few bytes back: its token is what stands from the slash
on, which an escape inside the text that was looked through precedes. -/
theorem yields_regex {back : Nat} {text : List Char}
    (hback : Text.suffixAt text back = some ('/' :: cs))
    (hs : Text.suffixAt source offset = some ('/' :: cs))
    (hw : back = 0 ∨ WideSlash source offset) :
    (regex offset back text).Yields source offset := by
  rw [regex.eq_def]
  split
  · exact yields_fail _
  · rename_i d ds
    split
    · rename_i hd
      subst hd
      split
      · rename_i lexeme rest hclosing
        split
        · rename_i token htoken
          obtain ⟨start, hstart, hsize⟩ := Text.suffixAt_eq_some_iff.1 htoken
          obtain ⟨start', hstart', hsize'⟩ := Text.suffixAt_eq_some_iff.1 hback
          have happ : ('/' :: lexeme) ++ rest = '/' :: ds := by
            rw [List.cons_append, Lexeme.closing_append hclosing]
          rw [hstart, hstart', List.append_assoc] at happ
          obtain ⟨rfl, htext⟩ := Text.append_left_of_size happ (hsize.trans hsize'.symm)
          obtain ⟨body, rfl, hbody⟩ := Sign.closes_of_closing hclosing
          have hwide : token = [] → WideSlash source offset := by
            -- Where the scanner does not go back, the token is the whole text.
            rintro rfl
            refine hw.resolve_left ?_
            rintro rfl
            simp [Text.suffixAt] at htoken
          refine yields_emit rfl ?_ (fun hnil => ⟨rfl, hwide hnil⟩) (by rw [htext]; exact hs)
          show Sign.Closes '/' (Text.dropEnds (String.ofList token).toList)
          rw [String.toList_ofList]
          exact closes_of_suffix hbody hstart htext
        · rename_i hlost
          refine hw.resolve_left ?_
          rintro rfl
          simp [Text.suffixAt] at hlost
      · exact yields_fail _
    · exact yields_fail _

theorem yields_slash (hs : Text.suffixAt source offset = some ('/' :: cs)) :
    (slash source offset cs).Yields source offset := by
  rw [slash.eq_def]
  split
  · exact yields_fail _
  · rename_i d ds
    split
    · rename_i hd
      subst hd
      exact yields_comment hs
    · split
      · exact yields_regex rfl hs (.inl rfl)
      · rename_i hwidth
        have hwide : WideSlash source offset := by
          have hpos := d.utf8Size_pos
          exact ⟨d, ds, hs, by omega⟩
        split
        · exact hwide
        · rename_i hlt
          split
          · rename_i text htext
            refine yields_regex ?_ hs (.inr hwide)
            -- The scanner goes back from behind the slash by the width of the character there.
            obtain ⟨start, hstart, hsize⟩ := Text.suffixAt_eq_some_iff.1 htext
            have hpos := d.utf8Size_pos
            have hjoin : offset = Text.size start + (d.utf8Size - 1) := by omega
            rw [hstart, hjoin, Text.suffixAt_behind] at hs
            exact hs
          · exact hwide

theorem yields_ite {p : Prop} [Decidable p] {x y : Scan} (hx : p → x.Yields source offset)
    (hy : ¬p → y.Yields source offset) : (if p then x else y).Yields source offset := by
  split
  · exact hx ‹p›
  · exact hy ‹¬p›

theorem yields_operand (hs : Text.suffixAt source offset = some (c :: cs)) :
    (operand source offset c cs).Yields source offset := by
  have hmark : ∀ {kind : TokenKind}, kind.isLast = false →
      Token.Formed ⟨kind, offset, String.ofList [c]⟩ →
      (emit kind offset [c] cs kind.modeAfter).Yields source offset :=
    fun hk hf => yields_cons hk hf hs
  refine yields_ite (fun _ => hmark rfl trivial) fun _ => ?_
  refine yields_ite (fun _ => hmark rfl trivial) fun _ => ?_
  refine yields_ite (fun hdigit => yields_number hdigit hs) fun _ => ?_
  refine yields_ite (fun hc => by subst hc; exact yields_point hs) fun _ => ?_
  refine yields_ite (fun halpha => yields_word halpha hs) fun _ => ?_
  refine yields_ite (fun hc => by subst hc; exact yields_reference hs) fun _ => ?_
  refine yields_ite (fun hc => by subst hc; exact yields_string hs) fun _ => ?_
  iterate 8 refine yields_ite (fun _ => hmark rfl trivial) fun _ => ?_
  exact yields_ite (fun hc => by subst hc; exact yields_slash hs) fun _ => yields_fail _

theorem yields_extended {longer : Char → Option (TokenKind × ScanMode)} {kind : TokenKind}
    (hk : kind.isLast = false) (hf : Token.Formed ⟨kind, offset, String.ofList [c]⟩)
    (hl : ∀ d kind' mode', longer d = some (kind', mode') →
      kind'.isLast = false ∧ kind'.modeAfter = mode' ∧
        Token.Formed ⟨kind', offset, String.ofList [c, d]⟩)
    (hs : Text.suffixAt source offset = some (c :: cs)) :
    (extended offset c cs longer kind kind.modeAfter).Yields source offset := by
  rw [extended.eq_def]
  split
  · split
    · rename_i hlonger
      obtain ⟨hk', rfl, hf'⟩ := hl _ _ _ hlonger
      exact yields_cons hk' hf' hs
    · exact yields_cons hk hf hs
  · exact yields_cons hk hf hs

theorem yields_operator (hs : Text.suffixAt source offset = some (c :: cs)) :
    (operator source offset c cs).Yields source offset := by
  have hmark : ∀ {op : BinaryOp}, (emit (.binary op) offset [c] cs
      (TokenKind.binary op).modeAfter).Yields source offset := yields_cons rfl trivial hs
  iterate 4 refine yields_ite (fun _ => hmark) fun _ => ?_
  refine yields_ite (fun hc => ?slash) fun _ => ?_
  case slash =>
    subst hc
    split
    · refine yields_ite (fun hd => ?_) fun _ => yields_cons rfl trivial hs
      subst hd
      exact yields_comment hs
    · exact yields_cons rfl trivial hs
  iterate 4
    refine yields_ite (fun _ => yields_extended rfl trivial (fun d kind' mode' hd => ?_) hs)
      fun _ => ?_
    · split_ifs at hd <;> cases hd <;> exact ⟨rfl, rfl, trivial⟩
  exact yields_operand hs

end Scan

namespace Scanner

variable {source : List Char}

/-- What one step of a scanner gives, behind the white space where it stands. -/
theorem read_yields {cursor : Cursor} (h : Text.suffixAt source cursor.offset = some cursor.rest) :
    (read source cursor).Yields source
      (cursor.offset + Text.size (Lexeme.blank cursor.rest).1) := by
  rw [← Lexeme.blank_append cursor.rest] at h
  have hs := Text.suffixAt_add h
  rw [read]
  dsimp only
  split
  · rename_i hrest
    rw [hrest] at hs
    exact ⟨.inr ⟨rfl, rfl, hs⟩, rfl⟩
  · rename_i c cs hrest
    rw [hrest] at hs
    split
    · exact Scan.yields_operand hs
    · exact Scan.yields_operator hs
    · split
      · rename_i hc
        subst hc
        exact Scan.yields_regex rfl hs (.inl rfl)
      · exact Scan.yields_operand hs

section

variable {cursor cursor' : Cursor} {t : Token}

theorem stops_of_read (hk : Text.suffixAt source cursor.offset = some cursor.rest)
    (hread : read source cursor = .token t none) :
    Scan.Stops source (cursor.offset + Text.size (Lexeme.blank cursor.rest).1) t := by
  have hyields := read_yields hk
  rw [hread] at hyields
  exact hyields

theorem cut_of_read (hk : Text.suffixAt source cursor.offset = some cursor.rest)
    (hread : read source cursor = .token t (some cursor')) :
    Scan.Cut source (cursor.offset + Text.size (Lexeme.blank cursor.rest).1) t cursor' := by
  have hyields := read_yields hk
  rw [hread] at hyields
  exact hyields

theorem offset_of_read {after : Option Cursor}
    (hk : Text.suffixAt source cursor.offset = some cursor.rest)
    (hread : read source cursor = .token t after) :
    t.offset = cursor.offset + Text.size (Lexeme.blank cursor.rest).1 := by
  cases after with
  | none => exact (stops_of_read hk hread).offset_eq
  | some cursor' => exact (cut_of_read hk hread).offset_eq

/-- What a scanner can do that keeps its place: it gives a last token, or one that it cuts off, or
it is lost before a character of more than one byte. -/
theorem next_cases (hk : Text.suffixAt source cursor.offset = some cursor.rest) :
    (∃ t, next ⟨source, some cursor⟩ = .token t none ∧
        Scan.Stops source (cursor.offset + Text.size (Lexeme.blank cursor.rest).1) t) ∨
      (∃ t cursor', next ⟨source, some cursor⟩ = .token t (some cursor') ∧
        Scan.Cut source (cursor.offset + Text.size (Lexeme.blank cursor.rest).1) t cursor') ∨
      next ⟨source, some cursor⟩ = .lost ∧
        Scan.WideSlash source (cursor.offset + Text.size (Lexeme.blank cursor.rest).1) := by
  have hyields := read_yields hk
  cases hread : read source cursor with
  | ended =>
    rw [hread] at hyields
    exact hyields.elim
  | lost =>
    rw [hread] at hyields
    exact .inr (.inr ⟨hread, hyields⟩)
  | token t after =>
    cases after with
    | none => exact .inl ⟨t, hread, stops_of_read hk hread⟩
    | some cursor' => exact .inr (.inl ⟨t, cursor', hread, cut_of_read hk hread⟩)

end

/-- What the run of a scanner gives: tokens whose texts are as they should be, and a last token if
the stream ends. -/
theorem run_yields (limit : Nat) {cursor : Cursor}
    (h : Text.suffixAt source cursor.offset = some cursor.rest) :
    (∀ t ∈ (run limit ⟨source, some cursor⟩).tokens, t.Formed) ∧
      ((run limit ⟨source, some cursor⟩).ending = .ended →
        ∃ t ∈ (run limit ⟨source, some cursor⟩).tokens, t.kind.isLast = true) := by
  -- A stream that is cut off does not end, so its last token is not asked for.
  induction limit generalizing cursor with
  | zero =>
    rcases next_cases h with ⟨t, hnext, -⟩ | ⟨t, cursor', hnext, -⟩ | ⟨hnext, -⟩ <;>
      simp [run, hnext]
  | succ limit ih =>
    rcases next_cases h with ⟨t, hnext, hstops⟩ | ⟨t, cursor', hnext, hcut⟩ | ⟨hnext, -⟩
    · have hform := Token.formed_of_isLast hstops.isLast
      have hend : run limit ⟨source, none⟩ = ⟨[], .ended⟩ := by rw [run, next]
      simp only [run, hnext, hend, List.mem_singleton, forall_eq]
      exact ⟨hform, fun _ => ⟨t, rfl, hstops.isLast⟩⟩
    · obtain ⟨hforms, hends⟩ := ih hcut.keeps
      rw [run, hnext]
      refine ⟨?_, fun hended => ?_⟩
      · intro t' ht'
        rcases List.mem_cons.1 ht' with rfl | ht'
        · exact hcut.formed
        · exact hforms t' ht'
      · obtain ⟨t', ht', hlast⟩ := hends hended
        exact ⟨t', List.mem_cons_of_mem _ ht', hlast⟩
    · simp [run, hnext]

end Scanner

/-- The tokens of a script. -/
theorem TokenStream.ofSource_yields (source : List Char) :
    (∀ t ∈ (TokenStream.ofSource source).tokens, t.Formed) ∧
      ((TokenStream.ofSource source).ending = .ended →
        ∃ t ∈ (TokenStream.ofSource source).tokens, t.kind.isLast = true) :=
  Scanner.run_yields (Text.size source + 1) (Text.suffixAt_size_append [] source)

end PipelineScript

import PipelineScript.Proofs.Halting
import PipelineScript.Proofs.Literals

/-!
Texts in quotes.

A string or a reference is written between two marks with a backslash before every mark inside it,
and is read by dropping those backslashes. The two directions need different arguments. What is
written is read as one token just if it does not end in a backslash, which would hide the closing
mark; the scanner then runs to the end of the text (`closing_escapeMark`). What is read is written
as it stood, because the scanner passes over a mark only behind a backslash
(`escapeMark_unescapeMark`). The main statement is `quoting_invertible`.
-/
namespace PipelineScript

section

variable {engine : PatternEngine}

/-! ## Escaped marks -/

namespace Text

/-- Writing keeps the last character of a text. -/
theorem getLast?_escapeMark (mark : Char) (cs : List Char) :
    (escapeMark mark cs).getLast? = cs.getLast? := by
  induction cs with
  | nil => rfl
  | cons c cs ih =>
    by_cases hc : c = mark
    · simp [escapeMark, hc, List.getLast?_cons, ih]
    · simp [escapeMark, hc, List.getLast?_cons, ih]

end Text

namespace Sign

variable {mark : Char}

/-- Behind a backslash at the end of an escaped text the mark does not close it, and no mark before
that does. -/
theorem closing_escapeMark (hm : mark ≠ '\\') {text : List Char}
    (h : text.getLast? = some '\\') :
    Lexeme.closing mark (Text.escapeMark mark text ++ [mark]) = none := by
  induction text with
  | nil => simp at h
  | cons c cs ih =>
    by_cases hnil : cs = []
    · obtain rfl : c = '\\' := by simpa [hnil] using h
      simp [hnil, Text.escapeMark, hm.symm, Lexeme.closing]
    · have hcs : cs.getLast? = some '\\' := by
        rwa [List.getLast?_cons_of_ne_nil hnil] at h
      have ih := ih hcs
      by_cases hc : c = mark
      · simp [Text.escapeMark, hc, Lexeme.closing, ih]
      · by_cases hb : c = '\\'
        · -- No mark stands behind this backslash.
          subst hb
          have hhead := Text.head?_escapeMark_ne mark hm cs
          cases he : Text.escapeMark mark cs with
          | nil => simp [Text.escapeMark, hc, he, Lexeme.closing]
          | cons d ds =>
            rw [he] at ih hhead
            have hd : d ≠ mark := by simpa using hhead
            rw [List.cons_append] at ih
            simp [Text.escapeMark, hc, he, Lexeme.closing, hd, ih]
        · simp [Text.escapeMark, hc, Lexeme.closing_cons hb, ih]

/-- A text that closes has a backslash before every mark, so it is written as it was read. -/
theorem Closes.escapeMark_unescapeMark (hm : mark ≠ '\\') :
    ∀ {body : List Char}, Closes mark body →
      Text.escapeMark mark (Text.unescapeMark mark body) = body
  | [], _ => rfl
  | [c], h => by
    have hc : c ≠ mark := by
      rintro rfl
      exact not_closes_mark hm h
    simp [Text.unescapeMark, Text.escapeMark, hc]
  | c :: d :: cs, h => by
    have hc : c ≠ mark := by
      rintro rfl
      exact not_closes_mark hm h
    by_cases hesc : c = '\\' ∧ d = mark
    · obtain ⟨rfl, hd⟩ := hesc
      rw [hd] at h ⊢
      have ih := Closes.escapeMark_unescapeMark hm h.of_escape
      simp [Text.unescapeMark, Text.escapeMark, ih]
    · have hrest : Closes mark (d :: cs) := by
        by_cases hb : c = '\\'
        · subst hb
          exact h.of_backslash fun hd => hesc ⟨rfl, hd⟩
        · exact h.of_cons hb
      have ih := Closes.escapeMark_unescapeMark hm hrest
      simp [Text.unescapeMark, Text.escapeMark, hesc, hc, ih]

end Sign

/-! ## Texts of one token -/

/-- The stream of a text that is a single token. -/
def TokenStream.lone (kind : TokenKind) (text : String) : TokenStream :=
  ⟨[⟨kind, 0, text⟩, ⟨.eof, Text.size text.toList, ""⟩], .ended⟩

/-- The stream of a text at whose beginning no token can be read. -/
def TokenStream.fault (message : String) : TokenStream := ⟨[⟨.error, 0, message⟩], .ended⟩

/-- A sign that the scanner takes at the beginning of a text, and that nothing follows. -/
theorem tokenize_lone {kind : TokenKind} {text : List Char}
    (hd : Sign.Delimited ⟨kind, text⟩ []) (hs : Sign.suits .operand ⟨kind, text⟩ = true) :
    tokenize (String.ofList text) = .lone kind (String.ofList text) := by
  have hpieces : Delimits [.sign ⟨kind, text⟩] := ⟨hd, trivial⟩
  have hplaced : Placed .operand [.sign ⟨kind, text⟩] = true := by simp [Placed, hs]
  have hstream := TokenStream.ofSource_spelled hpieces hplaced
  rw [spelled_sign, spelled_nil, List.append_nil] at hstream
  rw [tokenize, String.toList_ofList, hstream]
  simp [tokensAt, TokenStream.lone]

/-- A text that fails at its beginning. -/
theorem tokenize_fault {source : List Char} {message : String}
    (h : Scanner.read source ⟨.operand, 0, source⟩ = Scan.fail 0 message) :
    tokenize (String.ofList source) = .fault message := by
  have hnext : Scanner.next ⟨source, some ⟨.operand, 0, source⟩⟩ =
      .token ⟨.error, 0, message⟩ none := h
  rw [tokenize, String.toList_ofList, TokenStream.ofSource, Scanner.ofSource,
    Scanner.run_succ hnext, Scanner.run_over]
  rfl

/-- A text that is one token or fails, as the case may be. -/
theorem TokenStream.lone_iff_of_eq_ite {p q : Prop} [Decidable p] {stream : TokenStream}
    {kind : TokenKind} {text message : String}
    (h : stream = if p then fault message else lone kind text) (hq : q) :
    ((stream = lone kind text ∧ q) ↔ ¬p) ∧ (p → ∃ message, stream = fault message) := by
  by_cases hp : p
  · rw [if_pos hp] at h
    exact ⟨by simp [h, hp, lone, fault], fun _ => ⟨message, h⟩⟩
  · rw [if_neg hp] at h
    exact ⟨by simp [h, hp, hq], fun hp' => absurd hp' hp⟩

/-! ## Strings and references -/

namespace Node

/-- A literal without a comment is written as its sign. -/
theorem render_of_literalSign? {n : Node} {kind : TokenKind} {text : List Char}
    (h : n.literalSign? = some ⟨kind, text⟩) (hc : n.info.comment = none) :
    n.render = String.ofList text := by
  rw [render, renderAt, ← spelled_pieces, pieces_of_literalSign? h]
  simp [head, startsFresh, hc, renderComment, lineStart]

end Node

theorem Node.render_ofString (w : String) :
    (Node.ofString w).render = String.ofList (quotedBy '\'' w) :=
  render_of_literalSign? rfl rfl

theorem Node.render_ofReference (w : String) :
    (Node.ofReference w).render = String.ofList (quotedBy '"' w) :=
  render_of_literalSign? rfl rfl

/-- A text in single quotes is a string, unless it ends in a backslash. -/
theorem tokenize_quotedBy_single (w : String) :
    tokenize (String.ofList (quotedBy '\'' w)) =
      if w.toList.getLast? = some '\\' then .fault "unterminated string"
      else .lone .string (String.ofList (quotedBy '\'' w)) := by
  have hhead : (Text.escapeMark '\'' w.toList).head? ≠ some '\'' :=
    Text.head?_escapeMark_ne _ (by decide) _
  split
  · rename_i hw
    have hclosing := Sign.closing_escapeMark (by decide : '\'' ≠ '\\') hw
    refine tokenize_fault ?_
    rw [quotedBy, Sign.read_quote]
    cases he : Text.escapeMark '\'' w.toList with
    | nil =>
      rw [← Text.getLast?_escapeMark '\'', he] at hw
      cases hw
    | cons c cs =>
      rw [he] at hhead hclosing
      have hc : c ≠ '\'' := by simpa using hhead
      rw [List.cons_append] at hclosing
      simp only [List.cons_append, Scan.string, hc, if_false, Scan.quoted, List.length_singleton,
        Lexeme.closingQuotes_one, hclosing]
  · rename_i hw
    have hsign : Sign.Delimited ⟨.string, quotedBy '\'' w⟩ [] :=
      .string (Sign.closes_escapeMark (by decide) hw) hhead clear_nil
    exact tokenize_lone hsign rfl

/-- A text in double quotes is a reference, unless it ends in a backslash. -/
theorem tokenize_quotedBy_double (w : String) :
    tokenize (String.ofList (quotedBy '"' w)) =
      if w.toList.getLast? = some '\\' then .fault "unterminated field reference"
      else .lone .reference (String.ofList (quotedBy '"' w)) := by
  split
  · rename_i hw
    have hclosing := Sign.closing_escapeMark (by decide : '"' ≠ '\\') hw
    refine tokenize_fault ?_
    rw [quotedBy, Scanner.read_plain (by decide) (by decide)]
    show Scan.reference 0 _ = _
    rw [Scan.reference, hclosing]
  · rename_i hw
    have hsign : Sign.Delimited ⟨.reference, quotedBy '"' w⟩ [] :=
      .reference (Sign.closes_escapeMark (by decide) hw)
    exact tokenize_lone hsign rfl

section

variable {t : Token} {position : Position}

/-- The text of a reference is written as it was read. -/
theorem Token.Formed.render_reference (h : t.Formed) (hk : t.kind = .reference) :
    (Node.referenceOfText ⟨position, none⟩ t.text).render = t.text := by
  simp only [Formed, hk] at h
  obtain ⟨body, htext, hbody⟩ := h
  rw [Node.referenceOfText, Node.render_of_literalSign? rfl rfl, quotedBy, String.toList_ofList,
    htext, Text.dropEnds_cons_append, hbody.escapeMark_unescapeMark (by decide), ← htext,
    String.ofList_toList]

/-- The text of a string that does not open with three quotes is written as it was read. -/
theorem Token.Formed.render_string (h : t.Formed) (hk : t.kind = .string)
    (hopen : ¬"'''".toList <+: t.text.toList) :
    ∃ n, Node.stringOfText? ⟨position, none⟩ t.text = some n ∧ n.render = t.text := by
  simp only [Formed, hk] at h
  rcases h with ⟨body, htext, hbody, hhead⟩ | ⟨body, tail, htext, -⟩
  · refine ⟨_, by rw [Node.stringOfText?, htext, Node.stringBody?_single hhead]; rfl, ?_⟩
    rw [Node.render_of_literalSign? rfl rfl]
    show String.ofList (quotedBy '\'' (String.ofList (Text.unescapeMark '\'' body))) = _
    rw [quotedBy, String.toList_ofList, hbody.escapeMark_unescapeMark (by decide), ← htext,
      String.ofList_toList]
  · exact absurd ⟨body ++ tail, htext.symm⟩ hopen

end

/-- **Quoting is invertible.** A string or a reference is written as one token that stands for it,
unless it ends in a backslash: then nothing can be read of what is written. And whatever text a
script has between two quotes or two double quotes, the node that is made of it is written with
that text. -/
theorem quoting_invertible :
    (∀ (w : String) (info : Info),
      ((tokenize (Node.ofString w).render = .lone .string (Node.ofString w).render ∧
            Node.stringOfText? info (Node.ofString w).render = some (.string info w false)) ↔
          w.toList.getLast? ≠ some '\\') ∧
        (w.toList.getLast? = some '\\' →
          ∃ message, tokenize (Node.ofString w).render = .fault message)) ∧
    (∀ (w : String) (info : Info),
      ((tokenize (Node.ofReference w).render = .lone .reference (Node.ofReference w).render ∧
            Node.referenceOfText info (Node.ofReference w).render = .reference info w) ↔
          w.toList.getLast? ≠ some '\\') ∧
        (w.toList.getLast? = some '\\' →
          ∃ message, tokenize (Node.ofReference w).render = .fault message)) ∧
    ∀ (source : String) (t : Token) (position : Position), t.IsOf source →
      (t.kind = .reference →
        (Node.referenceOfText ⟨position, none⟩ t.text).render = t.text) ∧
      (t.kind = .string → ¬"'''".toList <+: t.text.toList →
        ∃ n, Node.stringOfText? ⟨position, none⟩ t.text = some n ∧ n.render = t.text) := by
  refine ⟨fun w info => ?_, fun w info => ?_, fun source t position h => ?_⟩
  · rw [Node.render_ofString]
    exact TokenStream.lone_iff_of_eq_ite (tokenize_quotedBy_single w)
      (Node.stringOfText?_quotedBy info w)
  · rw [Node.render_ofReference]
    exact TokenStream.lone_iff_of_eq_ite (tokenize_quotedBy_double w)
      (Node.referenceOfText_quotedBy info w)
  · exact ⟨h.formed.render_reference, h.formed.render_string⟩

end

open scoped PatternEngine

/-- A quote is escaped, a backslash at the end cannot be written, and an escaped quote in a script
is written as it stands there. -/
theorem quoting_invertible_quote :
    ("it's".toList.getLast? ≠ some '\\' ∧
      tokenize (Node.ofString "it's").render = .lone .string (Node.ofString "it's").render) ∧
    ("C:\\".toList.getLast? = some '\\' ∧
      ∃ message, tokenize (Node.ofReference "C:\\").render = .fault message) ∧
    (Token.IsOf ⟨.string, 2, "'it\\'s'"⟩ "f('it\\'s')" ∧
      ¬"'''".toList <+: "'it\\'s'".toList ∧
      ∃ n, Node.stringOfText? ⟨.nowhere, none⟩ "'it\\'s'" = some n ∧ n.render = "'it\\'s'") := by
  obtain ⟨hstring, hreference, htoken⟩ := quoting_invertible
  have hlast : "it's".toList.getLast? ≠ some '\\' := by decide
  have hback : "C:\\".toList.getLast? = some '\\' := by decide
  have hof : Token.IsOf ⟨.string, 2, "'it\\'s'"⟩ "f('it\\'s')" :=
    ⟨3, [some ⟨.ident, 0, "f"⟩, some ⟨.lparen, 1, "("⟩, some ⟨.string, 2, "'it\\'s'"⟩],
      by decide +kernel, by simp⟩
  have hopen : ¬"'''".toList <+: "'it\\'s'".toList := by decide
  exact ⟨⟨hlast, (((hstring "it's" .built).1).2 hlast).1⟩,
    ⟨hback, (hreference "C:\\" .built).2 hback⟩,
    hof, hopen, (htoken _ _ .nowhere hof).2 rfl hopen⟩

end PipelineScript

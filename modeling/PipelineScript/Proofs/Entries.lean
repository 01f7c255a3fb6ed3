import PipelineScript.Proofs.Layout

/-!
The comment lines of a text.

A text has the comment lines of all its comment tokens (`TokenStream.entries`). They are counted in
two places here: in a script, where they are the lines of the comments before its slots
(`flatMap_entries_slotsBehind`), and in a canonical text, where they are the lines of the comments
of the tree that was written, if the scanner divides the text as it was written
(`entries_tokenize_render`).
-/
namespace PipelineScript

variable {engine : PatternEngine}

namespace Comment

/-- The lines of a comment, without the gaps between its blocks. -/
def entries (c : Comment) : List String := c.lines.filter (· != gap)

/-- Blocks have no gaps in them. -/
theorem filter_linesOf (text : String) : (linesOf text).filter (· != gap) = linesOf text := by
  rw [List.filter_eq_self]
  intro line hline
  simpa using (tidyLine_of_mem_linesOf hline).ne_gap

/-- The lines of adjacent comment tokens are those of each of them. -/
theorem entries_ofTexts (position : Position) (texts : List String) :
    (ofTexts position texts).entries = texts.flatMap linesOf := by
  show (joinTexts texts).filter (· != gap) = _
  induction texts with
  | nil => rfl
  | cons text texts ih =>
    cases texts with
    | nil => simpa [joinTexts] using filter_linesOf text
    | cons text' texts => simp [joinTexts, filter_linesOf, ih]

end Comment

/-- The comment lines of a text: those of all its comment tokens, without the gaps between them. -/
def TokenStream.entries (s : TokenStream) : List String :=
  (Comment.ofTexts .nowhere ((s.tokens.filter Lookahead.isComment).map (·.text))).entries

theorem TokenStream.entries_eq (s : TokenStream) :
    s.entries = (s.tokens.filter Lookahead.isComment).flatMap (Comment.linesOf ·.text) := by
  rw [entries, Comment.entries_ofTexts, List.flatMap_map]

/-! ## The slots of a script -/

/-- The comment lines before a slot. -/
def Slot.entries (t : Slot) : List String := t.comment.toList.flatMap Comment.entries

theorem Lookahead.flatMap_entries_foldComments (bytes : List UInt8) (ts : List Token) :
    (foldComments bytes ts).toList.flatMap Comment.entries =
      ts.flatMap (Comment.linesOf ·.text) := by
  cases ts with
  | nil => rfl
  | cons t ts => simp [foldComments, Comment.entries_ofTexts, List.flatMap_map]

/-- If the last token is no comment, each comment token stands before a slot. -/
theorem flatMap_entries_slotsBehind (bytes : List UInt8) (before : List Token) {ts : List Token}
    {e : Token} (he : Lookahead.isComment e = false) (h : ts.getLast? = some e) :
    (slotsBehind bytes before ts).flatMap Slot.entries =
      (before ++ ts.filter Lookahead.isComment).flatMap (Comment.linesOf ·.text) := by
  induction ts generalizing before with
  | nil => cases h
  | cons t ts ih =>
    rw [slotsBehind]
    cases ht : Lookahead.isComment t with
    | true =>
      have hts : ts.getLast? = some e := by
        cases ts with
        | nil =>
          obtain rfl : t = e := by simpa using h
          rw [ht] at he
          cases he
        | cons => exact h
      rw [if_pos rfl, ih _ hts, List.filter_cons_of_pos (by simpa using ht), List.append_assoc]
      rfl
    | false =>
      have hslot : Slot.entries ⟨t, Lookahead.foldComments bytes before⟩ =
          before.flatMap (Comment.linesOf ·.text) :=
        Lookahead.flatMap_entries_foldComments bytes before
      rw [if_neg (by simp), List.flatMap_cons, hslot, List.filter_cons_of_neg (by simp [ht]),
        List.flatMap_append]
      cases ts with
      | nil => rfl
      | cons u us => rw [ih [] h, List.nil_append]

/-! ## Written lines -/

/-- A text between blanks, which neither begins nor ends with one. -/
theorem Text.trim_append {indent cs : List Char} (hi : ∀ c ∈ indent, isSpace c = true)
    (hh : ∀ c, cs.head? = some c → isSpace c = false)
    (hl : ∀ c, cs.getLast? = some c → isSpace c = false) : trim (indent ++ cs) = cs := by
  have hdrop : ∀ ds : List Char, (∀ c, ds.head? = some c → isSpace c = false) →
      ds.dropWhile isSpace = ds := by
    intro ds hds
    cases ds with
    | nil => rfl
    | cons d ds => exact List.dropWhile_cons_of_neg (by simp [hds d rfl])
  rw [trim, List.dropWhile_append_of_pos hi, hdrop cs hh, hdrop, List.reverse_reverse]
  intro c hc
  exact hl c (by rwa [List.head?_reverse] at hc)

namespace Comment

theorem splitLines_append {line : List Char} (h : '\n' ∉ line) (rest : List Char) :
    splitLines (line ++ '\n' :: rest) = line :: splitLines rest := by
  induction line with
  | nil => simp [splitLines]
  | cons c cs ih =>
    have hc : c ≠ '\n' := by
      rintro rfl
      simp at h
    rw [List.cons_append, splitLines, if_neg hc, ih fun hm => h (by simp [hm])]

theorem splitLines_of_not_mem {line : List Char} (h : '\n' ∉ line) : splitLines line = [line] := by
  induction line with
  | nil => rfl
  | cons c cs ih =>
    have hc : c ≠ '\n' := by
      rintro rfl
      simp at h
    rw [splitLines, if_neg hc, ih fun hm => h (by simp [hm])]

/-- A line of blanks is none. -/
theorem line?_blank {text : List Char} (h : ∀ c ∈ text, Text.isSpace c = true) :
    line? text = none := by
  have htrim : Text.trim text = [] := by
    have hempty : Text.trim (text ++ []) = [] := Text.trim_append h (by simp) (by simp)
    rwa [List.append_nil] at hempty
  rw [line?, htrim]
  rfl

/-- A written line is read as itself. -/
theorem line?_written {indent : List Char} (hi : Margin indent) {line : String}
    (h : TidyLine line) : line? (indent ++ '/' :: '/' :: lineBody line) = some line := by
  have hlast : ∀ c, ('/' :: '/' :: lineBody line).getLast? = some c → Text.isSpace c = false := by
    intro c hc
    rw [lineBody] at hc
    split at hc
    · cases hc
      decide
    · rename_i hline
      have hne : line.toList ≠ [] := by simpa using hline
      rw [show '/' :: '/' :: ' ' :: line.toList = ['/', '/', ' '] ++ line.toList from rfl,
        List.getLast?_append, List.getLast?_eq_some_getLast hne, Option.some_or,
        ← List.getLast?_eq_some_getLast hne] at hc
      exact h.blank c hc
  have htrim := Text.trim_append hi.isSpace (by simp; decide) hlast
  rw [line?, htrim, lineBody]
  split
  · rename_i hline
    rw [String.isEmpty_iff.1 hline]
    rfl
  · simp [dropMarker]

/-- A line of a token, with what stands behind it in the token. -/
theorem linesOf_lineText {indent : List Char} (hi : Margin indent) {line : String}
    (h : TidyLine line) (rest : List Char) :
    linesOf (String.ofList (indent ++ lineText line ++ rest)) =
      line :: linesOf (String.ofList rest) := by
  have hnewline : '\n' ∉ indent ++ '/' :: '/' :: lineBody line := by
    have := newline_not_mem_lineBody h.newline
    simp [hi.newline, this]
  rw [linesOf, linesOf, String.toList_ofList, String.toList_ofList, lineText_eq]
  rw [show indent ++ '/' :: '/' :: (lineBody line ++ ['\n']) ++ rest =
      (indent ++ '/' :: '/' :: lineBody line) ++ '\n' :: rest by simp,
    splitLines_append hnewline, List.filterMap_cons, line?_written hi h]

theorem linesOf_margin {text : List Char} (h : Margin text) :
    linesOf (String.ofList text) = [] := by
  rw [linesOf, String.toList_ofList, splitLines_of_not_mem h.newline, List.filterMap_cons,
    line?_blank h.isSpace]
  rfl

end Comment

/-- The comment lines of pieces. -/
def entriesOf : List Piece → List String
  | [] => []
  | .blank _ :: ps => entriesOf ps
  | .sign g :: ps =>
    (if g.kind = .comment then Comment.linesOf (String.ofList g.text) else []) ++ entriesOf ps

@[simp] theorem entriesOf_nil : entriesOf [] = [] := rfl

@[simp] theorem entriesOf_blank (b : List Char) (ps : List Piece) :
    entriesOf (.blank b :: ps) = entriesOf ps := rfl

theorem entriesOf_sign {g : Sign} (h : g.kind ≠ .comment) (ps : List Piece) :
    entriesOf (.sign g :: ps) = entriesOf ps := by
  rw [entriesOf, if_neg h, List.nil_append]

@[simp] theorem entriesOf_append (ps qs : List Piece) :
    entriesOf (ps ++ qs) = entriesOf ps ++ entriesOf qs := by
  induction ps with
  | nil => rfl
  | cons p ps ih => cases p <;> simp [entriesOf, ih]

namespace Comment

/-- The lines of a comment are read as they were written. -/
theorem entriesOf_lines {indent tail : List Char} (hi : Margin indent) (ht : Margin tail)
    {lines : List String} (h : ∀ line ∈ lines, line = gap ∨ TidyLine line) :
    linesOf (String.ofList (continued indent tail lines).1) ++
        entriesOf (continued indent tail lines).2 = lines.filter (· != gap) ∧
      entriesOf (remarks indent tail lines) = lines.filter (· != gap) := by
  induction lines with
  | nil => simp [continued, remarks, linesOf_margin ht]
  | cons line lines ih =>
    obtain ⟨ih₁, ih₂⟩ := ih fun l hl => h l (by simp [hl])
    by_cases hline : line = gap
    · simp [continued, remarks, hline, linesOf_margin margin_nil, ih₂]
    · have htidy := (h line (by simp)).resolve_left hline
      have htoken := linesOf_lineText margin_nil htidy (continued indent tail lines).1
      have hmore := linesOf_lineText hi htidy (continued indent tail lines).1
      rw [List.nil_append] at htoken
      have hfilter : (line :: lines).filter (· != gap) = line :: lines.filter (· != gap) :=
        List.filter_cons_of_pos (by simpa using hline)
      constructor
      · simp only [continued, if_neg hline]
        rw [hmore, List.cons_append, ih₁, hfilter]
      · simp only [remarks, if_neg hline, entriesOf, if_true]
        rw [htoken, List.cons_append, ih₁, hfilter]

end Comment

/-- The lines before something are those of its comment. -/
theorem entriesOf_lead {c : Option Comment} {indent tail : List Char}
    (hc : ∀ block ∈ c.toList, block.Tidy) (hi : Spaces indent) (ht : Spaces tail) (fresh : Bool) :
    entriesOf (lead c indent tail fresh) = c.toList.flatMap Comment.entries := by
  cases c with
  | none => rfl
  | some c =>
    have hlines := (hc c (by simp)).eq_gap_or
    rw [lead, entriesOf_blank, (Comment.entriesOf_lines hi.margin ht.margin hlines).2,
      Option.toList_some, List.flatMap_singleton, Comment.entries]

/-! ## Written trees -/

/-- The comment before a name. -/
def Identifier.comments (ident : Identifier) : List Comment := ident.info.comment.toList

namespace Node

mutual

/-- The comments of a tree, as they are written: that of a step of a chain before the step, and
every other one before its node. -/
def comments : Node → List Comment
  | .number info _ => info.comment.toList
  | .duration info _ _ => info.comment.toList
  | .bool info _ => info.comment.toList
  | .string info _ _ => info.comment.toList
  | .regex info _ _ => info.comment.toList
  | .reference info _ => info.comment.toList
  | .star info => info.comment.toList
  | .list info items => info.comment.toList ++ commentsAll items
  | .unary info _ operand => info.comment.toList ++ comments operand
  | .binary info _ left right _ _ => info.comment.toList ++ (comments left ++ comments right)
  | .identifier ident => ident.comments
  | .chain info _ left right => comments left ++ (info.comment.toList ++ comments right)
  | .func info _ _ args _ => info.comment.toList ++ commentsAll args
  | .lambda info body => info.comment.toList ++ comments body
  | .declaration info name value => info.comment.toList ++ (name.comments ++ comments value)
  | .typeDeclaration info name type => info.comment.toList ++ (name.comments ++ type.comments)
  | .program _ statements => commentsAll statements
  | .comment block => [block]
termination_by structural n => n

/-- The comments of several trees, one tree after the other. -/
def commentsAll : List Node → List Comment
  | [] => []
  | n :: ns => comments n ++ commentsAll ns
termination_by structural ns => ns

end

end Node

theorem entriesOf_leadOf {info : Info} (hc : ∀ c ∈ info.comment.toList, c.Tidy)
    {indent : List Char} (hi : Spaces indent) (fresh : Bool) :
    entriesOf (Node.leadOf info indent fresh) = info.comment.toList.flatMap Comment.entries :=
  entriesOf_lead hc hi hi fresh

theorem Identifier.entriesOf_pieces {ident : Identifier} (hc : ∀ c ∈ ident.comments, c.Tidy)
    {indent : List Char} (hi : Spaces indent) (fresh : Bool) :
    entriesOf (ident.pieces indent fresh) = ident.comments.flatMap Comment.entries := by
  rw [pieces, entriesOf_append, entriesOf_lead hc hi hi,
    entriesOf_sign (by simp), entriesOf_nil, List.append_nil, comments]

namespace Node

mutual

/-- The comment lines of a written tree are those of its comments. -/
theorem entriesOf_pieces {n : Node} (hc : ∀ c ∈ n.comments, c.Tidy) {indent : List Char}
    (hi : Spaces indent) (fresh parens : Bool) :
    entriesOf (n.pieces indent fresh parens) = n.comments.flatMap Comment.entries := by
  cases n with
  | number | duration | bool | string | regex | reference | star =>
    simp only [comments] at hc
    simp [pieces, comments, entriesOf_leadOf hc hi, entriesOf]
  | list info items =>
    simp only [comments, List.forall_mem_append] at hc
    simp [pieces, comments, entriesOf_leadOf hc.1 hi, entriesOf, entriesOf_itemPieces hc.2 hi]
  | unary info op operand =>
    simp only [comments, List.forall_mem_append] at hc
    have hop : op.tokenKind ≠ .comment := by cases op <;> simp [UnaryOp.tokenKind]
    simp [pieces, comments, entriesOf_leadOf hc.1 hi, entriesOf, hop,
      entriesOf_pieces hc.2 hi false operand.isBinary]
  | binary info op left right parenthesized broken =>
    simp only [comments, List.forall_mem_append] at hc
    obtain ⟨hroot, hleft, hright⟩ := hc
    have hinner : ∀ inner : List Char, Spaces inner →
        entriesOf (left.pieces inner false (looserLeft op.precedence left)) ++
            entriesOf (right.pieces inner broken (looserRight op.precedence right)) =
          left.comments.flatMap Comment.entries ++ right.comments.flatMap Comment.entries := by
      intro inner hs
      rw [entriesOf_pieces hleft hs, entriesOf_pieces hright hs]
    cases hp : parens || parenthesized with
    | true =>
      simp [pieces, comments, hp, entriesOf_leadOf hroot hi, entriesOf, hinner _ hi.indentStep]
    | false => simp [pieces, comments, hp, entriesOf_leadOf hroot hi, entriesOf, hinner _ hi]
  | identifier ident => exact ident.entriesOf_pieces hc hi fresh
  | chain info op left right =>
    simp only [comments, List.forall_mem_append] at hc
    obtain ⟨hleft, hstep, hright⟩ := hc
    have hs := hi.stepIndent op
    have hlead := entriesOf_lead hstep hs hs true
    simp [pieces, comments, entriesOf, hlead, entriesOf_pieces hleft hi, entriesOf_pieces hright hs]
  | func info kind name args broken =>
    simp only [comments, List.forall_mem_append] at hc
    simp [pieces, comments, entriesOf_leadOf hc.1 hi, entriesOf,
      entriesOf_argPieces hc.2 hi.indentStep broken true]
  | lambda info body =>
    simp only [comments, List.forall_mem_append] at hc
    simp [pieces, comments, entriesOf_leadOf hc.1 hi, entriesOf, entriesOf_pieces hc.2 hi]
  | declaration info name value =>
    simp only [comments, List.forall_mem_append] at hc
    obtain ⟨hroot, hname, hvalue⟩ := hc
    have hlead := entriesOf_lead hroot hi spaces_nil fresh
    simp [pieces, comments, entriesOf, hlead, name.entriesOf_pieces hname hi,
      entriesOf_pieces hvalue hi]
  | typeDeclaration info name type =>
    simp only [comments, List.forall_mem_append] at hc
    obtain ⟨hroot, hname, htype⟩ := hc
    have hlead := entriesOf_lead hroot hi spaces_nil fresh
    simp [pieces, comments, entriesOf, hlead, name.entriesOf_pieces hname hi,
      type.entriesOf_pieces htype hi]
  | program position statements =>
    simp only [comments] at hc
    simp [pieces, comments, entriesOf_statementPieces hc hi true]
  | comment block =>
    simp [pieces, comments, entriesOf_lead (c := some block) hc hi spaces_nil fresh]
termination_by structural n

theorem entriesOf_itemPieces {ns : List Node} (hc : ∀ c ∈ commentsAll ns, c.Tidy)
    {indent : List Char} (hi : Spaces indent) :
    entriesOf (itemPieces indent ns) = (commentsAll ns).flatMap Comment.entries := by
  match ns with
  | [] => rfl
  | [n] =>
    simp only [commentsAll, List.append_nil] at hc
    simp [itemPieces, commentsAll, entriesOf_pieces hc hi]
  | n :: m :: ns =>
    rw [commentsAll, List.forall_mem_append] at hc
    rw [itemPieces, commentsAll, entriesOf_append, entriesOf_pieces hc.1 hi,
      entriesOf_sign (by simp), entriesOf_blank, entriesOf_itemPieces hc.2 hi, List.flatMap_append]
    simp
termination_by structural ns

theorem entriesOf_argPieces {ns : List Node} (hc : ∀ c ∈ commentsAll ns, c.Tidy)
    {indent : List Char} (hi : Spaces indent) (broken first : Bool) :
    entriesOf (argPieces indent broken first ns) = (commentsAll ns).flatMap Comment.entries := by
  match ns with
  | [] => rfl
  | n :: ns =>
    rw [commentsAll, List.forall_mem_append] at hc
    cases first <;>
      simp [argPieces, commentsAll, entriesOf, entriesOf_pieces hc.1 hi,
        entriesOf_argPieces hc.2 hi broken false]
termination_by structural ns

theorem entriesOf_statementPieces {ns : List Node} (hc : ∀ c ∈ commentsAll ns, c.Tidy)
    {indent : List Char} (hi : Spaces indent) (first : Bool) :
    entriesOf (statementPieces indent first ns) = (commentsAll ns).flatMap Comment.entries := by
  match ns with
  | [] => rfl
  | n :: ns =>
    rw [commentsAll, List.forall_mem_append] at hc
    simp [statementPieces, commentsAll, entriesOf_pieces hc.1 hi,
      entriesOf_statementPieces hc.2 hi false]
termination_by structural ns

end

end Node

/-! ## Canonical texts -/

theorem flatMap_linesOf_tokensAt (offset : Nat) (ps : List Piece) :
    ((tokensAt offset ps).filter Lookahead.isComment).flatMap (Comment.linesOf ·.text) =
      entriesOf ps := by
  induction ps generalizing offset with
  | nil => rfl
  | cons p ps ih =>
    cases p with
    | blank b => exact ih _
    | sign g =>
      by_cases hk : g.kind = .comment
      · simp [tokensAt, entriesOf, Lookahead.isComment, hk, ih]
      · simp [tokensAt, entriesOf, Lookahead.isComment, hk, ih]

/-- The comment lines of a canonical text are those of the tree, if the scanner divides the text as
it was written. -/
theorem entries_tokenize_render {n : Node} (hc : ∀ c ∈ n.comments, c.Tidy)
    (hd : Delimits (n.pieces [] true false))
    (hp : Placed .operand (n.pieces [] true false) = true) :
    (tokenize n.render).entries = n.comments.flatMap Comment.entries := by
  rw [n.render_eq_spelled, tokenize, String.toList_ofList, TokenStream.ofSource_spelled hd hp,
    TokenStream.entries_eq, flatMap_linesOf_tokensAt, Node.entriesOf_pieces hc spaces_nil]

end PipelineScript

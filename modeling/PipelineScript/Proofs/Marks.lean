import Mathlib.Data.List.Forall2
import PipelineScript.Proofs.Halting
import PipelineScript.Proofs.Sound

/-!
Every node stands for one token.

The nodes of a parsed program in the order of the script, and the tokens of the script without
parentheses, closing brackets, commas, equals signs and comments, are the same things seen from two
sides: there are as many of the one as of the other, and each node stands where its token begins
and says what its token says (`marks_of_parse`). So the parser loses no token, takes none twice and
keeps them in order.

The proof is by induction on the grammar. Operators and chains are built around a tree that is
there already, so what a climb or a chain says is how it continues the tokens of its left side.
-/
namespace PipelineScript

section

variable {engine : PatternEngine}

/-! ## Nodes in the order of the script -/

namespace Node

mutual

/-- The nodes of a tree in the order of their tokens: an operation or a chain between its sides,
and every other node before its children. -/
def inorder : Node → List Node
  | .binary info op left right parenthesized broken =>
    inorder left ++ .binary info op left right parenthesized broken :: inorder right
  | .chain info op left right => inorder left ++ .chain info op left right :: inorder right
  | .program position statements => .program position statements :: inorderAll statements
  | .declaration info name value =>
    .declaration info name value :: .identifier name :: inorder value
  | .typeDeclaration info name type =>
    [.typeDeclaration info name type, .identifier name, .identifier type]
  | .func info kind name args broken => .func info kind name args broken :: inorderAll args
  | .lambda info body => .lambda info body :: inorder body
  | .unary info op operand => .unary info op operand :: inorder operand
  | .list info items => .list info items :: inorderAll items
  | .number info value => [.number info value]
  | .duration info span literal => [.duration info span literal]
  | .bool info value => [.bool info value]
  | .string info literal triple => [.string info literal triple]
  | .regex info pattern literal => [.regex info pattern literal]
  | .reference info name => [.reference info name]
  | .star info => [.star info]
  | .identifier ident => [.identifier ident]
  | .comment block => [.comment block]
termination_by structural n => n

/-- The nodes of several trees, one tree after the other. -/
def inorderAll : List Node → List Node
  | [] => []
  | n :: ns => inorder n ++ inorderAll ns
termination_by structural ns => ns

end

/-- What a token has to be for a node to be read from it. A node that stands for no single token
has none. -/
def Means (t : Token) : Node → Prop
  | .number _ value => t.kind = .number ∧ Number.ofText t.text = .ok value
  | .duration _ span literal =>
    t.kind = .duration ∧ literal = t.text ∧ Duration.parse t.text = .ok span
  | .bool _ value => t.kind = .bool value
  | .string _ literal triple =>
    t.kind = .string ∧ stringBody? t.text.toList = some (literal.toList, triple)
  | .regex _ pattern literal =>
    t.kind = .regex ∧ literal.toList = Text.dropEnds t.text.toList ∧
      Pattern.ofText (String.ofList (Text.unescapeMark '/' literal.toList)) = .ok pattern
  | .reference _ name =>
    t.kind = .reference ∧ name.toList = Text.unescapeMark '"' (Text.dropEnds t.text.toList)
  | .star _ => t.kind = .star
  | .list _ _ => t.kind = .lbracket
  | .unary _ op _ => t.kind = op.tokenKind
  | .binary _ op _ _ _ _ => t.kind.binaryOp? = some op
  | .identifier ident => t.kind = .ident ∧ ident.name = t.text
  | .chain _ op _ _ => t.kind = .chain op
  | .func _ _ name _ _ => t.kind = .ident ∧ name = t.text
  | .lambda _ _ => t.kind = .lambda
  | .declaration _ _ _ => t.kind = .var
  | .typeDeclaration _ _ _ => t.kind = .var
  | .program _ _ => False
  | .comment _ => False

/-- A node stands where a token begins, and says what it says. -/
structure StandsFor [PatternEngine] (bytes : List UInt8) (n : Node) (t : Token) : Prop where
  position_eq : n.position = .locate bytes t.offset
  means : n.Means t

/-- The comment before a node and the parentheses around it are not a part of its token. -/
theorem StandsFor.enclose {bytes : List UInt8} {n : Node} {t : Token} (c : Option Comment)
    (h : n.StandsFor bytes t) : (n.parenthesize.setComment c).StandsFor bytes t := by
  obtain ⟨hposition, hmeans⟩ := h
  cases n <;> exact ⟨hposition, hmeans⟩

end Node

/-- Whether a node stands for tokens of a kind. The other tokens only hold a tree together, apart
from comments and the end of the text. -/
def TokenKind.isMark : TokenKind → Bool
  | .lparen | .rparen | .rbracket | .comma | .assign | .comment | .eof => false
  | _ => true

/-- Nodes stand for tokens, one for each, and for every token that a node can stand for. -/
def Marked [PatternEngine] (bytes : List UInt8) (ns : List Node) (ts : List Token) : Prop :=
  List.Forall₂ (Node.StandsFor bytes) ns (ts.filter (·.kind.isMark))

namespace Marked

variable {bytes : List UInt8} {ns ns' : List Node} {ts ts' : List Token} {n : Node} {t : Token}

theorem empty : Marked bytes [] [] := List.Forall₂.nil

theorem append (h : Marked bytes ns ts) (h' : Marked bytes ns' ts') :
    Marked bytes (ns ++ ns') (ts ++ ts') := by
  rw [Marked, List.filter_append]
  exact List.rel_append h h'

/-- One more node, for one more token. -/
theorem cons (hn : n.StandsFor bytes t) (ht : t.kind.isMark = true) (h : Marked bytes ns ts) :
    Marked bytes (n :: ns) (t :: ts) := by
  rw [Marked, List.filter_cons_of_pos (by simpa using ht)]
  exact List.Forall₂.cons hn h

theorem single (hn : n.StandsFor bytes t) (ht : t.kind.isMark = true) : Marked bytes [n] [t] :=
  .cons hn ht .empty

/-- One more token that no node stands for. -/
theorem skip (ht : t.kind.isMark = false) (h : Marked bytes ns ts) : Marked bytes ns (t :: ts) := by
  rw [Marked, List.filter_cons_of_neg (by simp [ht])]
  exact h

/-- A node between others, and its token between theirs. -/
theorem between (h : Marked bytes ns ts) (hn : n.StandsFor bytes t) (ht : t.kind.isMark = true)
    (h' : Marked bytes ns' ts') : Marked bytes (ns ++ n :: ns') (ts ++ t :: ts') :=
  h.append (.cons hn ht h')

/-- A token behind the others that no node stands for. -/
theorem snoc (h : Marked bytes ns ts) (ht : t.kind.isMark = false) :
    Marked bytes ns (ts ++ [t]) := by
  simpa using h.append (.skip ht .empty)

/-- The nodes can be replaced by such as stand for the same tokens. -/
theorem replace
    (hns : List.Forall₂ (fun m n => ∀ t, m.StandsFor bytes t → n.StandsFor bytes t) ns ns')
    (h : Marked bytes ns ts) : Marked bytes ns' ts := by
  rw [Marked] at h ⊢
  generalize ts.filter (·.kind.isMark) = us at h
  induction hns generalizing us with
  | nil => exact h
  | cons hn _ ih =>
    cases h with
    | cons ht h => exact .cons (hn _ ht) (ih _ h)

/-- The nodes of a tree in parentheses stand for the tokens between them. -/
theorem enclose (c : Option Comment) (h : Marked bytes n.inorder ts) :
    Marked bytes (n.parenthesize.setComment c).inorder ts := by
  have hsame : ∀ ns, List.Forall₂
      (fun m n => ∀ t, Node.StandsFor bytes m t → Node.StandsFor bytes n t) ns ns :=
    fun _ => List.forall₂_same.2 fun _ _ _ ht => ht
  have hroot : ∀ t, n.StandsFor bytes t → (n.parenthesize.setComment c).StandsFor bytes t :=
    fun _ ht => ht.enclose c
  refine h.replace ?_
  -- Only the node at the root is another one.
  cases n with
  | binary | chain => exact List.rel_append (hsame _) (.cons hroot (hsame _))
  | program | comment => exact hsame _
  | _ => exact .cons hroot (hsame _)

end Marked

/-! ## What a phrase takes -/

section

variable {bytes : List UInt8} {t : Slot} {n : Node}

theorem Node.marked_of_stringOfText (ht : t.token.kind = .string)
    (h : stringOfText? (t.info bytes) t.token.text = some n) :
    Marked bytes n.inorder [t.token] := by
  obtain ⟨⟨body, triple⟩, hbody, rfl⟩ := Option.map_eq_some_iff.1 h
  exact .single ⟨rfl, ht, by rw [hbody, String.toList_ofList]⟩ (by rw [ht]; rfl)

theorem Node.marked_of_durationOfText (ht : t.token.kind = .duration)
    (h : durationOfText (t.info bytes) t.token.text = .ok n) :
    Marked bytes n.inorder [t.token] := by
  obtain ⟨span, hspan, rfl⟩ := durationOfText_eq_ok_iff.1 h
  exact .single ⟨rfl, ht, rfl, hspan⟩ (by rw [ht]; rfl)

theorem Node.marked_of_regexOfText (ht : t.token.kind = .regex)
    (h : regexOfText (t.info bytes) t.token.text = .ok n) : Marked bytes n.inorder [t.token] := by
  obtain ⟨pattern, hpattern, rfl⟩ := regexOfText_eq_ok_iff.1 h
  rw [← String.toList_ofList (l := Text.dropEnds t.token.text.toList)] at hpattern
  exact .single ⟨rfl, ht, by rw [String.toList_ofList], hpattern⟩ (by rw [ht]; rfl)

theorem UnaryOp.isMark_tokenKind (op : UnaryOp) : op.tokenKind.isMark = true := by
  cases op <;> rfl

end

/-- The tokens that a phrase takes are those of its nodes. -/
def Phrase.Takes (bytes : List UInt8) (ts : List Token) : Phrase → Prop
  | .operand n => Marked bytes n.inorder ts
  | .operation n => Marked bytes n.inorder ts
  | .climb _ left _ n =>
    ∀ us, Marked bytes left.inorder us → Marked bytes n.inorder (us ++ ts)
  | .item n => Marked bytes n.inorder ts
  | .list _ ns => Marked bytes (Node.inorderAll ns) ts
  | .expression n => Marked bytes n.inorder ts
  | .chain left _ n =>
    ∀ us, Marked bytes left.inorder us → Marked bytes n.inorder (us ++ ts)
  | .step _ n => Marked bytes n.inorder ts
  | .call _ n => Marked bytes n.inorder ts
  | .statement n => Marked bytes n.inorder ts
  | .statements _ ns =>
    ∃ (ms : List Node) (rest : List Comment), ns = ms ++ rest.map .comment ∧
      Marked bytes (Node.inorderAll ms) ts

theorem ListSort.takes_element {bytes : List UInt8} {ts : List Token} (sort : ListSort) {n : Node}
    (h : (sort.element n).Takes bytes ts) : Marked bytes n.inorder ts := by
  cases sort <;> exact h

/-- A phrase takes the first of the tokens, and they are those of its nodes. -/
theorem Reads.takes {bytes : List UInt8} {ph : Phrase} {before after : List Slot}
    {left : Option Comment} (h : Reads bytes ph before after left) :
    ∃ ts, before.map (·.token) = ts ++ after.map (·.token) ∧ ph.Takes bytes ts := by
  induction h with
  | @paren t c _ _ n _ ht _ hc ih =>
    obtain ⟨ts, hts, hn⟩ := ih
    refine ⟨t.token :: (ts ++ [c.token]), by simp [hts], ?_⟩
    exact Marked.skip (by rw [ht]; rfl) (.snoc (.enclose _ hn) (by rw [hc]; rfl))
  | @number t _ _ ht hv => exact ⟨[t.token], rfl, Marked.single ⟨rfl, ht, hv⟩ (by rw [ht]; rfl)⟩
  | @string t _ _ ht hn | @itemString t _ _ ht hn =>
    exact ⟨[t.token], rfl, Node.marked_of_stringOfText ht hn⟩
  | @bool t _ _ ht => exact ⟨[t.token], rfl, Marked.single ⟨rfl, ht⟩ (by rw [ht]; rfl)⟩
  | @duration t _ _ ht hn => exact ⟨[t.token], rfl, Node.marked_of_durationOfText ht hn⟩
  | @regex t _ _ ht hn => exact ⟨[t.token], rfl, Node.marked_of_regexOfText ht hn⟩
  | @star t _ ht | @itemStar t _ ht =>
    exact ⟨[t.token], rfl, Marked.single ⟨rfl, ht⟩ (by rw [ht]; rfl)⟩
  | @reference t _ ht =>
    exact ⟨[t.token], rfl, Marked.single ⟨rfl, ht, String.toList_ofList⟩ (by rw [ht]; rfl)⟩
  | @name t _ _ ht | @itemName t _ ht | @stepName t _ _ _ _ ht =>
    exact ⟨[t.token], rfl, Marked.single ⟨rfl, ht, rfl⟩ (by rw [ht]; rfl)⟩
  | @applied t o c _ _ _ ht ho _ hc ih | @function t o c _ _ _ _ ht ho _ hc ih =>
    obtain ⟨ts, hts, hargs⟩ := ih
    refine ⟨t.token :: o.token :: (ts ++ [c.token]), by simp [hts], ?_⟩
    exact Marked.cons ⟨rfl, ht, rfl⟩ (by rw [ht]; rfl)
      (.skip (by rw [ho]; rfl) (.snoc hargs (by rw [hc]; rfl)))
  | @unary t _ _ op _ _ ht _ ih =>
    obtain ⟨ts, hts, hn⟩ := ih
    exact ⟨t.token :: ts, by simp [hts],
      Marked.cons ⟨rfl, ht⟩ (by rw [ht]; exact op.isMark_tokenKind) hn⟩
  | operation _ _ ihf ihn =>
    obtain ⟨ts₁, hts₁, hf⟩ := ihf
    obtain ⟨ts₂, hts₂, hn⟩ := ihn
    exact ⟨ts₁ ++ ts₂, by simp [hts₁, hts₂], hn _ hf⟩
  | stop | chainEnd => exact ⟨[], rfl, fun us hus => by simpa using hus⟩
  | @join t _ _ _ _ _ op _ _ _ _ _ _ _ _ ht _ _ _ _ ihf ihr ihn =>
    obtain ⟨ts₁, hts₁, hf⟩ := ihf
    obtain ⟨ts₂, hts₂, hr⟩ := ihr
    obtain ⟨ts₃, hts₃, hn⟩ := ihn
    refine ⟨t.token :: (ts₁ ++ ts₂ ++ ts₃), by simp [hts₁, hts₂, hts₃], fun us hus => ?_⟩
    have hop : TokenKind.binaryOp? t.token.kind = some op := by rw [ht]; rfl
    simpa using hn (us ++ t.token :: (ts₁ ++ ts₂))
      (Marked.between hus ⟨rfl, hop⟩ (by rw [ht]; rfl) (hr _ hf))
  | listEnd => exact ⟨[], rfl, Marked.empty⟩
  | @listLast _ _ _ _ sort _ _ _ _ _ ih =>
    obtain ⟨ts, hts, hn⟩ := ih
    refine ⟨ts, hts, ?_⟩
    rw [Phrase.Takes, Node.inorderAll, Node.inorderAll, List.append_nil]
    exact sort.takes_element hn
  | @listMore _ t _ _ _ sort _ _ _ _ _ ht _ ih ihs =>
    obtain ⟨ts₁, hts₁, hn⟩ := ih
    obtain ⟨ts₂, hts₂, hns⟩ := ihs
    refine ⟨ts₁ ++ t.token :: ts₂, by simp [hts₁, hts₂], ?_⟩
    exact (sort.takes_element hn).append (.skip (by rw [ht]; rfl) hns)
  | @lambda t _ _ _ _ ht _ ih =>
    obtain ⟨ts, hts, hn⟩ := ih
    exact ⟨t.token :: ts, by simp [hts], Marked.cons ⟨rfl, ht⟩ (by rw [ht]; rfl) hn⟩
  | @bracket t c _ _ _ ht _ hc ih =>
    obtain ⟨ts, hts, hns⟩ := ih
    refine ⟨t.token :: (ts ++ [c.token]), by simp [hts], ?_⟩
    exact Marked.cons ⟨rfl, ht⟩ (by rw [ht]; rfl) (.snoc hns (by rw [hc]; rfl))
  | unnamed _ _ _ _ ih | named _ _ _ _ ih | stepCall _ _ ih | express _ _ ih => exact ih
  | @chained t _ _ _ _ _ ht _ _ ih =>
    obtain ⟨ts, hts, hn⟩ := ih
    exact ⟨t.token :: ts, by rw [List.map_cons, hts]; rfl,
      hn _ (.single ⟨rfl, ht, rfl⟩ (by rw [ht]; rfl))⟩
  | callChained _ _ _ _ _ ihf ihn | callJoined _ _ _ _ _ ihf ihn =>
    obtain ⟨ts₁, hts₁, hf⟩ := ihf
    obtain ⟨ts₂, hts₂, hn⟩ := ihn
    exact ⟨ts₁ ++ ts₂, by rw [hts₁, hts₂, List.append_assoc], hn _ hf⟩
  | @chainStep t _ _ _ _ _ _ _ _ _ _ ht _ _ ihr ihn =>
    obtain ⟨ts₁, hts₁, hr⟩ := ihr
    obtain ⟨ts₂, hts₂, hn⟩ := ihn
    refine ⟨t.token :: (ts₁ ++ ts₂), by simp [hts₁, hts₂], fun us hus => ?_⟩
    simpa using hn (us ++ t.token :: ts₁) (Marked.between hus ⟨rfl, ht⟩ (by rw [ht]; rfl) hr)
  | @declare t i e _ _ _ _ ht hi he _ ih =>
    obtain ⟨ts, hts, hv⟩ := ih
    refine ⟨t.token :: i.token :: e.token :: ts, by simp [hts], ?_⟩
    exact Marked.cons ⟨rfl, ht⟩ (by rw [ht]; rfl)
      (.cons ⟨rfl, hi, rfl⟩ (by rw [hi]; rfl) (.skip (by rw [he]; rfl) hv))
  | @declareType t i y _ ht hi hy =>
    refine ⟨[t.token, i.token, y.token], rfl, ?_⟩
    exact Marked.cons ⟨rfl, ht⟩ (by rw [ht]; rfl)
      (.cons ⟨rfl, hi, rfl⟩ (by rw [hi]; rfl) (.single ⟨rfl, hy, rfl⟩ (by rw [hy]; rfl)))
  | done => exact ⟨[], rfl, [], _, rfl, .empty⟩
  | more _ _ _ ihn ihs =>
    obtain ⟨ts₁, hts₁, hn⟩ := ihn
    obtain ⟨ts₂, hts₂, ms, rest, rfl, hms⟩ := ihs
    exact ⟨ts₁ ++ ts₂, by rw [hts₁, hts₂, List.append_assoc], _ :: ms, rest, rfl, hn.append hms⟩

/-! ## The tokens of a script -/

theorem filter_isMark_filter (ts : List Token) :
    (ts.filter (fun t => !Lookahead.isComment t)).filter (·.kind.isMark) =
      ts.filter (·.kind.isMark) := by
  rw [List.filter_filter]
  refine List.filter_congr fun t _ => ?_
  -- A comment is no mark.
  cases hk : t.kind <;> simp [Lookahead.isComment, TokenKind.isMark, hk]

/-- If the slots of a script are statements, the stream of its tokens ends with the end of the text,
and so do the slots. -/
theorem Reads.ends {source : List Char} {ns : List Node} {after : List Slot}
    {left₀ left : Option Comment}
    (h : Reads (Text.bytes source) (.statements left₀ ns) (slotsIn source) after left) :
    (TokenStream.ofSource source).ending = .ended ∧
      ∃ (start : List Token) (e : Slot), (TokenStream.ofSource source).tokens = start ++ [e.token] ∧
        e.token.kind = .eof ∧ after = [e.bare] := by
  obtain ⟨e, behind, rfl, he⟩ := h.statements_end
  obtain ⟨ts, hts, -⟩ := h.takes
  rw [slotsIn, slotsOf, map_token_slotsBehind, List.map_cons, Slot.bare_token] at hts
  obtain ⟨start, tail, htokens, -, htail⟩ := List.filter_eq_append_iff.1 hts
  obtain ⟨gap, stop, rfl, -, -, hstop⟩ := List.filter_eq_cons_iff.1 htail
  rw [← List.append_assoc] at htokens
  -- The end of the text is the last token.
  obtain ⟨rfl, hended⟩ := Scanner.run_of_isLast _ (Text.suffixAt_size_append [] source) htokens
    (by rw [he]; rfl)
  rw [List.filter_nil, eq_comm, List.map_eq_nil_iff] at hstop
  exact ⟨hended, start ++ gap, e, htokens, he, by rw [hstop]⟩

/-- If the slots of a script are statements, its tokens are those of the statements. -/
theorem Reads.marks {source : List Char} {ns : List Node} {after : List Slot}
    {left₀ left : Option Comment}
    (h : Reads (Text.bytes source) (.statements left₀ ns) (slotsIn source) after left) :
    ∃ (ms : List Node) (rest : List Comment), ns = ms ++ rest.map .comment ∧
      Marked (Text.bytes source) (Node.inorderAll ms) (TokenStream.ofSource source).tokens := by
  obtain ⟨-, start, e, -, he, rfl⟩ := h.ends
  obtain ⟨ts, hts, ms, rest, hns, hms⟩ := h.takes
  rw [slotsIn, slotsOf, map_token_slotsBehind, List.map_singleton, Slot.bare_token] at hts
  refine ⟨ms, rest, hns, ?_⟩
  rw [Marked, ← filter_isMark_filter, hts]
  exact hms.snoc (by rw [he]; rfl)

/-- **The parser loses no token, takes none twice and keeps them in order.** The tokens of a script
that is parsed come to an end; the nodes of its statements, in the order of the script, stand for
its tokens, one for each token that a node can stand for; and they stand one behind the other. -/
theorem marks_of_parse {source : String} {p : Node} (h : parse source = .ok p) :
    (tokenize source).ending = .ended ∧
      ∃ (position : Position) (ns : List Node) (comments : List Comment),
        p = .program position (ns ++ comments.map .comment) ∧
        Marked (Text.bytes source.toList) (Node.inorderAll ns) (tokenize source).tokens ∧
        (Node.inorderAll ns).map (·.position.offset) =
          ((tokenize source).tokens.filter (·.kind.isMark)).map (·.offset) ∧
        ((Node.inorderAll ns).map (·.position.offset)).Pairwise (· < ·) := by
  obtain ⟨ns, after, left, rfl, hreads⟩ := reads_of_parse h
  obtain ⟨hended, -⟩ := hreads.ends
  obtain ⟨ms, rest, rfl, hms⟩ := hreads.marks
  obtain ⟨-, hpairwise⟩ :=
    Scanner.run_ascends _ (Text.suffixAt_size_append [] source.toList) hended
  have hoffsets : (Node.inorderAll ms).map (·.position.offset) =
      ((tokenize source).tokens.filter (·.kind.isMark)).map (·.offset) := by
    rw [← List.forall₂_eq_eq_eq, List.forall₂_map_left_iff, List.forall₂_map_right_iff]
    refine List.Forall₂.imp (fun n t hn => ?_) hms
    rw [hn.position_eq]
    rfl
  refine ⟨hended, _, ms, rest, rfl, hms, hoffsets, ?_⟩
  rw [hoffsets, List.pairwise_map]
  exact hpairwise.filter _

end

open scoped PatternEngine

/-- A script with a type, an operation in parentheses, a chain and comments. -/
theorem marks_of_parse_chain :
    ∃ p, parse "var t int\nvar x = -(a + 2) * b\nx|f(['s', *]) // mean\n.g\n// end" = .ok p ∧
      (tokenize "var t int\nvar x = -(a + 2) * b\nx|f(['s', *]) // mean\n.g\n// end").ending =
        .ended ∧
      ∃ (position : Position) (ns : List Node) (comments : List Comment),
        p = .program position (ns ++ comments.map .comment) ∧
        (Node.inorderAll ns).map (·.position.offset) =
          [0, 4, 6, 10, 14, 18, 20, 22, 24, 27, 29, 31, 32, 33, 35, 36, 41, 53, 54] := by
  obtain ⟨p, hparse, -⟩ := exists_ok_of_any (x := parse
    "var t int\nvar x = -(a + 2) * b\nx|f(['s', *]) // mean\n.g\n// end") (P := fun _ => true)
    (by decide +kernel)
  obtain ⟨hended, position, ns, comments, hp, -, hoffsets, -⟩ := marks_of_parse hparse
  exact ⟨p, hparse, hended, position, ns, comments, hp, hoffsets.trans (by decide +kernel)⟩

end PipelineScript

import PipelineScript.Proofs.Offsets

/-!
What is read from a canonical text is written like the tree with its line breaks set anew.

An operation that is read breaks its line if there is a newline in the text between the offsets of
its operands, and a call if there is one between its name and its last argument. So it matters at
which sign of its text a node stands: what stands before that sign is `Node.breaksBefore`, and what
stands from there on is `Node.breaksBehind`. `Rewritten` says both of what was read from a text,
that it is written like `Node.reflow` of the tree and where it stands, and `Spellable.rewrites`
proves it by induction on how the tree is spellable, with one lemma for each kind of node.
-/
namespace PipelineScript

variable {engine : PatternEngine}

theorem Node.kind_ne_comment {n : Node} {g : Sign} (h : n.literalSign? = some g) :
    g.kind ≠ .comment := by
  intro hk
  have hmem := kind_of_literalSign? h
  rw [hk] at hmem
  simp [literalKinds] at hmem

/-! ## How many slots a tree takes -/

open Node in
mutual

/-- As many slots are read as signs are written. -/
theorem Echo.length_eq {bytes : List UInt8} {inner parens : Bool} {n : Node} {ts : List Slot}
    {q : Node} (h : Echo bytes inner parens n ts q) (indent : List Char) (fresh : Bool) :
    ts.length = (signsOf (n.pieces indent fresh parens)).length := by
  cases n with
  | list info items =>
    obtain ⟨t, mid, c, qs, rfl, hqs, -⟩ := h
    simp [pieces, signsOf_sign, (hqs.length_eq indent false).2]
  | unary info op operand =>
    obtain ⟨t, mid, q₀, left, rfl, hq, -⟩ := h
    simp [pieces, signsOf_sign, op.tokenKind_ne_comment, hq.length_eq indent false]
  | binary info op left right parenthesized broken =>
    obtain ⟨tl, o, tr, ql, qr, hl, hr, h⟩ := h
    dsimp only at h
    cases hp : parens || parenthesized with
    | true =>
      rw [hp, if_pos rfl] at h
      obtain ⟨b, c, rfl, -⟩ := h
      simp [pieces, hp, signsOf_sign, hl.length_eq (indent ++ indentStep) false,
        hr.length_eq (indent ++ indentStep) broken]
    | false =>
      rw [hp, if_neg (by simp)] at h
      obtain ⟨rfl, -⟩ := h
      simp [pieces, hp, signsOf_sign, hl.length_eq indent false, hr.length_eq indent broken]
  | identifier ident =>
    obtain ⟨t, rfl, -⟩ := h
    simp [pieces, Identifier.pieces, signsOf_sign]
  | chain info op left right =>
    obtain ⟨tl, o, tr, ql, qr, rfl, hl, hr, -⟩ := h
    simp [pieces, signsOf_sign, hl.length_eq indent fresh,
      hr.length_eq (stepIndent op indent) false]
  | func info kind name args broken =>
    obtain ⟨t, o, mid, c, qs, rfl, hqs, -⟩ := h
    simp [pieces, signsOf_sign, (hqs.length_eq (indent ++ indentStep) broken).1]
  | lambda info body =>
    obtain ⟨t, mid, q₀, rfl, hq, -⟩ := h
    simp [pieces, signsOf_sign, hq.length_eq indent false]
  | declaration info name value =>
    obtain ⟨t, i, e, mid, q₀, rfl, hq, -⟩ := h
    simp [pieces, Identifier.pieces, signsOf_sign, hq.length_eq indent false]
  | typeDeclaration info name type =>
    obtain ⟨t, i, y, rfl, -⟩ := h
    simp [pieces, Identifier.pieces, signsOf_sign]
  | _ =>
    obtain ⟨t, g, rfl, hg, -⟩ := h
    rw [pieces_of_literalSign? hg, signsOf_append, signsOf_leadOf, List.nil_append,
      signsOf_sign _ (kind_ne_comment hg)]
    rfl
termination_by structural n

theorem EchoAll.length_eq {bytes : List UInt8} {inner : Bool} {ns : List Node} {ts : List Slot}
    {qs : List Node} (h : EchoAll bytes inner ns ts qs) (indent : List Char) (broken : Bool) :
    ts.length = (signsOf (argPieces indent broken true ns)).length ∧
      ts.length = (signsOf (itemPieces indent ns)).length := by
  match ns with
  | [] =>
    obtain ⟨rfl, -⟩ := h
    exact ⟨rfl, rfl⟩
  | [n] =>
    obtain ⟨tn, tns, q, qs, rfl, -, hq, h⟩ := h
    obtain ⟨rfl, -⟩ : tns = [] ∧ qs = [] := by simpa using h
    constructor
    · simp [argPieces, hq.length_eq indent broken]
    · simp [itemPieces, hq.length_eq indent false]
  | n :: m :: ns =>
    obtain ⟨tn, tns, q, qs, rfl, -, hq, h⟩ := h
    rw [if_neg (by simp)] at h
    obtain ⟨c, mid, rfl, hqs⟩ := h
    obtain ⟨hargs, hitems⟩ := hqs.length_eq indent broken
    rw [argPieces] at hargs
    simp only [if_true, List.nil_append, signsOf_blank, signsOf_append] at hargs
    constructor
    · simp [argPieces, signsOf_sign, hq.length_eq indent broken, hargs]
    · rw [itemPieces]
      · simp [signsOf_sign, hq.length_eq indent false, hitems]
      · simp
termination_by structural ns

end

/-! ## Rewriting what was read -/

namespace Node

theorem operator?_of_literalSign? {n : Node} {g : Sign} (h : n.literalSign? = some g) :
    n.operator? = none := by
  cases n <;> first | rfl | cases h

theorem renderIn_of_literalSign? {n : Node} {g : Sign} (h : n.literalSign? = some g)
    (indent : List Char) (fresh parens : Bool) :
    n.renderIn indent fresh parens = head n.info indent fresh ++ g.text := by
  rw [← spelled_pieces, pieces_of_literalSign? h]
  simp

end Node

/-- Comments with the same lines are written alike. -/
theorem SameLines.renderComment_eq {c d : Option Comment} (h : SameLines c d) (indent : List Char)
    (fresh : Bool) : renderComment c indent fresh = renderComment d indent fresh := by
  cases c <;> cases d <;> simp_all [SameLines, renderComment, Comment.render]

theorem SameLines.isSome_eq {c d : Option Comment} (h : SameLines c d) : c.isSome = d.isSome := by
  cases c <;> cases d <;> simp_all [SameLines]

theorem SameLines.head_eq {info info' : Info} (h : SameLines info.comment info'.comment)
    (indent : List Char) (fresh : Bool) :
    Node.head info indent fresh = Node.head info' indent fresh := by
  rw [Node.head, Node.head, Node.startsFresh, Node.startsFresh, h.renderComment_eq, h.isSome_eq]

/-- The tree `q`, read from the text of `n` at an offset, is written as `n` is with its line breaks
set anew, and stands at the sign that `breaksBefore` and `breaksBehind` speak of. -/
structure Rewritten (n : Node) (parens : Bool) (offset : Nat) (text : List Char) (q : Node) :
    Prop where
  render_eq : ∀ (indent : List Char) (fresh : Bool),
    q.renderIn indent fresh parens = n.reflow.renderIn indent fresh parens
  operator_eq : q.operator? = n.operator?
  place : ∃ u v, text = u ++ v ∧ q.position.offset = offset + Text.size u ∧
    hasNewline u = n.breaksBefore ∧ hasNewline v = n.breaksBehind

/-- Whatever is read from the text of a tree is rewritten as it should be. -/
def Rewrites (n : Node) : Prop :=
  ∀ (bytes : List UInt8) (inner parens : Bool) (indent : List Char) (fresh : Bool) (offset : Nat)
    (q : Node), Spaces indent → n.keepsComments inner parens = true →
    StandsAt bytes offset (spelled (n.pieces indent fresh parens)) →
    Echo bytes inner parens n (slotsAt bytes offset (n.pieces indent fresh parens)) q →
    Rewritten n parens offset (spelled (n.pieces indent fresh parens)) q

theorem copies_of_echo {bytes : List UInt8} {inner parens : Bool} {n q : Node} {g : Sign}
    {ts : List Slot} (hg : n.literalSign? = some g) (h : Echo bytes inner parens n ts q) :
    ∃ t, ts = [t] ∧ Copies bytes n g t q := by
  cases n with
  | number | duration | bool | string | regex | reference | star =>
    obtain ⟨t, g', rfl, hg', hq⟩ := h
    cases hg
    cases hg'
    exact ⟨t, rfl, hq⟩
  | _ => cases hg

theorem Node.breaksBefore_of_literalSign? {n : Node} {g : Sign} (h : n.literalSign? = some g) :
    n.breaksBefore = n.info.comment.isSome := by
  cases n with
  | number | duration | bool | string | regex | reference | star => rfl
  | _ => cases h

theorem Node.breaksBehind_of_literalSign? {n : Node} {g : Sign} (h : n.literalSign? = some g) :
    n.breaksBehind = hasNewline g.text := by
  cases n with
  | number | duration | bool | string | regex | reference | star => cases h; rfl
  | _ => cases h

theorem rewrites_literal {n : Node} {g : Sign} (hg : n.literalSign? = some g)
    (hc : Remarked n.comment?) : Rewrites n := by
  intro bytes inner parens indent fresh offset q hi _ _ hecho
  rw [Node.pieces_of_literalSign? hg] at hecho ⊢
  obtain ⟨d, hd, hslots⟩ := slotsAt_lead bytes fresh hc hi hi offset
    (Node.kind_ne_comment hg) []
  obtain ⟨t, ht, hcopy⟩ := copies_of_echo hg hecho
  obtain ⟨rfl, -⟩ := List.cons.inj (hslots.symm.trans ht)
  have hinfo := hcopy.info
  refine ⟨fun indent fresh => ?_, ?_, _, _, spelled_append _ _, ?_, ?_, ?_⟩
  · rw [Node.reflow_of_literalSign? hg, Node.renderIn_of_literalSign? hcopy.sign,
      Node.renderIn_of_literalSign? hg, SameLines.head_eq]
    rw [hinfo]
    exact hd
  · rw [Node.operator?_of_literalSign? hg, Node.operator?_of_literalSign? hcopy.sign]
  · rw [Node.position, hinfo]
    rfl
  · rw [Node.breaksBefore_of_literalSign? hg]
    exact hasNewline_lead hc hi
  · rw [Node.breaksBehind_of_literalSign? hg]
    simp

theorem rewrites_name {ident : Identifier} (h : ident.Spellable) :
    Rewrites (.identifier ident) := by
  intro bytes inner parens indent fresh offset q hi _ _ hecho
  rw [Node.pieces, Identifier.pieces] at hecho ⊢
  obtain ⟨d, hd, hslots⟩ := slotsAt_lead bytes fresh h.comment hi hi offset
    (g := ⟨.ident, ident.name.toList⟩) (by simp) []
  obtain ⟨t, ht, rfl⟩ := hecho
  obtain ⟨rfl, -⟩ := List.cons.inj (hslots.symm.trans ht)
  refine ⟨fun indent fresh => ?_, rfl, _, _, spelled_append _ _, rfl, ?_, ?_⟩
  · have hd : SameLines d ident.info.comment := hd
    simp [Node.reflow, Node.renderIn, Identifier.render, Slot.info, hd.renderComment_eq,
      hd.isSome_eq]
  · exact hasNewline_lead h.comment hi
  · simp [Node.breaksBehind, Sign.hasNewline_name h.name]

theorem rewrites_unary {info : Info} {op : UnaryOp} {operand : Node} (hc : Remarked info.comment)
    (hs : Spellable .operation operand) (h : Rewrites operand) :
    Rewrites (.unary info op operand) := by
  intro bytes inner parens indent fresh offset q hi hk hat hecho
  simp only [Node.keepsComments, Bool.and_eq_true, Option.isNone_iff_eq_none] at hk
  simp only [Node.pieces] at hecho hat ⊢
  obtain ⟨d, hd, hslots⟩ := slotsAt_lead bytes fresh hc hi hi offset
    (g := ⟨op.tokenKind, op.spelling.toList⟩) op.tokenKind_ne_comment
    (operand.pieces indent false operand.isBinary)
  rw [Node.leadOf, hslots] at hecho
  obtain ⟨t, mid, q₀, left, hts, hq, hleft, rfl⟩ := hecho
  obtain ⟨rfl, rfl⟩ := List.cons.inj hts
  -- No comment is left behind the operand, so the operator has none, as `keepsComments` wants it.
  obtain rfl := hleft (hs.closesBare_slotsAt _ _ _ _ _)
  rw [spelled_append, spelled_sign] at hat
  obtain ⟨hrender, hoperator, -⟩ := h _ _ _ _ _ _ _ hi hk.2 hat.right.right hq
  refine ⟨fun indent fresh => ?_, rfl, _, _, spelled_append _ _, rfl, ?_, ?_⟩
  · simp only [Node.reflow, Node.renderIn]
    rw [Node.isBinary_congr hoperator, Node.isBinary_congr (Node.operator?_reflow operand), hrender,
      SameLines.head_eq]
    rw [hk.1]
    rfl
  · exact hasNewline_lead hc hi
  · simp [Node.breaksBehind, op.hasNewline_spelling, hs.lined _ _ _ hi]

/-- The slots that a tree was read from, at the beginning of a text, are those of its own text. -/
theorem Echo.split {bytes : List UInt8} {inner parens fresh : Bool} {indent : List Char}
    {offset : Nat} {n q : Node} {ts behind rest : List Slot} (h : Echo bytes inner parens n ts q)
    (hts : slotsAt bytes offset (n.pieces indent fresh parens) ++ rest = ts ++ behind) :
    slotsAt bytes offset (n.pieces indent fresh parens) = ts ∧ rest = behind := by
  have hlength := h.length_eq indent fresh
  rw [← map_sign_slotsAt bytes offset, List.length_map] at hlength
  exact List.append_inj hts hlength.symm

theorem EchoAll.exists_cons {bytes : List UInt8} {inner : Bool} {a : Node} {as qs : List Node}
    {ts : List Slot} (h : EchoAll bytes inner (a :: as) ts qs) : ∃ q qs₀, qs = q :: qs₀ := by
  obtain ⟨-, -, q, qs₀, -, rfl, -⟩ := h
  exact ⟨q, qs₀, rfl⟩

/-- The first of several trees, in front of other pieces. -/
theorem rewrites_first {a : Node} {as : List Node} {place : Place} (hs : Spellable place a)
    (h : Rewrites a) {bytes : List UInt8} {inner fresh : Bool} {indent : List Char}
    (hi : Spaces indent) (hk : a.keepsComments inner false = true) {rest : List Piece}
    {offset : Nat} {qs : List Node}
    (hat : StandsAt bytes offset (spelled (a.pieces indent fresh false ++ rest)))
    (hecho : EchoAll bytes inner (a :: as)
      (slotsAt bytes offset (a.pieces indent fresh false ++ rest)) qs) :
    ∃ q qs₀, qs = q :: qs₀ ∧
      Rewritten a false offset (spelled (a.pieces indent fresh false)) q ∧
      if as.isEmpty then qs₀ = []
      else ∃ m mid,
        slotsAt bytes (offset + Text.size (spelled (a.pieces indent fresh false))) rest = m :: mid ∧
          EchoAll bytes inner as mid qs₀ := by
  obtain ⟨tn, tns, q, qs₀, hts, rfl, hq, hmore⟩ := hecho
  rw [slotsAt_append (hs.trails_pieces _ _ _)] at hts
  obtain ⟨rfl, rfl⟩ := hq.split hts
  rw [spelled_append] at hat
  refine ⟨q, qs₀, rfl, h _ _ _ _ _ _ _ hi hk hat.left hq, ?_⟩
  cases as with
  | nil => exact (by simpa using hmore : _ ∧ qs₀ = []).2
  | cons => exact hmore

/-- Arguments behind a blank. The last of them stands where `breaksBeforeLast` says. -/
theorem rewrites_args {a : Node} {as : List Node} {place : Place}
    (hs : ∀ m ∈ a :: as, Spellable place m) (h : ∀ m ∈ a :: as, Rewrites m)
    {bytes : List UInt8} {inner broken : Bool} {indent b : List Char} (hi : Spaces indent)
    (hb : hasNewline b = broken) (hk : Node.keepCommentsAll inner (a :: as) = true) {offset : Nat}
    {qs : List Node}
    (hat : StandsAt bytes offset (spelled
      (.blank b :: (a.pieces indent broken false ++ Node.argPieces indent broken false as))))
    (hecho : EchoAll bytes inner (a :: as) (slotsAt bytes offset
      (.blank b :: (a.pieces indent broken false ++ Node.argPieces indent broken false as))) qs) :
    (∀ (indent : List Char) (broken first : Bool), Node.renderArgs indent broken first qs =
        Node.renderArgs indent broken first (Node.reflowAll (a :: as))) ∧
      ∃ u v last,
        spelled (.blank b ::
          (a.pieces indent broken false ++ Node.argPieces indent broken false as)) = u ++ v ∧
        qs.getLast? = some last ∧ last.position.offset = offset + Text.size u ∧
        hasNewline u = (broken || Node.breaksBeforeLast (a :: as)) := by
  induction as generalizing a b offset qs with
  | nil =>
    rw [Node.keepCommentsAll, Bool.and_eq_true] at hk
    rw [slotsAt_blank] at hecho
    rw [spelled_blank] at hat
    obtain ⟨q, qs, rfl, ⟨hrender, -, u, v, htext, hplace, hbefore, -⟩, hmore⟩ :=
      rewrites_first (hs a (by simp)) (h a (by simp)) hi hk.1 hat.right hecho
    obtain rfl : qs = [] := by simpa using hmore
    refine ⟨fun indent broken first => ?_, b ++ u, v, q, ?_, rfl, ?_, ?_⟩
    · simp [Node.renderArgs, Node.reflowAll, hrender]
    · simp [Node.argPieces, htext]
    · rw [hplace, Text.size_append, Nat.add_assoc]
    · rw [hasNewline_append, hb, hbefore, Node.breaksBeforeLast]
  | cons a' as ih =>
    rw [Node.keepCommentsAll, Bool.and_eq_true] at hk
    have hlined := (hs a (by simp)).lined indent broken false hi
    rw [slotsAt_blank] at hecho
    rw [spelled_blank] at hat
    obtain ⟨q, qs, rfl, ⟨hrender, -⟩, hmore⟩ :=
      rewrites_first (hs a (by simp)) (h a (by simp)) hi hk.1 hat.right hecho
    rw [if_neg (by simp)] at hmore
    obtain ⟨m, mid, hslots, hecho⟩ := hmore
    -- The comma, and the next argument behind a blank of its own.
    let next := if broken then ['\n'] else [' ']
    have hnext : Node.argPieces indent broken false (a' :: as) =
        .sign ⟨.comma, [',']⟩ :: .blank next ::
          (a'.pieces indent broken false ++ Node.argPieces indent broken false as) := by
      simp [Node.argPieces, next]
    rw [hnext] at hslots hat ⊢
    rw [slotsAt_sign (by simp)] at hslots
    obtain ⟨rfl, rfl⟩ := List.cons.inj hslots
    rw [spelled_append, spelled_sign] at hat
    have hbreak : hasNewline next = broken := by cases broken <;> rfl
    obtain ⟨hrenders, u, v, last, htext, hlast, hplace, hbefore⟩ :=
      ih (fun m hm => hs m (by simp [hm])) (fun m hm => h m (by simp [hm])) hbreak hk.2
        hat.right.right.right hecho
    refine ⟨fun indent broken first => ?_,
      b ++ (spelled (a.pieces indent broken false) ++ (',' :: u)),
      v, last, ?_, ?_, ?_, ?_⟩
    · rw [Node.renderArgs, hrenders, hrender]
      simp [Node.renderArgs, Node.reflowAll]
    · simp only [spelled_blank, spelled_append, spelled_sign] at htext ⊢
      rw [htext]
      simp
    · rw [List.getLast?_cons, hlast]
      rfl
    · rw [hplace]
      simp only [Text.size_append, Text.size_cons, Text.size_nil]
      omega
    · simp only [hasNewline_append, hasNewline_cons, hb, hlined, hbefore, Node.breaksBeforeLast]
      cases broken <;> simp

/-- The items of a list keep their comments. -/
theorem Spellable.keepsComments_item {n : Node} (h : Spellable .item n) (inner parens : Bool) :
    n.keepsComments inner parens = true := by
  cases h with
  | itemName => simp [Node.keepsComments]
  | itemLiteral hg =>
    cases n with
    | number | duration | bool | string | regex | reference | star => simp [Node.keepsComments]
    | _ => cases hg

theorem rewrites_items {items : List Node} (hs : ∀ m ∈ items, Spellable .item m)
    (h : ∀ m ∈ items, Rewrites m) {bytes : List UInt8} {indent : List Char} (hi : Spaces indent)
    {offset : Nat} {qs : List Node}
    (hat : StandsAt bytes offset (spelled (Node.itemPieces indent items)))
    (hecho : EchoAll bytes false items (slotsAt bytes offset (Node.itemPieces indent items)) qs)
    (indent' : List Char) :
    Node.renderItems indent' qs = Node.renderItems indent' (Node.reflowAll items) := by
  induction items generalizing offset qs with
  | nil =>
    obtain ⟨-, rfl⟩ := hecho
    rfl
  | cons a as ih =>
    have hk := (hs a (by simp)).keepsComments_item false false
    -- Only the last item has no comma behind it.
    cases as with
    | nil =>
      have hpieces : Node.itemPieces indent [a] = a.pieces indent false false ++ [] := by
        simp [Node.itemPieces]
      rw [hpieces] at hat hecho
      obtain ⟨q, qs, rfl, ⟨hrender, -⟩, hmore⟩ :=
        rewrites_first (hs a (by simp)) (h a (by simp)) hi hk hat hecho
      obtain rfl : qs = [] := by simpa using hmore
      simp [Node.renderItems, Node.reflowAll, hrender]
    | cons a' as =>
      have hpieces : Node.itemPieces indent (a :: a' :: as) = a.pieces indent false false ++
          .sign ⟨.comma, [',']⟩ :: .blank [' '] :: Node.itemPieces indent (a' :: as) := by
        rw [Node.itemPieces]
        simp
      rw [hpieces] at hat hecho
      obtain ⟨q, qs, rfl, ⟨hrender, -⟩, hmore⟩ :=
        rewrites_first (hs a (by simp)) (h a (by simp)) hi hk hat hecho
      rw [if_neg (by simp)] at hmore
      obtain ⟨m, mid, hslots, hecho⟩ := hmore
      rw [slotsAt_sign (by simp)] at hslots
      obtain ⟨rfl, rfl⟩ := List.cons.inj hslots
      rw [spelled_append, spelled_sign, spelled_blank] at hat
      have hrest := ih (fun m hm => hs m (by simp [hm])) (fun m hm => h m (by simp [hm]))
        hat.right.right.right hecho
      obtain ⟨q', qs, rfl⟩ := hecho.exists_cons
      simp [Node.renderItems, Node.reflowAll, hrender] at hrest ⊢
      exact hrest

/-- No comment of spellable arguments stands at their end. -/
theorem trails_args {args : List Node} {place : Place} (h : ∀ a ∈ args, Spellable place a)
    (indent : List Char) (broken first : Bool) :
    trails false (Node.argPieces indent broken first args) = false := by
  have hquiet : quiet false false (Node.argPieces indent broken first args ++ []) = true :=
    quiet_args (fun a ha => (h a ha).quiets false) indent broken first rfl
  rw [List.append_nil] at hquiet
  exact trails_of_quiet hquiet

/-- The arguments of a call behind its parenthesis, which stands at an offset. -/
theorem rewrites_call_args {args : List Node} {place : Place} (hs : ∀ m ∈ args, Spellable place m)
    (h : ∀ m ∈ args, Rewrites m) {bytes : List UInt8} {inner broken : Bool}
    {indent name : List Char} (hi : Spaces indent) (hn : hasNewline name = false)
    (hk : Node.keepCommentsAll inner args = true) {offset : Nat} {qs : List Node}
    (hat : StandsAt bytes offset (name ++ spelled (Node.argPieces indent broken true args)))
    (hecho : EchoAll bytes inner args
      (slotsAt bytes (offset + Text.size name) (Node.argPieces indent broken true args)) qs)
    (info : Info) (kind : CallKind) (text : String) (indent' : List Char) (fresh parens : Bool) :
    (Node.func info kind text qs (callBreaks bytes offset qs)).renderIn indent' fresh parens =
      (Node.func info kind text (Node.reflowAll args)
        (broken || Node.breaksBeforeLast args)).renderIn indent' fresh parens := by
  cases args with
  | nil =>
    obtain ⟨-, rfl⟩ := hecho
    simp [Node.renderIn, Node.reflowAll, Node.renderArgs]
  | cons a as =>
    let first := if broken then ['\n'] else []
    have hpieces : Node.argPieces indent broken true (a :: as) = .blank first ::
        (a.pieces indent broken false ++ Node.argPieces indent broken false as) := by
      simp [Node.argPieces, first]
    have hfirst : hasNewline first = broken := by cases broken <;> rfl
    rw [hpieces] at hat hecho
    obtain ⟨hrender, u, v, last, htext, hlast, hplace, hbefore⟩ :=
      rewrites_args hs h hi hfirst hk hat.right hecho
    -- The call is broken by a newline between its name and its last argument.
    have hbreaks : callBreaks bytes offset qs = (broken || Node.breaksBeforeLast (a :: as)) := by
      rw [htext, ← List.append_assoc] at hat
      rw [callBreaks, hlast]
      show breaksIn bytes offset last.position.offset = _
      rw [hplace, Nat.add_assoc, ← Text.size_append, hat.left.breaksIn, hasNewline_append, hn,
        hbefore, Bool.false_or]
    obtain ⟨q', qs, rfl⟩ := hecho.exists_cons
    rw [hbreaks]
    simp only [Node.renderIn, hrender]
    rfl

theorem rewrites_call {info : Info} {kind : CallKind} {name : String} {args : List Node}
    {broken : Bool} {place : Place} (hc : Remarked info.comment)
    (hn : Sign.isName name.toList = true) (hs : ∀ m ∈ args, Spellable place m)
    (h : ∀ m ∈ args, Rewrites m) : Rewrites (.func info kind name args broken) := by
  intro bytes inner parens indent fresh offset q hi hk hat hecho
  simp only [Node.keepsComments, Bool.and_eq_true, Bool.or_eq_true, Bool.not_eq_true',
    Option.isNone_iff_eq_none] at hk
  simp only [Node.pieces, List.append_assoc, List.cons_append] at hecho hat ⊢
  obtain ⟨d, hd, hslots⟩ := slotsAt_lead bytes fresh hc hi hi offset
    (g := ⟨.ident, name.toList⟩) (by simp) (.sign ⟨.lparen, ['(']⟩ ::
      (Node.argPieces (indent ++ indentStep) broken true args ++
        [.blank (if broken && !args.isEmpty then '\n' :: indent else []), .sign ⟨.rparen, [')']⟩]))
  rw [slotsAt_sign (by simp), slotsAt_append (trails_args hs _ _ _), slotsAt_blank,
    slotsAt_sign (by simp), slotsAt_nil] at hslots
  rw [Node.leadOf] at hecho
  rw [show Node.leadOf info indent fresh = lead info.comment indent indent fresh from rfl,
    spelled_append, spelled_sign, spelled_sign, spelled_append] at hat
  -- The slots of the text are those that were read: the name, the parentheses and the arguments.
  obtain ⟨t, o, mid, c, qs, hts, hqs, rfl⟩ := hecho
  obtain ⟨rfl, hbehind⟩ := List.cons.inj (hslots.symm.trans hts)
  obtain ⟨rfl, hargs⟩ := List.cons.inj hbehind
  obtain ⟨rfl, -⟩ := List.append_inj' hargs rfl
  have hparen : hasNewline (name.toList ++ ['(']) = false := by simp [Sign.hasNewline_name hn]
  rw [Nat.add_assoc, ← Text.size_append] at hqs
  have hname := hat.right
  rw [← List.append_assoc, ← List.append_assoc] at hname
  have hrender := rewrites_call_args hs h hi.indentStep hparen hk.2 hname.left hqs
  refine ⟨fun indent fresh => ?_, rfl, _, _, spelled_append _ _, rfl, ?_, ?_⟩
  · rw [hrender]
    simp only [Node.reflow, Node.renderIn]
    rw [SameLines.head_eq]
    cases inner with
    | true =>
      rw [hk.1.resolve_left (by simp)]
      rfl
    | false => exact hd
  · exact hasNewline_lead hc hi
  · rw [Node.breaksBehind]
    exact hasNewline_call hn (fun a ha => (hs a ha).lined) hi broken

/-! ## Operations -/

namespace Node

/-- The pieces of an operation inside its parentheses. -/
def corePieces (indent : List Char) (op : BinaryOp) (left right : Node) (broken : Bool) :
    List Piece :=
  left.pieces indent false (looserLeft op.precedence left) ++
    .blank [' '] :: .sign ⟨.binary op, op.spelling.toList⟩ ::
    .blank [if broken then '\n' else ' '] ::
    right.pieces indent broken (looserRight op.precedence right)

variable {info : Info} {op : BinaryOp} {left right : Node} {parenthesized broken : Bool}
  {indent : List Char} {fresh parens : Bool}

theorem pieces_binary_parens (h : (parens || parenthesized) = true) :
    (Node.binary info op left right parenthesized broken).pieces indent fresh parens =
      leadOf info indent fresh ++ .sign ⟨.lparen, ['(']⟩ ::
        (corePieces (indent ++ indentStep) op left right broken ++ [.sign ⟨.rparen, [')']⟩]) := by
  simp [pieces, h, corePieces]

theorem pieces_binary_bare (h : (parens || parenthesized) = false) :
    (Node.binary info op left right parenthesized broken).pieces indent fresh parens =
      leadOf info indent fresh ++ corePieces indent op left right broken := by
  simp [pieces, h, corePieces]

/-- The text of an operation before its operator. -/
def leftText (indent : List Char) (op : BinaryOp) (left : Node) : List Char :=
  spelled (left.pieces indent false (looserLeft op.precedence left)) ++ [' ']

/-- The text of an operation from its operator on. -/
def rightText (indent : List Char) (op : BinaryOp) (right : Node) (broken : Bool) : List Char :=
  op.spelling.toList ++ ((if broken then '\n' else ' ') ::
    spelled (right.pieces indent broken (looserRight op.precedence right)))

theorem spelled_corePieces (indent : List Char) (op : BinaryOp) (left right : Node)
    (broken : Bool) :
    spelled (corePieces indent op left right broken) =
      leftText indent op left ++ rightText indent op right broken := by
  simp [corePieces, leftText, rightText]

theorem hasNewline_leftText {place : Place} (hl : Spellable place left) (hi : Spaces indent) :
    hasNewline (leftText indent op left) = left.spansLines := by
  simp [leftText, hl.lined _ _ _ hi]

theorem hasNewline_rightText {place : Place} (hr : Spellable place right) (hi : Spaces indent) :
    hasNewline (rightText indent op right broken) = (broken || right.spansLines) := by
  cases broken <;> simp [rightText, op.hasNewline_spelling, hr.lined _ _ _ hi]

/-- The slots of an operation inside its parentheses. -/
theorem slotsAt_corePieces {bytes : List UInt8} {place : Place} (hl : Spellable place left)
    (offset : Nat) :
    let sign := offset + Text.size (leftText indent op left)
    slotsAt bytes offset (corePieces indent op left right broken) =
      slotsAt bytes offset (left.pieces indent false (looserLeft op.precedence left)) ++
        ⟨⟨.binary op, sign, String.ofList op.spelling.toList⟩, none⟩ ::
          slotsAt bytes (sign + Text.size op.spelling.toList + 1)
            (right.pieces indent broken (looserRight op.precedence right)) := by
  intro sign
  have hsize : Text.size [if broken = true then '\n' else ' '] = 1 := by cases broken <;> rfl
  rw [corePieces, slotsAt_append (hl.trails_pieces _ _ _), slotsAt_blank, slotsAt_sign (by simp),
    slotsAt_blank, hsize]
  simp [sign, leftText, Nat.add_assoc]

theorem trails_corePieces {place : Place} (hr : Spellable place right) :
    trails false (corePieces indent op left right broken) = false := by
  rw [corePieces, trails_append_eq]
  exact hr.trails_pieces indent broken (looserRight op.precedence right)

end Node

section

variable {op : BinaryOp} {left right : Node} {broken : Bool} {placeL placeR : Place}
  (hsl : Spellable placeL left) (hl : Rewrites left) (hr : Rewrites right)

include hsl hl hr

/-- The operands of an operation, and whether it breaks its line. -/
theorem rewrites_operands {bytes : List UInt8} {inner : Bool} {indent : List Char}
    (hi : Spaces indent)
    (hkl : left.keepsComments inner (Node.looserLeft op.precedence left) = true)
    (hkr : right.keepsComments true (Node.looserRight op.precedence right) = true) {offset : Nat}
    {tl tr : List Slot} {o : Slot} {ql qr : Node}
    (hat : StandsAt bytes offset (spelled (Node.corePieces indent op left right broken)))
    (hts : slotsAt bytes offset (Node.corePieces indent op left right broken) = tl ++ o :: tr)
    (hel : Echo bytes inner (Node.looserLeft op.precedence left) left tl ql)
    (her : Echo bytes true (Node.looserRight op.precedence right) right tr qr) :
    (o.comment = none ∧ o.token.offset = offset + Text.size (Node.leftText indent op left)) ∧
      ∀ (info : Info) (parens parenthesized : Bool) (indent : List Char) (fresh : Bool),
        (Node.binary info op ql qr parenthesized
            (breaksIn bytes ql.position.offset qr.position.offset)).renderIn indent fresh parens =
          (Node.binary info op left.reflow right.reflow parenthesized
              (broken || (left.breaksBehind || right.breaksBefore))).renderIn
            indent fresh parens := by
  rw [Node.slotsAt_corePieces hsl] at hts
  obtain ⟨rfl, hright⟩ := hel.split hts
  obtain ⟨rfl, rfl⟩ := List.cons.inj hright
  rw [Node.spelled_corePieces] at hat
  have hbreak : hasNewline [if broken = true then '\n' else ' '] = broken := by cases broken <;> rfl
  have hsize : Text.size [if broken = true then '\n' else ' '] = 1 := by cases broken <;> rfl
  have hatl := hat.left
  have hatr := hat.right
  rw [Node.leftText] at hatl
  rw [Node.rightText, ← List.singleton_append, ← List.append_assoc] at hatr
  have hatr := hatr.right
  rw [Text.size_append, hsize, ← Nat.add_assoc] at hatr
  obtain ⟨hrl, hopl, ul, vl, htl, hpl, -, hvl⟩ := hl _ _ _ _ _ _ _ hi hkl hatl.left hel
  obtain ⟨hrr, hopr, ur, vr, htr, hpr, hur, -⟩ := hr _ _ _ _ _ _ _ hi hkr hatr her
  refine ⟨⟨rfl, rfl⟩, fun info parens parenthesized indent' fresh => ?_⟩
  have hbreaks : breaksIn bytes ql.position.offset qr.position.offset =
      (broken || (left.breaksBehind || right.breaksBefore)) := by
    -- The text between the signs that the operands stand at.
    let between := vl ++ ([' '] ++ (op.spelling.toList ++ ([if broken then '\n' else ' '] ++ ur)))
    have htext : StandsAt bytes offset (ul ++ (between ++ vr)) := by
      simpa [between, Node.leftText, Node.rightText, htl, htr] using hat
    have hstop : qr.position.offset = ql.position.offset + Text.size between := by
      rw [hpr, hpl, Node.leftText, htl]
      simp only [between, Text.size_append, hsize]
      omega
    rw [hstop, hpl, htext.right.left.breaksIn]
    simp only [between, hasNewline_append, hvl, hur, op.hasNewline_spelling, hbreak]
    cases broken <;> simp
  rw [hbreaks]
  simp only [Node.renderIn, Node.looserLeft_congr hopl, Node.looserRight_congr hopr,
    Node.looserLeft_congr (Node.operator?_reflow left),
    Node.looserRight_congr (Node.operator?_reflow right), hrl, hrr]

theorem rewrites_binary (hsr : Spellable placeR right) {info : Info} {parenthesized : Bool}
    (hc : Remarked info.comment) :
    Rewrites (.binary info op left right parenthesized broken) := by
  intro bytes inner parens indent fresh offset q hi hk hat hecho
  simp only [Node.keepsComments, Bool.and_eq_true, Bool.or_eq_true, Option.isNone_iff_eq_none] at hk
  obtain ⟨⟨hcomment, hkl⟩, hkr⟩ := hk
  obtain ⟨tl, o, tr, ql, qr, hel, her, hts⟩ := hecho
  dsimp only at hts
  cases hp : parens || parenthesized with
  | true =>
    -- The comment stands before the opening parenthesis.
    rw [hp, if_pos rfl] at hts
    obtain ⟨b, c, hts, rfl⟩ := hts
    have hinner := hi.indentStep
    rw [Node.pieces_binary_parens hp] at hts hat ⊢
    obtain ⟨d, hd, hslots⟩ := slotsAt_lead bytes fresh hc hi hi offset
      (g := ⟨.lparen, ['(']⟩) (by simp)
      (Node.corePieces (indent ++ indentStep) op left right broken ++ [.sign ⟨.rparen, [')']⟩])
    rw [slotsAt_append (Node.trails_corePieces hsr), slotsAt_sign (by simp), slotsAt_nil] at hslots
    obtain ⟨rfl, hbehind⟩ := List.cons.inj (hslots.symm.trans hts)
    obtain ⟨hcore, -⟩ := List.append_inj' hbehind rfl
    rw [spelled_append, spelled_sign, spelled_append] at hat ⊢
    obtain ⟨⟨-, hplace⟩, hrender⟩ :=
      rewrites_operands hsl hl hr hinner hkl hkr hat.right.right.left hcore hel her
    rw [Node.spelled_corePieces]
    refine ⟨fun indent fresh => ?_, rfl,
      spelled (Node.leadOf info indent fresh) ++
        ('(' :: Node.leftText (indent ++ indentStep) op left),
      Node.rightText (indent ++ indentStep) op right broken ++ [')'], ?_, ?_, ?_, ?_⟩
    · rw [hrender]
      simp only [Node.reflow, Node.renderIn, hp, Bool.or_true]
      rw [SameLines.head_eq]
      exact hd
    · simp
    · show o.token.offset = _
      rw [hplace, Text.size_append, Text.size_cons, Node.leadOf, Nat.add_assoc, Nat.add_assoc]
      rfl
    · simp [Node.breaksBefore, Node.hasNewline_head hc hi, Node.hasNewline_leftText hsl hinner]
    · simp [Node.breaksBehind, Node.hasNewline_rightText hsr hinner]
  | false =>
    rw [hp, if_neg (by simp)] at hts
    obtain ⟨hts, rfl⟩ := hts
    rw [Node.pieces_binary_bare hp] at hts hat ⊢
    -- Without parentheses an operation keeps no comment.
    have hnone : info.comment = none := hcomment.resolve_left (by simpa using hp)
    have hlead : Node.leadOf info indent fresh = [.blank (lineStart indent fresh)] := by
      rw [Node.leadOf, hnone]
      rfl
    rw [hlead, List.singleton_append, slotsAt_blank] at hts
    rw [hlead, List.singleton_append, spelled_blank] at hat ⊢
    obtain ⟨⟨hbare, hplace⟩, hrender⟩ :=
      rewrites_operands hsl hl hr hi hkl hkr hat.right hts hel her
    rw [Node.spelled_corePieces]
    refine ⟨fun indent fresh => ?_, rfl, lineStart indent fresh ++ Node.leftText indent op left,
      Node.rightText indent op right broken, ?_, ?_, ?_, ?_⟩
    · rw [hrender]
      simp only [Node.reflow, Node.renderIn, Bool.or_eq_false_iff.1 hp]
      rw [SameLines.head_eq]
      rw [Slot.info, hbare, hnone]
      rfl
    · rw [List.append_assoc]
    · show o.token.offset = _
      rw [hplace, Text.size_append, Nat.add_assoc]
    · rw [hasNewline_append, Node.hasNewline_leftText hsl hi, (hi.lineStart fresh).hasNewline,
        Node.breaksBefore, hnone]
      rfl
    · exact Node.hasNewline_rightText hsr hi

end

/-! ## Chains, lambdas, lists and statements -/

theorem rewrites_chain {info : Info} {op : ChainOp} {left right : Node} {placeL placeR : Place}
    (hc : Remarked info.comment) (hsl : Spellable placeL left) (hsr : Spellable placeR right)
    (hl : Rewrites left) (hr : Rewrites right) : Rewrites (.chain info op left right) := by
  intro bytes inner parens indent fresh offset q hi hk hat hecho
  rw [Node.keepsComments, Bool.and_eq_true] at hk
  have hstep := hi.stepIndent op
  simp only [Node.pieces, List.append_assoc, List.cons_append] at hecho hat ⊢
  obtain ⟨d, hd, hslots⟩ := slotsAt_lead bytes true hc hstep hstep
    (offset + Text.size (spelled (left.pieces indent fresh false)) + Text.size ['\n'])
    (g := ⟨.chain op, op.spelling.toList⟩) (by simp)
    (right.pieces (Node.stepIndent op indent) false false)
  obtain ⟨tl, o, tr, ql, qr, hts, hel, her, rfl⟩ := hecho
  rw [slotsAt_append (hsl.trails_pieces _ _ _), slotsAt_blank] at hts
  obtain ⟨rfl, hright⟩ := hel.split hts
  obtain ⟨rfl, rfl⟩ := List.cons.inj (hslots.symm.trans hright)
  rw [spelled_append, spelled_blank, spelled_append, spelled_sign] at hat ⊢
  obtain ⟨hrl, -⟩ := hl _ _ _ _ _ _ _ hi hk.1 hat.left hel
  obtain ⟨hrr, -⟩ := hr _ _ _ _ _ _ _ hstep hk.2 hat.right.right.right.right her
  -- A chain stands at its operator, on the line behind its left part.
  refine ⟨fun indent fresh => ?_, rfl,
    spelled (left.pieces indent fresh false) ++ ('\n' :: spelled (lead info.comment
      (Node.stepIndent op indent) (Node.stepIndent op indent) true)),
    op.spelling.toList ++ spelled (right.pieces (Node.stepIndent op indent) false false),
    ?_, ?_, ?_, ?_⟩
  · have hd : SameLines d info.comment := hd
    simp [Node.reflow, Node.renderIn, hrl, hrr, Slot.info, hd.renderComment_eq]
  · rw [List.append_assoc]
    rfl
  · show _ + _ + _ + _ = _
    rw [Text.size_append, Text.size_cons, Text.size_cons, Text.size_nil]
    omega
  · simp [Node.breaksBefore]
  · rw [hasNewline_append]
    simp [Node.breaksBehind, op.hasNewline_spelling, hsr.lined _ _ _ hstep]

theorem rewrites_lambda {info : Info} {body : Node} {place : Place} (hc : Remarked info.comment)
    (hs : Spellable place body) (h : Rewrites body) : Rewrites (.lambda info body) := by
  intro bytes inner parens indent fresh offset q hi hk hat hecho
  rw [Node.keepsComments] at hk
  simp only [Node.pieces] at hecho hat ⊢
  obtain ⟨d, hd, hslots⟩ := slotsAt_lead bytes fresh hc hi hi offset
    (g := ⟨.lambda, Sign.lambdaText⟩) (by simp) (.blank [' '] :: body.pieces indent false false)
  obtain ⟨t, mid, q₀, hts, hq, rfl⟩ := hecho
  obtain ⟨rfl, rfl⟩ := List.cons.inj (hslots.symm.trans hts)
  rw [spelled_append, spelled_sign, spelled_blank] at hat
  obtain ⟨hrender, -⟩ := h _ _ _ _ _ _ _ hi hk hat.right.right.right hq
  have hsign : hasNewline Sign.lambdaText = false := by decide
  refine ⟨fun indent fresh => ?_, rfl, _, _, spelled_append _ _, rfl, ?_, ?_⟩
  · simp only [Node.reflow, Node.renderIn, hrender]
    rw [SameLines.head_eq]
    exact hd
  · exact hasNewline_lead hc hi
  · simp [Node.breaksBehind, hsign, hs.lined _ _ _ hi]

theorem rewrites_list {info : Info} {items : List Node} (hc : Remarked info.comment)
    (hs : ∀ m ∈ items, Spellable .item m) (h : ∀ m ∈ items, Rewrites m) :
    Rewrites (.list info items) := by
  intro bytes inner parens indent fresh offset q hi _ hat hecho
  simp only [Node.pieces] at hecho hat ⊢
  obtain ⟨d, hd, hslots⟩ := slotsAt_lead bytes fresh hc hi hi offset
    (g := ⟨.lbracket, ['[']⟩) (by simp)
    (Node.itemPieces indent items ++ [.sign ⟨.rbracket, [']']⟩])
  -- Behind the items no comment waits for the bracket.
  have htrails : trails false (Node.itemPieces indent items) = false := by
    have hquiet : quiet false false (Node.itemPieces indent items ++ []) = true :=
      quiet_items (fun a ha => (hs a ha).quiets false) indent rfl
    rw [List.append_nil] at hquiet
    exact trails_of_quiet hquiet
  rw [slotsAt_append htrails, slotsAt_sign (by simp), slotsAt_nil] at hslots
  obtain ⟨t, mid, c, qs, hts, hqs, rfl⟩ := hecho
  obtain ⟨rfl, hbehind⟩ := List.cons.inj (hslots.symm.trans hts)
  obtain ⟨rfl, -⟩ := List.append_inj' hbehind rfl
  rw [spelled_append, spelled_sign, spelled_append] at hat
  have hrender := rewrites_items hs h hi hat.right.right.left hqs
  refine ⟨fun indent fresh => ?_, rfl, _, _, spelled_append _ _, rfl, ?_, ?_⟩
  · simp only [Node.reflow, Node.renderIn, hrender]
    rw [SameLines.head_eq]
    exact hd
  · exact hasNewline_lead hc hi
  · simp [Node.breaksBehind, hasNewline_items (fun m hm => (hs m hm).lined) hi]

/-- What is read from the text of a tree that is no statement of its own is rewritten. -/
theorem Spellable.rewrites {place : Place} {n : Node} (h : Spellable place n)
    (hp : place ≠ .statement) : Rewrites n := by
  induction h with
  | literal hg _ hc _ | headLiteral hg _ hc _ | itemLiteral hg _ _ hc =>
    exact rewrites_literal hg hc
  | name hi | headName hi | baseName hi | stepName _ hi | itemName hi => exact rewrites_name hi
  | call hc hn ha ih | headCall hc hn ha ih | baseCall hc hn ha ih | stepCall hc hn ha ih =>
    exact rewrites_call hc hn ha fun a hm => ih a hm (by simp)
  | unary hc ho ih | headUnary hc ho ih => exact rewrites_unary hc ho (ih (by simp))
  | binary hc _ hl hr ihl ihr | headParens hc hl hr ihl ihr =>
    exact rewrites_binary hl (ihl (by simp)) (ihr (by simp)) hr hc
  | headBinary hc _ hl hr ihl ihr =>
    exact rewrites_binary hl (ihl (by split <;> simp)) (ihr (by simp)) hr hc
  | operation _ ih => exact ih (by simp)
  | lambda hc hb ih => exact rewrites_lambda hc hb (ih (by simp))
  | list hc hi ih => exact rewrites_list hc hi fun i hm => ih i hm (by simp)
  | chain hc hl hr ihl ihr | baseChain hc hl hr ihl ihr =>
    exact rewrites_chain hc hl hr (ihl (by simp)) (ihr (by simp))
  | declaration | typeDeclaration | express => exact absurd rfl hp

/-- A name with its comment. -/
theorem slotsAt_name (bytes : List UInt8) (fresh : Bool) {ident : Identifier} (h : ident.Spellable)
    {indent : List Char} (hi : Spaces indent) (offset : Nat) (ps : List Piece) :
    ∃ t : Slot, SameLines t.comment ident.info.comment ∧
      slotsAt bytes offset (ident.pieces indent fresh ++ ps) =
        t :: slotsAt bytes (offset + Text.size (spelled (ident.pieces indent fresh))) ps := by
  obtain ⟨d, hd, hslots⟩ := slotsAt_lead bytes fresh h.comment hi hi offset
    (g := ⟨.ident, ident.name.toList⟩) (by simp) ps
  rw [Identifier.pieces, List.append_assoc, List.singleton_append, hslots, spelled_append,
    spelled_sign, spelled_nil, List.append_nil, Text.size_append, ← Nat.add_assoc]
  exact ⟨⟨_, d⟩, hd, rfl⟩

theorem SameLines.render_eq {bytes : List UInt8} {t : Slot} {ident : Identifier}
    (h : SameLines t.comment ident.info.comment) (indent : List Char) (fresh : Bool) :
    Identifier.render ⟨t.info bytes, ident.name⟩ indent fresh = ident.render indent fresh := by
  simp only [Identifier.render, Slot.info, h.renderComment_eq, h.isSome_eq]

theorem rewrites_declaration {info : Info} {name : Identifier} {value : Node}
    (hc : Remarked info.comment) (hn : name.Spellable) (hv : Rewrites value) {bytes : List UInt8}
    {indent : List Char} {fresh : Bool} {offset : Nat} {q : Node} (hi : Spaces indent)
    (hk : value.keepsComments false false = true)
    (hat : StandsAt bytes offset
      (spelled ((Node.declaration info name value).pieces indent fresh false)))
    (hecho : Echo bytes false false (.declaration info name value)
      (slotsAt bytes offset ((Node.declaration info name value).pieces indent fresh false)) q)
    (indent' : List Char) (fresh' : Bool) :
    q.renderIn indent' fresh' false =
      (Node.declaration info name value).reflow.renderIn indent' fresh' false := by
  simp only [Node.pieces, List.append_assoc, List.cons_append] at hecho hat
  obtain ⟨d, hd, hslots⟩ := slotsAt_lead bytes fresh hc hi spaces_nil offset
    (g := ⟨.var, "var".toList⟩) (by simp) (.blank [' '] :: (name.pieces indent false ++
      (.blank [' '] :: .sign ⟨.assign, ['=']⟩ :: .blank [' '] :: value.pieces indent false false)))
  obtain ⟨i, hname, hbehind⟩ := slotsAt_name bytes false hn hi
    (offset + Text.size (spelled (lead info.comment indent [] fresh)) + Text.size "var".toList +
      Text.size [' '])
    (.blank [' '] :: .sign ⟨.assign, ['=']⟩ :: .blank [' '] :: value.pieces indent false false)
  rw [slotsAt_blank _ [' '] (.sign _ :: _), slotsAt_sign (by simp), slotsAt_blank] at hbehind
  rw [slotsAt_blank, hbehind] at hslots
  obtain ⟨t, i', e, mid, q₀, hts, hq, rfl⟩ := hecho
  obtain ⟨rfl, hrest⟩ := List.cons.inj (hslots.symm.trans hts)
  obtain ⟨rfl, hvalue⟩ := List.cons.inj hrest
  obtain ⟨rfl, rfl⟩ := List.cons.inj hvalue
  simp only [spelled_append, spelled_sign, spelled_blank] at hat
  obtain ⟨hrender, -⟩ :=
    hv _ _ _ _ _ _ _ hi hk hat.right.right.right.right.right.right.right hq
  have hd : SameLines d info.comment := hd
  simp only [Node.reflow, Node.renderIn, hrender, hname.render_eq]
  simp only [Slot.info, hd.renderComment_eq]

theorem rewrites_typeDeclaration {info : Info} {name type : Identifier}
    (hc : Remarked info.comment) (hn : name.Spellable) (ht : type.Spellable) {bytes : List UInt8}
    {indent : List Char} {fresh : Bool} {offset : Nat} {q : Node} (hi : Spaces indent)
    (hecho : Echo bytes false false (.typeDeclaration info name type)
      (slotsAt bytes offset ((Node.typeDeclaration info name type).pieces indent fresh false)) q)
    (indent' : List Char) (fresh' : Bool) :
    q.renderIn indent' fresh' false =
      (Node.typeDeclaration info name type).reflow.renderIn indent' fresh' false := by
  simp only [Node.pieces, List.append_assoc, List.cons_append] at hecho
  obtain ⟨d, hd, hslots⟩ := slotsAt_lead bytes fresh hc hi spaces_nil offset
    (g := ⟨.var, "var".toList⟩) (by simp) (.blank [' '] :: (name.pieces indent false ++
      (.blank [' '] :: type.pieces indent false)))
  obtain ⟨i, hname, hbehind⟩ := slotsAt_name bytes false hn hi
    (offset + Text.size (spelled (lead info.comment indent [] fresh)) + Text.size "var".toList +
      Text.size [' '])
    (.blank [' '] :: type.pieces indent false)
  obtain ⟨y, htype, hlast⟩ := slotsAt_name bytes false ht hi
    (offset + Text.size (spelled (lead info.comment indent [] fresh)) + Text.size "var".toList +
      Text.size [' '] + Text.size (spelled (name.pieces indent false)) + Text.size [' ']) []
  rw [List.append_nil, slotsAt_nil] at hlast
  rw [slotsAt_blank, hlast] at hbehind
  rw [slotsAt_blank, hbehind] at hslots
  obtain ⟨t, i', y', hts, rfl⟩ := hecho
  obtain ⟨rfl, hrest⟩ := List.cons.inj (hslots.symm.trans hts)
  obtain ⟨rfl, hend⟩ := List.cons.inj hrest
  obtain ⟨rfl, -⟩ := List.cons.inj hend
  have hd : SameLines d info.comment := hd
  simp only [Node.reflow, Node.renderIn, hname.render_eq, htype.render_eq]
  simp only [Slot.info, hd.renderComment_eq]

/-- What is read from the text of a statement is written as the statement is with its line breaks
set anew. -/
theorem Spellable.rewrites_statement {n : Node} (h : Spellable .statement n) {bytes : List UInt8}
    {indent : List Char} {fresh : Bool} {offset : Nat} {q : Node} (hi : Spaces indent)
    (hk : n.keepsComments false false = true)
    (hat : StandsAt bytes offset (spelled (n.pieces indent fresh false)))
    (hecho : Echo bytes false false n (slotsAt bytes offset (n.pieces indent fresh false)) q)
    (indent' : List Char) (fresh' : Bool) :
    q.renderIn indent' fresh' false = n.reflow.renderIn indent' fresh' false := by
  cases h with
  | declaration hc hn hv =>
    rw [Node.keepsComments] at hk
    exact rewrites_declaration hc hn (hv.rewrites (by simp)) hi hk hat hecho indent' fresh'
  | typeDeclaration hc hn ht => exact rewrites_typeDeclaration hc hn ht hi hecho indent' fresh'
  | express h =>
    exact (h.rewrites (by simp) _ _ _ _ _ _ _ hi hk hat hecho).render_eq indent' fresh'

end PipelineScript

import PipelineScript.Node.Preorder
import PipelineScript.Proofs.Erasure
import PipelineScript.Proofs.Floats
import PipelineScript.Proofs.Sound
import PipelineScript.Proofs.Statements

/-!
Trees that were read are written so that they can be read back.

Whatever the parser gives is spellable, node for node, except for two slips of the writer that a
node shows by itself (`Node.isGarbled`): a text in triple quotes that the scanner closes elsewhere
than the writer does, and a comment right before a regex, whose slash goes on with the comment. So
a script is read back from its canonical text (`parse_render_of_legible`) unless one of these
happens, or the scanner arrives at a sign in a mode that does not suit it, or a statement goes on
with the one before it, or two comments stand at the end.
-/
namespace PipelineScript

section

variable {engine : PatternEngine}

namespace Node

/-- Whether a node is a number that is too large for a binary64 value. -/
def overflows : Node → Bool
  | .number _ (.float value) => !value.isFinite
  | _ => false

/-- Whether what is written for a node is scanned as something else, whatever stands around it. -/
def isGarbled : Node → Bool
  | .string _ literal true => !decide (Sign.ClosesTriple literal.toList)
  | n => n.comment?.isSome && n.leadsRegex false

/-- Whether a node is written as it should be. -/
def isClean (n : Node) : Bool := !n.overflows && !n.isGarbled

/-- No node of a tree is too large or garbled. -/
def isPlain (n : Node) : Bool := n.preorder.all isClean

end Node

/-! ## Literals -/

namespace Text

/-- Reading keeps the last character of a text. -/
theorem getLast?_unescapeMark (mark : Char) (cs : List Char) :
    (unescapeMark mark cs).getLast? = cs.getLast? := by
  fun_induction unescapeMark mark cs with
  | case1 => rfl
  | case2 => rfl
  | case3 c d cs h ih =>
    obtain ⟨rfl, rfl⟩ := h
    rw [List.getLast?_cons_cons]
    cases cs with
    | nil => rfl
    | cons e es => rw [List.getLast?_cons, ih, List.getLast?_cons (a := d)]
  | case4 c d cs h ih =>
    rw [List.getLast?_cons, ih, List.getLast?_cons_cons, List.getLast?_cons]
    simp

end Text

section

variable {info : Info} {t : Token} {n : Node}

/-- A string in triple quotes that the scanner closes where the writer does. -/
theorem spells_triple {literal : String} (h : Sign.ClosesTriple literal.toList) :
    Spells (.string info literal true)
      ⟨.string, "'''".toList ++ literal.toList ++ "'''".toList⟩ := by
  have htext : "'''".toList ++ literal.toList ++ "'''".toList =
      ['\'', '\'', '\''] ++ (literal.toList ++ ['\'', '\'', '\'']) := by
    rw [List.append_assoc]
    rfl
  refine ⟨fun rest _ => ?_, fun bytes t ht => ?_⟩
  · rw [htext]
    exact .triple h
  · have hk := Slot.kind_of_sign ht
    have ht := Slot.text_of_sign ht
    have hbody : Node.stringBody? ("'''".toList ++ literal.toList ++ "'''".toList) =
        some (literal.toList, true) := by
      rw [htext]
      exact Node.stringBody?_triple rfl
    refine ⟨.string (t.info bytes) literal true, ⟨by simp [Node.same], rfl, rfl⟩,
      fun rest => .string hk ?_⟩
    rw [Node.stringOfText?, ht, String.toList_ofList, hbody]
    simp

theorem nonneg_of_int64OfInt? {n : Int} {value : Int64} (hn : 0 ≤ n)
    (h : int64OfInt? n = some value) : 0 ≤ value.toInt := by
  rw [int64OfInt?] at h
  split at h
  · rename_i hrange
    cases h
    rw [Int64.toInt_ofInt_of_le (by omega) (by omega)]
    exact hn
  · cases h

/-- A literal node is written as a sign of a kind that is read back. -/
def Literally (n : Node) (kind : TokenKind) : Prop :=
  ∃ g, n.literalSign? = some g ∧ Spells n g ∧ g.kind = kind

/-- A number is a whole number in base eight or ten that is not negative, or rounded from a decimal
without a sign. -/
theorem number_of_ofText (hf : t.Formed) (hk : t.kind = .number) {v : Number}
    (hv : Number.ofText t.text = .ok v) :
    (∃ value base, v = .int value base ∧ 0 ≤ value.toInt ∧
      (base = Node.octalBase ∨ base = Node.decimalBase)) ∨
    ∃ d, v = .float (Binary64.ofDecimal false d) := by
  simp only [Token.Formed, hk] at hf
  have hv : Number.ofText? t.text.toList = some v := by
    rw [Number.ofText] at hv
    split at hv
    · cases hv; assumption
    · cases hv
  rcases hf with hwhole | ⟨whole, part, htext, hwhole, hpart⟩
  · rw [Number.ofText?, not_contains_of_isWhole hwhole] at hv
    simp only [Bool.false_eq_true, if_false, readInt?_of_isWhole hwhole] at hv
    generalize hbase : (if t.text.toList.head? = some '0' ∧ 1 < t.text.toList.length then
      Node.octalBase else Node.decimalBase) = base at hv
    have hb : base = Node.octalBase ∨ base = Node.decimalBase := by
      rw [← hbase]
      split
      · exact .inl rfl
      · exact .inr rfl
    cases hn : natOfDigits? base.toNat 0 t.text.toList with
    | none => simp [hn] at hv
    | some k =>
      simp only [hn] at hv
      obtain ⟨value, hvalue, rfl⟩ := Option.map_eq_some_iff.1 hv
      exact .inl ⟨value, base, rfl, nonneg_of_int64OfInt? (Int.natCast_nonneg k) hvalue, hb⟩
  · rw [htext, Number.ofText?, if_pos (by simp), Option.map_eq_some_iff] at hv
    obtain ⟨⟨negative, d⟩, hread, rfl⟩ := hv
    have hneg : negative = false := by
      cases whole with
      | nil =>
        obtain ⟨_, _, he⟩ := Option.map_eq_some_iff.1 (hread : (Decimal.readUnsigned? _).map _ = _)
        cases he
        rfl
      | cons c cs =>
        have hw : Sign.isWhole (c :: cs) = true := by simpa [Sign.isWhole] using hwhole
        rw [Decimal.read?_of_isWhole hw] at hread
        obtain ⟨_, _, he⟩ := Option.map_eq_some_iff.1 hread
        cases he
        rfl
    subst hneg
    exact .inr ⟨d, rfl⟩

theorem literally_number (hf : t.Formed) (hk : t.kind = .number) {v : Number}
    (hv : Number.ofText t.text = .ok v) (ho : (Node.number info v).overflows = false) :
    Literally (.number info v) .number := by
  refine ⟨_, rfl, ?_, rfl⟩
  rcases number_of_ofText hf hk hv with ⟨value, base, rfl, hvalue, hbase⟩ | ⟨d, rfl⟩
  · exact spells_int hvalue hbase
  · exact spells_float (Binary64.negative_ofDecimal d) (by simpa [Node.overflows] using ho)

theorem literally_string (hf : t.Formed) (hk : t.kind = .string)
    (hn : Node.stringOfText? info t.text = some n) (hg : n.isGarbled = false) :
    Literally n .string := by
  simp only [Token.Formed, hk] at hf
  obtain ⟨⟨body, triple⟩, hbody, rfl⟩ := Option.map_eq_some_iff.1 hn
  rcases hf with ⟨inner, htext, hcloses, hhead⟩ | htriple
  · rw [htext, Node.stringBody?_single hhead, Option.some.injEq, Prod.mk.injEq] at hbody
    obtain ⟨rfl, rfl⟩ := hbody
    refine ⟨_, rfl, spells_string ?_, rfl⟩
    rw [String.toList_ofList, Text.getLast?_unescapeMark]
    exact hcloses.getLast?_ne
  · obtain ⟨inner, hinner⟩ := htriple.exists_body
    rw [hinner] at hbody
    cases hbody
    exact ⟨_, rfl, spells_triple (by simpa [Node.isGarbled] using hg), rfl⟩

theorem literally_reference (hf : t.Formed) (hk : t.kind = .reference) :
    Literally (Node.referenceOfText info t.text) .reference := by
  simp only [Token.Formed, hk] at hf
  obtain ⟨body, htext, hcloses⟩ := hf
  rw [Node.referenceOfText, htext, Text.dropEnds_cons_append]
  refine ⟨_, rfl, spells_reference ?_, rfl⟩
  rw [String.toList_ofList, Text.getLast?_unescapeMark]
  exact hcloses.getLast?_ne

theorem literally_regex (hf : t.Formed) (hk : t.kind = .regex)
    (hn : Node.regexOfText info t.text = .ok n) : n.info = info ∧ Literally n .regex := by
  simp only [Token.Formed, hk] at hf
  rw [← String.toList_ofList (l := Text.dropEnds t.text.toList)] at hf
  obtain ⟨pattern, hpattern, rfl⟩ := Node.regexOfLiteral_eq_ok_iff.1 hn
  have hread : ∀ info, Node.regexOfLiteral info (String.ofList (Text.dropEnds t.text.toList)) =
      .ok (.regex info pattern (String.ofList (Text.dropEnds t.text.toList))) :=
    fun _ => Node.regexOfLiteral_eq_ok_iff.2 ⟨pattern, hpattern, rfl⟩
  exact ⟨rfl, _, rfl, spells_regex hf fun info => ⟨pattern, hread info, rfl⟩, rfl⟩

theorem literally_duration (hf : t.Formed) (hk : t.kind = .duration)
    (hn : Node.durationOfText info t.text = .ok n) : n.info = info ∧ Literally n .duration := by
  simp only [Token.Formed, hk] at hf
  obtain ⟨whole, unit, htext, hw, hu⟩ := hf
  obtain ⟨span, hspan, rfl⟩ := Node.durationOfText_eq_ok_iff.1 hn
  have hne : t.text.isEmpty = false := by
    rw [String.isEmpty_eq_false_iff]
    intro h
    obtain ⟨c, cs, rfl, -⟩ := Sign.exists_cons_of_isWhole hw
    simp [h] at htext
  have hliteral : (if t.text.isEmpty then span.render else t.text).toList = whole ++ unit := by
    rw [hne]
    exact htext
  refine ⟨rfl, _, rfl, spells_duration t.text hliteral hw hu ?_, rfl⟩
  rw [← htext, String.ofList_toList]
  exact hspan

end

/-! ## Plain trees -/

namespace Node

theorem all_preorderAll (p : Node → Bool) (ns : List Node) :
    (preorderAll ns).all p = ns.all fun n => n.preorder.all p := by
  induction ns with
  | nil => rfl
  | cons n ns ih => rw [preorderAll, List.all_append, ih, List.all_cons]

section

variable {info : Info} {left right n : Node} {ns : List Node}

@[simp] theorem isPlain_func {kind : CallKind} {name : String} {broken : Bool} :
    (Node.func info kind name ns broken).isPlain = ns.all isPlain := by
  rw [isPlain, preorder, List.all_cons, all_preorderAll]
  simp only [isClean, overflows, isGarbled, leadsRegex, Bool.and_false, Bool.not_false,
    Bool.true_and]
  rfl

@[simp] theorem isPlain_list : (Node.list info ns).isPlain = ns.all isPlain := by
  rw [isPlain, preorder, List.all_cons, all_preorderAll]
  simp only [isClean, overflows, isGarbled, leadsRegex, Bool.and_false, Bool.not_false,
    Bool.true_and]
  rfl

@[simp] theorem isPlain_unary {op : UnaryOp} : (Node.unary info op n).isPlain = n.isPlain := by
  simp [isPlain, preorder, isClean, overflows, isGarbled, leadsRegex]

@[simp] theorem isPlain_lambda : (Node.lambda info n).isPlain = n.isPlain := by
  simp [isPlain, preorder, isClean, overflows, isGarbled, leadsRegex]

@[simp] theorem isPlain_chain {op : ChainOp} :
    (Node.chain info op left right).isPlain = (left.isPlain && right.isPlain) := by
  simp [isPlain, preorder, isClean, overflows, isGarbled, leadsRegex]

@[simp] theorem isPlain_declaration {name : Identifier} :
    (Node.declaration info name n).isPlain = n.isPlain := by
  simp [isPlain, preorder, isClean, overflows, isGarbled, leadsRegex]

theorem isPlain_binary {op : BinaryOp} {parenthesized broken : Bool} :
    (Node.binary info op left right parenthesized broken).isPlain =
      (!(Node.binary info op left right parenthesized broken).isGarbled &&
        (left.isPlain && right.isPlain)) := by
  simp [isPlain, preorder, isClean, overflows]

theorem isClean_of_isPlain (h : n.isPlain = true) : n.isClean = true := by
  cases n <;> simp only [isPlain, preorder, List.all_cons, Bool.and_eq_true] at h <;> exact h.1

theorem isGarbled_of_isPlain (h : n.isPlain = true) : n.isGarbled = false := by
  have h := isClean_of_isPlain h
  simp only [isClean, Bool.and_eq_true, Bool.not_eq_true'] at h
  exact h.2

theorem leadsRegex_of_isGarbled (h : n.isGarbled = false) (hc : n.comment? ≠ none) :
    n.leadsRegex false = false := by
  have hsome : n.comment?.isSome = true := Option.isSome_iff_ne_none.2 hc
  cases n with
  | string => rfl
  | _ => simpa [isGarbled, hsome] using h

end

/-! ## Other comments and parentheses -/

theorem same_setComment (c : Option Comment) (q n : Node) : q.same (n.setComment c) = q.same n :=
  same_congr rfl (erase_setComment c n)

@[simp] theorem literalSign?_setComment (c : Option Comment) (n : Node) :
    (n.setComment c).literalSign? = n.literalSign? := by
  cases n <;> rfl

@[simp] theorem setComment_setComment (c d : Option Comment) (n : Node) :
    (n.setComment d).setComment c = n.setComment c := by
  cases n <;> rfl

@[simp] theorem setComment_comment? (n : Node) : n.setComment n.comment? = n := by
  cases n <;> rfl

@[simp] theorem parenthesize_setComment (c : Option Comment) (n : Node) :
    (n.setComment c).parenthesize = n.parenthesize.setComment c := by
  cases n <;> rfl

theorem comment?_setComment (c : Option Comment) (n : Node) :
    (n.setComment c).comment? = c ∨ (n.setComment c).comment? = none := by
  cases n <;> simp [setComment, comment?, info]

theorem isClean_bare {c : Option Comment} {n : Node} (h : (n.setComment c).isClean = true) :
    (n.setComment none).isClean = true := by
  cases n with
  | number info value =>
    cases value with
    | int => rfl
    | float => simpa [isClean, setComment, overflows, isGarbled, leadsRegex] using h
  | string info literal triple =>
    cases triple with
    | true => exact h
    | false => rfl
  | _ => simp [isClean, setComment, overflows, isGarbled, comment?, Node.info]

/-- A tree is plain without its comment if it is plain with another one. -/
theorem isPlain_bare {c : Option Comment} {n : Node} (h : (n.setComment c).isPlain = true) :
    (n.setComment none).isPlain = true := by
  obtain ⟨rest, hrest⟩ : ∃ rest, ∀ c, (n.setComment c).preorder = n.setComment c :: rest := by
    cases n <;> exact ⟨_, fun _ => rfl⟩
  rw [isPlain, hrest, List.all_cons, Bool.and_eq_true] at h ⊢
  exact ⟨isClean_bare h.1, h.2⟩

theorem isPlain_of_parenthesize {n : Node} (h : (n.parenthesize.setComment none).isPlain = true) :
    (n.setComment none).isPlain = true := by
  cases n with
  | binary info op left right parenthesized broken =>
    simp_all [parenthesize, setComment, isPlain_binary, isGarbled, comment?, Node.info]
  | _ => exact h

end Node

theorem Spells.setComment {n : Node} {g : Sign} (h : Spells n g) (c : Option Comment) :
    Spells (n.setComment c) g := by
  refine ⟨h.delimited, fun bytes t ht => ?_⟩
  obtain ⟨q, hq, hreads⟩ := h.reads bytes t ht
  exact ⟨q, ⟨by rw [Node.same_setComment, hq.same], hq.sign, hq.info⟩, hreads⟩

/-- An operation stays spellable with another comment, unless a regex follows it. -/
theorem Spellable.setComment {n : Node} {c : Option Comment} (h : Spellable .operation n)
    (hc : Remarked c) (hg : (n.setComment c).isGarbled = false) :
    Spellable .operation (n.setComment c) := by
  have hn : Remarked (n.setComment c).comment? := by
    rcases n.comment?_setComment c with he | he
    · rwa [he]
    · exact remarked_of_none he
  have hregex : (n.setComment c).leadsRegex false = true → (n.setComment c).comment? = none := by
    intro hl
    by_contra hne
    rw [Node.leadsRegex_of_isGarbled hg hne] at hl
    cases hl
  cases h with
  | literal hs hspells =>
    exact .literal (by rwa [Node.literalSign?_setComment]) (hspells.setComment c) hn hregex
  | name hi => exact .name ⟨hi.name, hc⟩
  | call _ hname ha => exact .call hc hname ha
  | unary _ ho => exact .unary hc ho
  | @binary info op left right parenthesized broken _ _ hl hr =>
    refine .binary hc (fun hsome => ?_) hl hr
    cases parenthesized with
    | true => exact .inl rfl
    | false =>
      have hsome : c.isSome = true := hsome
      simpa [Node.isGarbled, Node.setComment, Node.leadsRegex, Node.comment?, Node.info, hsome]
        using hg

/-- An operation stays spellable in parentheses, with another comment. -/
theorem Spellable.parenthesize {n : Node} {c : Option Comment} (h : Spellable .operation n)
    (hc : Remarked c) (hg : (n.parenthesize.setComment c).isGarbled = false) :
    Spellable .operation (n.parenthesize.setComment c) := by
  cases n with
  | binary =>
    cases h with
    | literal hs => cases hs
    | binary _ _ hl hr => exact .binary hc (fun _ => .inl rfl) hl hr
  | _ => exact h.setComment hc hg

/-! ## Whatever is read can be written -/

/-- A tree that can be written at a place if it is plain. -/
def Writable (place : Place) (n : Node) : Prop := n.isPlain = true → Spellable place n

/-- An operation that can be written with whatever comment it gets. Parentheses put a comment of
their own in place of the one that they enclose, so an operation may be spellable when the one
inside is not. -/
structure Utterable (n : Node) : Prop where
  remarked : Remarked n.comment?
  bare : Writable .operation (n.setComment none)

theorem Utterable.writable {n : Node} (h : Utterable n) : Writable .operation n := by
  intro hp
  have hbare := h.bare (Node.isPlain_bare (by rwa [Node.setComment_comment?]))
  have hn : (n.setComment none).setComment n.comment? = n := by simp
  rw [← hn]
  exact hbare.setComment h.remarked (by rw [hn]; exact Node.isGarbled_of_isPlain hp)

theorem Utterable.parens {n : Node} (h : Utterable n) {c : Option Comment} (hc : Remarked c) :
    Utterable (n.parenthesize.setComment c) := by
  refine ⟨?_, fun hp => ?_⟩
  · rcases n.parenthesize.comment?_setComment c with he | he
    · rwa [he]
    · exact remarked_of_none he
  · rw [Node.setComment_setComment] at hp ⊢
    have hn :
        (n.setComment none).parenthesize.setComment none = n.parenthesize.setComment none := by
      simp
    rw [← hn]
    refine (h.bare (Node.isPlain_of_parenthesize hp)).parenthesize (remarked_of_none rfl) ?_
    rw [hn]
    exact Node.isGarbled_of_isPlain hp

theorem utterable_literal {n : Node} {kind : TokenKind} (hc : Remarked n.comment?)
    (h : (n.setComment none).isPlain = true → Literally n kind) : Utterable n := by
  refine ⟨hc, fun hp => ?_⟩
  obtain ⟨g, hg, hs, -⟩ := h hp
  have hnone : (n.setComment none).comment? = none := by simpa using n.comment?_setComment none
  exact .literal (by rwa [Node.literalSign?_setComment]) (hs.setComment none)
    (remarked_of_none hnone) fun _ => hnone

section

variable {bytes : List UInt8} {t : Slot} {n : Node}

theorem Slot.Formed.isName (h : t.Formed) (hk : t.token.kind = .ident) :
    Sign.isName t.token.text.toList = true := by
  have hf := h.token
  simpa only [Token.Formed, hk] using hf

theorem Slot.Formed.identifier (h : t.Formed) (hk : t.token.kind = .ident) :
    Identifier.Spellable ⟨t.info bytes, t.token.text⟩ := ⟨h.isName hk, h.comment⟩

theorem string_of_stringOfText? {info : Info} {text : String}
    (hn : Node.stringOfText? info text = some n) :
    ∃ literal triple, n = .string info literal triple := by
  obtain ⟨⟨body, triple⟩, -, rfl⟩ := Option.map_eq_some_iff.1 hn
  exact ⟨_, _, rfl⟩

theorem Slot.Formed.string (h : t.Formed) (hk : t.token.kind = .string)
    (hn : Node.stringOfText? (t.info bytes) t.token.text = some n) :
    Remarked n.comment? ∧ ((n.setComment none).isPlain = true → Literally n .string) := by
  obtain ⟨literal, triple, rfl⟩ := string_of_stringOfText? hn
  refine ⟨h.comment, fun hp => literally_string h.token hk hn ?_⟩
  have hg := Node.isGarbled_of_isPlain hp
  cases triple with
  | true => exact hg
  | false => simp [Node.isGarbled, Node.leadsRegex]

theorem Slot.Formed.utterable_number (h : t.Formed) (hk : t.token.kind = .number) {v : Number}
    (hv : Number.ofText t.token.text = .ok v) : Utterable (.number (t.info bytes) v) := by
  refine utterable_literal h.comment fun hp => literally_number h.token hk hv ?_
  have hclean := Node.isClean_of_isPlain hp
  simp only [Node.isClean, Bool.and_eq_true, Bool.not_eq_true'] at hclean
  cases v with
  | int => rfl
  | float => exact hclean.1

theorem utterable_call {info : Info} {name : String} {args : List Node} {broken : Bool}
    (hc : Remarked info.comment) (hn : Sign.isName name.toList = true)
    (ha : ∀ a ∈ args, Writable .operation a) :
    Utterable (.func info .global name args broken) := by
  refine ⟨hc, fun hp => .call (remarked_of_none rfl) hn fun a hmem => ha a hmem ?_⟩
  rw [Node.setComment, Node.isPlain_func, List.all_eq_true] at hp
  exact hp a hmem

theorem utterable_unary {info : Info} {op : UnaryOp} (hc : Remarked info.comment)
    (hn : Utterable n) : Utterable (.unary info op n) := by
  refine ⟨hc, fun hp => .unary (remarked_of_none rfl) (hn.writable ?_)⟩
  rwa [Node.setComment, Node.isPlain_unary] at hp

theorem utterable_binary {info : Info} {op : BinaryOp} {left right : Node} {broken : Bool}
    (hc : Remarked info.comment) (hl : Utterable left) (hr : Utterable right) :
    Utterable (.binary info op left right false broken) := by
  refine ⟨hc, fun hp => ?_⟩
  rw [Node.setComment, Node.isPlain_binary] at hp
  simp only [Bool.and_eq_true] at hp
  exact .binary (remarked_of_none rfl) (by simp) (hl.writable hp.2.1) (hr.writable hp.2.2)

/-- At the beginning of an expression, an operation whose left operand needs no parentheses. -/
theorem writable_head_binary {info : Info} {op : BinaryOp} {left right : Node} {broken : Bool}
    (hc : Remarked info.comment) (hl : Writable .head left)
    (hloose : Node.looserLeft op.precedence left = false) (hr : Utterable right) :
    Writable .head (.binary info op left right false broken) := by
  intro hp
  have hg := Node.isGarbled_of_isPlain hp
  rw [Node.isPlain_binary] at hp
  simp only [Bool.and_eq_true] at hp
  refine .headBinary hc (fun hsome => ?_) ?_ (hr.writable hp.2.2)
  · simpa [Node.isGarbled, Node.leadsRegex, Node.comment?, Node.info, hsome] using hg
  · rw [hloose]
    exact hl hp.2.1

theorem spellable_all {ns : List Node} {place : Place} (h : ∀ n ∈ ns, Writable place n)
    (hp : ns.all Node.isPlain = true) : ∀ n ∈ ns, Spellable place n :=
  fun n hn => h n hn (List.all_eq_true.1 hp n hn)

theorem writable_literal_item {kind : TokenKind} (hk : kind = .string ∨ kind = .star)
    (hc : Remarked n.comment?) (h : n.isPlain = true → Literally n kind) : Writable .item n := by
  intro hp
  obtain ⟨g, hg, hs, rfl⟩ := h hp
  exact .itemLiteral hg hs hk hc

end

/-- Behind a run of operators stands nothing that goes on with it. -/
theorem Reads.climb_after {bytes : List UInt8} {least : Nat} {left n : Node}
    {comment left' : Option Comment} {before after : List Slot}
    (h : Reads bytes (.climb least left comment n) before after left') :
    ∃ t rest, after = t :: rest ∧ t.token.kind.joining? least = none := by
  generalize hph : Phrase.climb least left comment n = ph at h
  induction h generalizing left comment with
  | stop ht =>
    cases hph
    exact ⟨_, _, rfl, ht⟩
  | join _ _ _ _ _ _ _ ih =>
    cases hph
    exact ih rfl
  | _ => cases hph

/-- The operator behind the right operand of another does not bind more tightly than that one. -/
theorem Reads.looserLeft_after {bytes : List UInt8} {op op' : BinaryOp} {first right : Node}
    {comment left' : Option Comment} {before rest : List Slot} {t : Slot}
    (h : Reads bytes (.climb (op.precedence + 1) first comment right) before (t :: rest) left')
    (ht : t.token.kind = .binary op') {info : Info} {left : Node} {broken : Bool} :
    Node.looserLeft op'.precedence (.binary info op left right false broken) = false := by
  obtain ⟨u, us, hus, hjoin⟩ := h.climb_after
  obtain ⟨rfl, -⟩ := List.cons.inj hus
  simp only [Node.looserLeft, decide_eq_false_iff_not]
  intro hlt
  rw [ht, TokenKind.joining?_binary hlt] at hjoin
  cases hjoin

/-- The place of the elements of a list. -/
def ListSort.place : ListSort → Place
  | .operations => .operation
  | .expressions => .value
  | .items => .item

/-- What is read from the slots `before` can be written. -/
def Phrase.Written (before : List Slot) : Phrase → Prop
  | .operand n => Utterable n
  | .operation n => Utterable n
  | .climb _ left _ n =>
    (Utterable left → Utterable n) ∧
      (Writable .head left →
        (∀ t rest op, before = t :: rest → t.token.kind = .binary op →
          Node.looserLeft op.precedence left = false) →
        Writable .head n)
  | .item n => Writable .item n
  | .list sort ns => ∀ n ∈ ns, Writable sort.place n
  | .expression n => Writable .value n
  | .chain left _ n => Writable .base left → Writable .base n
  | .step op n => Writable (.step op) n
  | .call kind n =>
    ∃ info name args broken, n = .func info kind name args broken ∧ Remarked info.comment ∧
      Sign.isName name.toList = true ∧ ∀ a ∈ args, Writable .value a
  | .statement n => Writable .statement n
  | .statements comment ns =>
    Remarked comment → ∃ (ms : List Node) (cs : List Comment), ns = ms ++ cs.map .comment ∧
      (∀ m ∈ ms, Writable .statement m) ∧ ∀ c ∈ cs, c.Tidy

theorem ListSort.writable_of_element {sort : ListSort} {n : Node} {before : List Slot}
    (h : (sort.element n).Written before) : Writable sort.place n := by
  cases sort with
  | operations => exact Utterable.writable h
  | expressions => exact h
  | items => exact h

section

variable {before : List Slot} {n : Node}

theorem Phrase.Written.baseCall (h : (Phrase.call .global n).Written before) :
    Writable .base n := by
  obtain ⟨info, name, args, broken, rfl, hc, hname, ha⟩ := h
  exact fun hp => .baseCall hc hname (spellable_all ha (by simpa using hp))

theorem Phrase.Written.headCall (h : (Phrase.call .global n).Written before) :
    Writable .head n := by
  obtain ⟨info, name, args, broken, rfl, hc, hname, ha⟩ := h
  exact fun hp => .headCall hc hname (spellable_all ha (by simpa using hp))

theorem Phrase.Written.stepCall {op : ChainOp}
    (h : (Phrase.call (CallKind.ofChain op) n).Written before) :
    Writable (.step op) n := by
  obtain ⟨info, name, args, broken, rfl, hc, hname, ha⟩ := h
  exact fun hp => .stepCall hc hname (spellable_all ha (by simpa using hp))

/-- A statement before others; `left` is the comment that it leaves to them. -/
theorem Phrase.Written.more {ns : List Node} {left comment : Option Comment} {mid : List Slot}
    (hn : (Phrase.statement n).Written before) (hleft : Remarked left)
    (hns : (Phrase.statements left ns).Written mid) :
    (Phrase.statements comment (n :: ns)).Written before := by
  intro _
  obtain ⟨ms, cs, rfl, hms, hcs⟩ := hns hleft
  refine ⟨n :: ms, cs, rfl, ?_, hcs⟩
  rw [List.forall_mem_cons]
  exact ⟨hn, hms⟩

end

/-- **Whatever the grammar reads can be written**, if it is plain. -/
theorem Reads.written {bytes : List UInt8} {ph : Phrase} {before after : List Slot}
    {left : Option Comment} (h : Reads bytes ph before after left)
    (hb : ∀ t ∈ before, t.Formed) : ph.Written before := by
  -- By induction on what is read. A run of operators and a chain are read behind a left operand,
  -- so what is known of them is an implication from it.
  induction h with
  | paren _ _ _ ih =>
    rw [List.forall_mem_cons] at hb
    exact Utterable.parens (ih hb.2) hb.1.comment
  | @number t rest v ht hv => exact (hb t (by simp)).utterable_number ht hv
  | @string t rest n ht hn =>
    have hs := (hb t (by simp)).string ht hn
    exact utterable_literal hs.1 hs.2
  | @bool t rest value ht =>
    have hf := hb t (by simp)
    exact utterable_literal hf.comment fun _ => ⟨_, rfl, spells_bool, rfl⟩
  | @duration t rest n ht hn =>
    have hf := hb t (by simp)
    obtain ⟨hinfo, hliteral⟩ := literally_duration hf.token ht hn
    exact utterable_literal (by rw [Node.comment?, hinfo]; exact hf.comment) fun _ => hliteral
  | @regex t rest n ht hn =>
    have hf := hb t (by simp)
    obtain ⟨hinfo, hliteral⟩ := literally_regex hf.token ht hn
    exact utterable_literal (by rw [Node.comment?, hinfo]; exact hf.comment) fun _ => hliteral
  | @star t rest ht =>
    have hf := hb t (by simp)
    exact utterable_literal hf.comment fun _ => ⟨_, rfl, spells_star, rfl⟩
  | @reference t rest ht =>
    have hf := hb t (by simp)
    exact utterable_literal hf.comment fun _ => literally_reference hf.token ht
  | @name t b rest ht =>
    have hf := hb t (by simp)
    exact ⟨hf.comment, fun _ => .name ⟨hf.isName ht, remarked_of_none rfl⟩⟩
  | @applied t o c mid rest args ht _ _ _ ih =>
    simp only [List.forall_mem_cons] at hb
    exact utterable_call (remarked_of_none rfl) (hb.1.isName ht) (ih hb.2.2)
  | unary _ hn ih =>
    rw [List.forall_mem_cons] at hb
    have hleft := hn.forall_mem_left rfl (remarked_of_none rfl)
      (fun t ht => (hb.2 t ht).comment) (remarked_of_none rfl)
    exact utterable_unary hleft (ih hb.2)
  | operation hf _ ihf ihn => exact (ihn (hf.forall_mem_after rfl hb)).1 (ihf hb)
  | stop => exact ⟨id, fun h _ => h⟩
  | @join t toks mid₁ mid₂ rest least op left first right n _ _ _ _ ht _ hf hr hn ihf ihr ihn =>
    rw [List.forall_mem_cons] at hb
    have hmid₁ := hf.forall_mem_after rfl hb.2
    have hright : Utterable right := (ihr hmid₁).1 (ihf hb.2)
    obtain ⟨ih₁, ih₂⟩ := ihn (hr.forall_mem_after rfl hmid₁)
    refine ⟨fun hl => ih₁ (utterable_binary hb.1.comment hl hright), fun hl hnext => ?_⟩
    refine ih₂ (writable_head_binary hb.1.comment hl (hnext t toks op rfl ht) hright) ?_
    rintro t' rest' op' rfl ht'
    exact hr.looserLeft_after ht'
  | @itemName t rest ht => exact fun _ => .itemName ((hb t (by simp)).identifier ht)
  | @itemString t rest n ht hn =>
    have hs := (hb t (by simp)).string ht hn
    exact writable_literal_item (.inl rfl) hs.1 fun hp =>
      hs.2 (Node.isPlain_bare (by rwa [Node.setComment_comment?]))
  | @itemStar t rest ht =>
    have hf := hb t (by simp)
    exact writable_literal_item (.inr rfl) hf.comment fun _ => ⟨_, rfl, spells_star, rfl⟩
  | listEnd =>
    intro n hn
    simp at hn
  | listLast _ _ _ ih =>
    intro m hm
    obtain rfl := List.mem_singleton.1 hm
    exact ListSort.writable_of_element (ih hb)
  | @listMore a t toks mid rest sort n ns _ _ hn _ _ ih ihs =>
    have hmid := hn.forall_mem_after (ListSort.isWhole_element _ _) hb
    intro m hm
    rcases List.mem_cons.1 hm with rfl | hm
    · exact ListSort.writable_of_element (ih hb)
    · exact ihs (fun t ht => hmid t (by simp [ht])) m hm
  | lambda _ _ ih =>
    rw [List.forall_mem_cons] at hb
    exact fun hp => .lambda hb.1.comment ((ih hb.2).writable (by simpa using hp))
  | bracket _ _ _ ih =>
    rw [List.forall_mem_cons] at hb
    exact fun hp => .list hb.1.comment (spellable_all (ih hb.2) (by simpa using hp))
  | unnamed _ _ _ _ ih | named _ _ _ _ ih => exact fun hp => .operation ((ih hb).writable hp).head
  | @chained t b toks rest n _ ht _ _ ih =>
    rw [List.forall_mem_cons] at hb
    exact fun hp => (ih hb.2 (fun _ => .baseName (hb.1.identifier ht)) hp).value_of_base
  | callChained _ _ hf _ _ ihf ihn =>
    have hn := ihn (hf.forall_mem_after rfl hb) (ihf hb).baseCall
    exact fun hp => (hn hp).value_of_base
  | callJoined _ _ hf _ _ ihf ihn =>
    obtain ⟨info, name, args, broken, rfl, -⟩ := ihf hb
    -- A call in front of an operator needs no parentheses, however tightly the operator binds.
    have hn := (ihn (hf.forall_mem_after rfl hb)).2 (ihf hb).headCall fun _ _ _ _ _ => rfl
    exact fun hp => .operation (hn hp)
  | chainEnd => exact id
  | chainStep _ hr _ ihr ihn =>
    rw [List.forall_mem_cons] at hb
    refine fun hl => ihn (hr.forall_mem_after rfl hb.2) fun hp => ?_
    rw [Node.isPlain_chain, Bool.and_eq_true] at hp
    exact .baseChain hb.1.comment (hl hp.1) (ihr hb.2 hp.2)
  | stepCall _ _ ih => exact (ih hb).stepCall
  | @stepName t b toks op ho ht => exact fun _ => .stepName ho ((hb t (by simp)).identifier ht)
  | @function t o c mid rest kind args ht _ _ _ ih =>
    simp only [List.forall_mem_cons] at hb
    exact ⟨_, _, _, _, rfl, hb.1.comment, hb.1.isName ht, ih hb.2.2⟩
  | declare _ hi _ _ ih =>
    simp only [List.forall_mem_cons] at hb
    exact fun hp => .declaration hb.1.comment (hb.2.1.identifier hi)
      (ih hb.2.2.2 (by simpa using hp))
  | declareType _ hi hy =>
    simp only [List.forall_mem_cons] at hb
    exact fun _ => .typeDeclaration hb.1.comment (hb.2.1.identifier hi) (hb.2.2.1.identifier hy)
  | express _ _ ih => exact fun hp => .express (ih hb hp)
  | @done t rest left ht =>
    intro hleft
    refine ⟨[], left.toList ++ t.comment.toList, rfl, by simp, fun c hc => ?_⟩
    rcases List.mem_append.1 hc with hc | hc
    · exact hleft c (Option.mem_toList.1 hc)
    · exact (hb t (by simp)).comment c (Option.mem_toList.1 hc)
  | @more t toks mid rest n ns _ _ _ _ hn _ ih ihs =>
    have hleft := hn.forall_mem_left rfl (remarked_of_none rfl)
      (fun t ht => (hb t ht).comment) (remarked_of_none rfl)
    exact Phrase.Written.more (ih hb) hleft (ihs (hn.forall_mem_after rfl hb))

/-! ## Scripts are read back -/

namespace Node

/-- No node of a tree is a number that is too large for a binary64 value. -/
def isBounded (n : Node) : Bool := n.preorder.all fun m => !m.overflows

/-- The number of comments among some statements. -/
def remarkCount (ns : List Node) : Nat := ns.countP fun n => n.kind == .comment

/-- Whether the canonical text of a program is scanned and divided as it was written: no node is
garbled, no statement goes on with the one before it, at most one comment stands behind the
statements, and the scanner arrives at every sign in a mode that suits it. -/
def isLegible : Node → Bool
  | .program _ ns =>
    (preorderAll ns).all (fun n => !n.isGarbled) && keptApart ns && decide (remarkCount ns ≤ 1) &&
      Placed .operand (statementPieces [] true ns)
  | _ => false

theorem keptApart_of_append {ns ms : List Node} (h : keptApart (ns ++ ms) = true) :
    keptApart ns = true := by
  induction ns with
  | nil => rfl
  | cons n ns ih =>
    cases ns with
    | nil => rfl
    | cons m ns =>
      rw [List.cons_append, List.cons_append, keptApart, Bool.and_eq_true] at h
      rw [keptApart, h.1, ih h.2]
      rfl

theorem length_le_remarkCount (ms : List Node) (cs : List Comment) :
    cs.length ≤ remarkCount (ms ++ cs.map .comment) := by
  have hcs : remarkCount (cs.map .comment) = cs.length := by
    rw [remarkCount, List.countP_map, List.countP_eq_length]
    intro c _
    rfl
  rw [remarkCount, List.countP_append, ← hcs]
  exact Nat.le_add_left _ _

end Node

theorem Node.isPlain_of_mem {ns : List Node}
    (hb : (Node.preorderAll ns).all (fun n => !n.overflows) = true)
    (hg : (Node.preorderAll ns).all (fun n => !n.isGarbled) = true) {n : Node} (hn : n ∈ ns) :
    n.isPlain = true := by
  rw [Node.all_preorderAll, List.all_eq_true] at hb hg
  have hb := List.all_eq_true.1 (hb n hn)
  have hg := List.all_eq_true.1 (hg n hn)
  rw [Node.isPlain, List.all_eq_true]
  intro m hm
  rw [Node.isClean, hb m hm, hg m hm]
  rfl

theorem eq_toList_of_length_le_one {cs : List Comment} (h : cs.length ≤ 1) :
    ∃ c : Option Comment, cs = c.toList := by
  match cs with
  | [] => exact ⟨none, rfl⟩
  | [c] => exact ⟨some c, rfl⟩
  | _ :: _ :: _ => simp at h

/-- The statements of a script whose canonical text is legible, and the comment behind them, are
such that they are read back. -/
theorem legible_of_parse {source : String} {p : Node} (h : parse source = .ok p)
    (hb : p.isBounded = true) (hl : p.isLegible = true) :
    ∃ position ns trailing, p = .program position (Node.withTrailing ns trailing) ∧
      (∀ n ∈ ns, Spellable .statement n) ∧ Node.keptApart ns = true ∧ Remarked trailing ∧
      Placed .operand (Node.statementPieces [] true (Node.withTrailing ns trailing)) = true := by
  obtain ⟨ns, after, left, rfl, hreads⟩ := reads_of_parse h
  obtain ⟨ms, cs, rfl, hms, hcs⟩ :=
    hreads.written (fun t => formed_of_mem_slotsIn) (remarked_of_none rfl)
  simp only [Node.isLegible, Bool.and_eq_true, decide_eq_true_eq] at hl
  obtain ⟨⟨⟨hg, ha⟩, hone⟩, hp⟩ := hl
  rw [Node.isBounded, Node.preorder, List.all_cons, Bool.and_eq_true] at hb
  obtain ⟨trailing, rfl⟩ :=
    eq_toList_of_length_le_one (Nat.le_trans (Node.length_le_remarkCount ms cs) hone)
  refine ⟨_, ms, trailing, rfl, fun m hm => ?_, Node.keptApart_of_append ha, ?_, hp⟩
  · exact hms m hm (Node.isPlain_of_mem hb.2 hg (by simp [hm]))
  · intro c hc
    exact hcs c (by simp [hc])

/-- **A script is read back from its canonical text**, if no number is too large and the text is
legible: what is parsed from the text has the meaning of what was written. -/
theorem parse_render_of_legible {source : String} {p : Node} (h : parse source = .ok p)
    (hb : p.isBounded = true) (hl : p.isLegible = true) :
    ∃ q, parse p.render = .ok q ∧ q.same p = true := by
  obtain ⟨position, ns, trailing, rfl, hs, ha, ht, hp⟩ := legible_of_parse h hb hl
  exact parse_render_statements hs ha ht hp

end

open scoped PatternEngine

/-- A script with a comment, a chain, and an operation that keeps its parentheses. -/
theorem parse_render_of_legible_chain :
    ∃ p q, parse
        "stream\n  // only errors\n  |where(lambda: \"level\" == 'e' AND (\"n\" + 1) * 2.50 > 3)" =
        .ok p ∧
      p.isBounded = true ∧ p.isLegible = true ∧ parse p.render = .ok q ∧ q.same p = true := by
  obtain ⟨p, hparse, hp⟩ := exists_ok_of_any (x := parse
      "stream\n  // only errors\n  |where(lambda: \"level\" == 'e' AND (\"n\" + 1) * 2.50 > 3)")
    (P := fun p => p.isBounded && p.isLegible) (by decide +kernel)
  rw [Bool.and_eq_true] at hp
  obtain ⟨q, hq⟩ := parse_render_of_legible hparse hp.1 hp.2
  exact ⟨p, q, hparse, hp.1, hp.2, hq⟩

/-- A regex in parentheses is written without them. The scanner expects an operand behind a regex,
and finds an operator in the canonical text. -/
theorem parse_render_regex_in_parens :
    ∃ p, parse "var x = (/x/) == b" = .ok p ∧ p.isBounded = true ∧
      p.render = "var x = /x/ == b\n" ∧ ∀ q, parse p.render ≠ .ok q := by
  obtain ⟨p, hparse, hp⟩ := exists_ok_of_any (x := parse "var x = (/x/) == b")
    (P := fun p => p.isBounded && p.render == "var x = /x/ == b\n" && !(parse p.render).isOk)
    (by decide +kernel)
  simp only [Bool.and_eq_true, beq_iff_eq, Bool.not_eq_true'] at hp
  refine ⟨p, hparse, hp.1.1, hp.1.2, fun q hq => ?_⟩
  rw [hq] at hp
  cases hp.2

end PipelineScript

import PipelineScript.Proofs.Parsed

/-!
What parsed trees look like.

A node of a parsed tree plays one of a few parts, and `Shaped part n` says which trees can play it:
a chain has a call or a name behind its operator, lambdas and lists stand only where an expression
may, and every number and duration is in the range that the text of a script can spell. Trees that
are built and trees that are decoded are checked for some of this; the parser makes its nodes
without a check, and `shape_of_parse` says that it needs none.
-/
namespace PipelineScript

section

variable {engine : PatternEngine}

/-- The parts that a node can play in a program. -/
inductive Part where
  /-- What operators join. -/
  | operand
  /-- A value, an argument, or a statement that declares nothing. -/
  | expression
  /-- What stands left of a chain operator. -/
  | base
  /-- What stands right of a chain operator. -/
  | step (op : ChainOp)
  | call (kind : CallKind)
  /-- An element of a list in brackets. -/
  | item
  | statement
deriving DecidableEq

/-- The trees that can play a part. -/
inductive Shaped : Part → Node → Prop where
  | int {info : Info} {value : Int64} {base : UInt32} (nonneg : 0 ≤ value.toInt)
      (spelled : base = 8 ∨ base = 10) : Shaped .operand (.number info (.int value base))
  | float {info : Info} {value : Binary64} : Shaped .operand (.number info (.float value))
  | duration {info : Info} {span : Duration} {literal : String}
      (bounded : span.nanos ≤ Duration.limit) : Shaped .operand (.duration info span literal)
  | bool {info : Info} {value : Bool} : Shaped .operand (.bool info value)
  | string {info : Info} {literal : String} {triple : Bool} :
      Shaped .operand (.string info literal triple)
  | regex {info : Info} {pattern : Pattern} {literal : String} :
      Shaped .operand (.regex info pattern literal)
  | reference {info : Info} {name : String} : Shaped .operand (.reference info name)
  | star {info : Info} : Shaped .operand (.star info)
  | name {ident : Identifier} : Shaped .operand (.identifier ident)
  | operandCall {n : Node} (h : Shaped (.call .global) n) : Shaped .operand n
  | unary {info : Info} {op : UnaryOp} {n : Node} (h : Shaped .operand n) :
      Shaped .operand (.unary info op n)
  | binary {info : Info} {op : BinaryOp} {left right : Node} {parenthesized broken : Bool}
      (hl : Shaped .operand left) (hr : Shaped .operand right) :
      Shaped .operand (.binary info op left right parenthesized broken)
  | call {info : Info} {kind : CallKind} {name : String} {args : List Node} {broken : Bool}
      (h : ∀ a ∈ args, Shaped .expression a) :
      Shaped (.call kind) (.func info kind name args broken)
  | operation {n : Node} (h : Shaped .operand n) : Shaped .expression n
  | chained {n : Node} (h : Shaped .base n) : Shaped .expression n
  | lambda {info : Info} {n : Node} (h : Shaped .operand n) : Shaped .expression (.lambda info n)
  | list {info : Info} {items : List Node} (h : ∀ a ∈ items, Shaped .item a) :
      Shaped .expression (.list info items)
  | baseName {ident : Identifier} : Shaped .base (.identifier ident)
  | baseCall {n : Node} (h : Shaped (.call .global) n) : Shaped .base n
  | chain {info : Info} {op : ChainOp} {left right : Node} (hl : Shaped .base left)
      (hr : Shaped (.step op) right) : Shaped .base (.chain info op left right)
  | stepCall {op : ChainOp} {n : Node} (h : Shaped (.call (.ofChain op)) n) : Shaped (.step op) n
  | stepName {op : ChainOp} {ident : Identifier} (h : op = .dot ∨ op = .dynamic) :
      Shaped (.step op) (.identifier ident)
  | itemName {ident : Identifier} : Shaped .item (.identifier ident)
  | itemString {info : Info} {literal : String} {triple : Bool} :
      Shaped .item (.string info literal triple)
  | itemStar {info : Info} : Shaped .item (.star info)
  | declaration {info : Info} {name : Identifier} {value : Node} (h : Shaped .expression value) :
      Shaped .statement (.declaration info name value)
  | typeDeclaration {info : Info} {name type : Identifier} :
      Shaped .statement (.typeDeclaration info name type)
  | express {n : Node} (h : Shaped .expression n) : Shaped .statement n

/-! ## Literals -/

section

variable {info : Info} {t : Token} {text : String} {n : Node}

theorem shaped_number (hf : t.Formed) (hk : t.kind = .number) {v : Number}
    (hv : Number.ofText t.text = .ok v) : Shaped .operand (.number info v) := by
  rcases number_of_ofText hf hk hv with ⟨value, base, rfl, hvalue, hbase⟩ | ⟨d, rfl⟩
  · exact .int hvalue hbase
  · exact .float

theorem shaped_string (h : Node.stringOfText? info text = some n) :
    Shaped .operand n ∧ Shaped .item n := by
  obtain ⟨⟨body, triple⟩, -, rfl⟩ := Option.map_eq_some_iff.1 h
  exact ⟨.string, .itemString⟩

theorem shaped_duration (h : Node.durationOfText info text = .ok n) : Shaped .operand n := by
  obtain ⟨span, hspan, rfl⟩ := Node.durationOfText_eq_ok_iff.1 h
  exact .duration (Duration.le_limit_of_parse hspan)

theorem shaped_regex (h : Node.regexOfText info text = .ok n) : Shaped .operand n := by
  obtain ⟨_, -, rfl⟩ := Node.regexOfText_eq_ok_iff.1 h
  exact .regex

end

/-- Parentheses and the comment before them make no other shape. -/
theorem Shaped.enclose {n : Node} (h : Shaped .operand n) (c : Option Comment) :
    Shaped .operand (n.parenthesize.setComment c) := by
  cases h with
  | int hv hb => exact .int hv hb
  | float => exact .float
  | duration hd => exact .duration hd
  | bool => exact .bool
  | string => exact .string
  | regex => exact .regex
  | reference => exact .reference
  | star => exact .star
  | name => exact .name
  | operandCall h =>
    cases h with
    | call ha => exact .operandCall (.call ha)
  | unary h => exact .unary h
  | binary hl hr => exact .binary hl hr

/-! ## One shape for each phrase -/

/-- The part that an element of a list plays. -/
def ListSort.part : ListSort → Part
  | .operations => .operand
  | .expressions => .expression
  | .items => .item

/-- What the grammar makes of a phrase has its shape. Operators and chains are joined to a tree
that is there already. -/
def Phrase.IsShaped : Phrase → Prop
  | .operand n => Shaped .operand n
  | .operation n => Shaped .operand n
  | .climb _ left _ n => Shaped .operand left → Shaped .operand n
  | .item n => Shaped .item n
  | .list sort ns => ∀ n ∈ ns, Shaped sort.part n
  | .expression n => Shaped .expression n
  | .chain left _ n => Shaped .base left → Shaped .base n
  | .step op n => Shaped (.step op) n
  | .call kind n => Shaped (.call kind) n
  | .statement n => Shaped .statement n
  | .statements _ ns => ∃ (ms : List Node) (cs : List Comment), ns = ms ++ cs.map .comment ∧
      (∀ m ∈ ms, Shaped .statement m) ∧ cs.length ≤ 2

theorem ListSort.shaped_of_element {sort : ListSort} {n : Node} (h : (sort.element n).IsShaped) :
    Shaped sort.part n := by
  cases sort <;> exact h

/-- **Whatever the grammar reads has the shape of its phrase.** -/
theorem Reads.shaped {bytes : List UInt8} {ph : Phrase} {before after : List Slot}
    {left : Option Comment} (h : Reads bytes ph before after left)
    (hb : ∀ t ∈ before, t.token.Formed) : ph.IsShaped := by
  induction h with
  | paren _ _ _ ih => exact Shaped.enclose (ih (List.forall_mem_cons.1 hb).2) _
  | @number t _ _ ht hv => exact shaped_number (hb t (by simp)) ht hv
  | string _ hn => exact (shaped_string hn).1
  | bool => exact .bool
  | duration _ hn => exact shaped_duration hn
  | regex _ hn => exact shaped_regex hn
  | star => exact .star
  | reference => exact .reference
  | name => exact .name
  | applied _ _ _ _ ih =>
    simp only [List.forall_mem_cons] at hb
    exact .operandCall (.call fun a ha => .operation (ih hb.2.2 a ha))
  | unary _ _ ih => exact .unary (ih (List.forall_mem_cons.1 hb).2)
  | operation hf _ ihf ihn => exact ihn (hf.forall_mem_after rfl hb) (ihf hb)
  | stop | chainEnd => exact id
  | join _ _ hf hr _ ihf ihr ihn =>
    rw [List.forall_mem_cons] at hb
    have hmid := hf.forall_mem_after rfl hb.2
    have hright := ihr hmid (ihf hb.2)
    exact fun hleft => ihn (hr.forall_mem_after rfl hmid) (.binary hleft hright)
  | itemName => exact .itemName
  | itemString _ hn => exact (shaped_string hn).2
  | itemStar => exact .itemStar
  | listEnd => simp [Phrase.IsShaped]
  | listLast _ _ _ ih =>
    intro m hm
    obtain rfl := List.mem_singleton.1 hm
    exact ListSort.shaped_of_element (ih hb)
  | listMore _ hn _ _ ih ihs =>
    have hmid := hn.forall_mem_after (ListSort.isWhole_element _ _) hb
    rw [List.forall_mem_cons] at hmid
    exact List.forall_mem_cons.2 ⟨ListSort.shaped_of_element (ih hb), ihs hmid.2⟩
  | lambda _ _ ih => exact .lambda (ih (List.forall_mem_cons.1 hb).2)
  | bracket _ _ _ ih => exact .list (ih (List.forall_mem_cons.1 hb).2)
  | unnamed _ _ _ _ ih | named _ _ _ _ ih => exact .operation (ih hb)
  | chained _ _ _ ih => exact .chained (ih (List.forall_mem_cons.1 hb).2 .baseName)
  | callChained _ _ hf _ _ ihf ihn =>
    exact .chained (ihn (hf.forall_mem_after rfl hb) (.baseCall (ihf hb)))
  | callJoined _ _ hf _ _ ihf ihn =>
    exact .operation (ihn (hf.forall_mem_after rfl hb) (.operandCall (ihf hb)))
  | chainStep _ hr _ ihr ihn =>
    rw [List.forall_mem_cons] at hb
    exact fun hleft => ihn (hr.forall_mem_after rfl hb.2) (.chain hleft (ihr hb.2))
  | stepCall _ _ ih => exact .stepCall (ih hb)
  | @stepName _ _ _ op ho =>
    cases op with
    | dot => exact .stepName (.inl rfl)
    | pipe => contradiction
    | dynamic => exact .stepName (.inr rfl)
  | function _ _ _ _ ih =>
    simp only [List.forall_mem_cons] at hb
    exact .call (ih hb.2.2)
  | declare _ _ _ _ ih =>
    simp only [List.forall_mem_cons] at hb
    exact .declaration (ih hb.2.2.2)
  | declareType => exact .typeDeclaration
  | express _ _ ih => exact .express (ih hb)
  | @done t _ left =>
    refine ⟨[], left.toList ++ t.comment.toList, rfl, by simp, ?_⟩
    cases left <;> cases t.comment <;> simp
  | more _ hn _ ih ihs =>
    obtain ⟨ms, cs, rfl, hms, hcs⟩ := ihs (hn.forall_mem_after rfl hb)
    exact ⟨_ :: ms, cs, rfl, List.forall_mem_cons.2 ⟨ih hb, hms⟩, hcs⟩

/-- **The shape of parsed programs**: statements, and at most two comments behind them. -/
theorem shape_of_parse {source : String} {p : Node} (h : parse source = .ok p) :
    ∃ (position : Position) (statements : List Node) (comments : List Comment),
      p = .program position (statements ++ comments.map .comment) ∧
      (∀ n ∈ statements, Shaped .statement n) ∧ comments.length ≤ 2 := by
  obtain ⟨ns, after, left, rfl, hreads⟩ := reads_of_parse h
  obtain ⟨ms, cs, rfl, hms, hcs⟩ :=
    hreads.shaped fun t ht => (formed_of_mem_slotsIn ht).token
  exact ⟨_, ms, cs, rfl, hms, hcs⟩

end

open scoped PatternEngine

/-- A script with a lambda, chains in an argument, a list, and two comments that no node takes. -/
theorem shape_of_parse_chain :
    ∃ p, parse
        "var d = lambda: 017 + -5m < \"v\"\nx.p|f(['s', *, i], x@g(1))\n.h(2 // c\n) // end" =
          .ok p ∧
      ∃ (position : Position) (statements : List Node) (comments : List Comment),
        p = .program position (statements ++ comments.map .comment) ∧
        (∀ n ∈ statements, Shaped .statement n) ∧ comments.length ≤ 2 := by
  obtain ⟨p, hparse, -⟩ := exists_ok_of_any (x := parse
    "var d = lambda: 017 + -5m < \"v\"\nx.p|f(['s', *, i], x@g(1))\n.h(2 // c\n) // end")
    (P := fun _ => true) (by decide +kernel)
  exact ⟨p, hparse, shape_of_parse hparse⟩

end PipelineScript

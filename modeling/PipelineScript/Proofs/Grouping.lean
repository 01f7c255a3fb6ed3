import PipelineScript.Proofs.Children
import PipelineScript.Proofs.LambdaBody

/-!
How operations nest in a parsed tree.

An operator takes an operation as its operand if that one binds tightly enough or stands in
parentheses, and a unary operator takes one in parentheses only. So whoever writes a parsed tree
puts no parentheses around an operation but those that it was read with (`grouping_of_parse`).

The left operand of an operator is what has been joined before it. It binds tightly enough because
everything that goes on with the last right operand has been read into that operand: the operator
that comes next binds no more tightly than the last one. So the induction carries a condition on
the token behind a tree, `Fits`, besides the one on the tree itself.
-/
namespace PipelineScript

section

variable {engine : PatternEngine}

namespace Node

variable {n : Node} {least : Nat}

/-- A node that an operator takes as it stands where operators of the strength `least` are read: if
it is an operation, it is in parentheses or its operator binds at least as tightly. -/
def Binds (least : Nat) : Node → Prop
  | .binary _ op _ _ parenthesized _ => parenthesized = true ∨ least ≤ op.precedence
  | _ => True

/-- A node that is an operation only in parentheses. -/
def IsClosed : Node → Prop
  | .binary _ _ _ _ parenthesized _ => parenthesized = true
  | _ => True

/-- The operands of a node bind as tightly as its operator demands. Operators of one strength
associate to the left, so a right operand binds more tightly. -/
def Grouped : Node → Prop
  | .binary _ op left right _ _ => left.Binds op.precedence ∧ right.Binds (op.precedence + 1)
  | .unary _ _ operand => operand.IsClosed
  | _ => True

/-- A writer that demands parentheses around the operands of a node adds none: the text of each
operand is the one that it has where nothing is demanded. -/
def SparesParens : Node → Prop
  | .binary _ op left right _ _ => ∀ indent fresh,
    renderIn indent fresh (looserLeft op.precedence left) left = renderIn indent fresh false left ∧
      renderIn indent fresh (looserRight op.precedence right) right =
        renderIn indent fresh false right
  | .unary _ _ operand => ∀ indent fresh,
    renderIn indent fresh operand.isBinary operand = renderIn indent fresh false operand
  | _ => True

/-- All nodes of a tree have operands that bind as tightly as they should. -/
def Grouping (n : Node) : Prop := ∀ m ∈ n.preorder, m.Grouped

theorem IsClosed.binds (h : n.IsClosed) (least : Nat) : n.Binds least := by
  cases n with
  | binary => exact .inl h
  | _ => trivial

theorem IsClosed.renderIn_isBinary (h : n.IsClosed) (indent : List Char) (fresh : Bool) :
    renderIn indent fresh n.isBinary n = renderIn indent fresh false n := by
  cases n with
  | binary =>
    obtain rfl : _ = true := h
    simp only [renderIn, Bool.or_true]
  | _ => rfl

theorem Binds.renderIn_looserLeft (h : n.Binds least) (indent : List Char) (fresh : Bool) :
    renderIn indent fresh (looserLeft least n) n = renderIn indent fresh false n := by
  cases n with
  | binary =>
    rcases h with rfl | hle
    · simp only [renderIn, Bool.or_true]
    · rw [looserLeft, decide_eq_false (Nat.not_lt_of_le hle)]
  | _ => rfl

theorem Binds.renderIn_looserRight (h : n.Binds (least + 1)) (indent : List Char) (fresh : Bool) :
    renderIn indent fresh (looserRight least n) n = renderIn indent fresh false n := by
  cases n with
  | binary =>
    rcases h with rfl | hlt
    · simp only [renderIn, Bool.or_true]
    · rw [looserRight, decide_eq_false (Nat.not_le_of_lt hlt)]
  | _ => rfl

theorem Grouped.sparesParens (h : n.Grouped) : n.SparesParens := by
  cases n with
  | binary =>
    exact fun indent fresh =>
      ⟨h.1.renderIn_looserLeft indent fresh, h.2.renderIn_looserRight indent fresh⟩
  | unary => exact fun indent fresh => IsClosed.renderIn_isBinary h indent fresh
  | _ => trivial

/-! ## Trees and their parts -/

theorem grouping_iff :
    n.Grouping ↔ n.Grouped ∧ ∀ c ∈ n.children.map Child.node, c.Grouping := by
  simp only [Grouping, preorder_eq n, List.forall_mem_cons, List.forall_mem_flatMap]

theorem grouping_leaf (h : n.children = []) (hg : n.Grouped) : n.Grouping :=
  grouping_iff.2 ⟨hg, by simp [h]⟩

theorem grouping_name (ident : Identifier) : (Node.identifier ident).Grouping :=
  grouping_leaf rfl trivial

/-- A node with one child. -/
theorem grouping_one {c : Node} (hc : n.children.map Child.node = [c]) (hg : n.Grouped)
    (h : c.Grouping) : n.Grouping :=
  grouping_iff.2 ⟨hg, hc ▸ List.forall_mem_singleton.2 h⟩

/-- A node with two children. -/
theorem grouping_two {c d : Node} (hc : n.children.map Child.node = [c, d]) (hg : n.Grouped)
    (h : c.Grouping) (h' : d.Grouping) : n.Grouping :=
  grouping_iff.2 ⟨hg, hc ▸ List.forall_mem_cons.2 ⟨h, List.forall_mem_singleton.2 h'⟩⟩

/-- A node with a list of children. -/
theorem grouping_many {ns : List Node} (hc : n.children = ns.map .any) (hg : n.Grouped)
    (h : ∀ c ∈ ns, c.Grouping) : n.Grouping :=
  grouping_iff.2 ⟨hg, by rwa [hc, map_node_any]⟩

/-- Parentheses and the comment before them change nothing below an operation. -/
theorem Grouping.enclose (h : n.Grouping) (c : Option Comment) :
    (n.parenthesize.setComment c).Grouping ∧ (n.parenthesize.setComment c).IsClosed := by
  rw [grouping_iff] at h ⊢
  cases n with
  | binary => exact ⟨h, rfl⟩
  | _ => exact ⟨h, trivial⟩

theorem grouping_of_stringOfText? {info : Info} {text : String}
    (h : stringOfText? info text = some n) : n.Grouping ∧ n.IsClosed := by
  obtain ⟨_, _, rfl⟩ := Option.map_eq_some_iff.1 h
  exact ⟨grouping_leaf rfl trivial, trivial⟩

theorem grouping_of_durationOfText {info : Info} {text : String}
    (h : durationOfText info text = .ok n) : n.Grouping ∧ n.IsClosed := by
  obtain ⟨_, -, rfl⟩ := durationOfText_eq_ok_iff.1 h
  exact ⟨grouping_leaf rfl trivial, trivial⟩

theorem grouping_of_regexOfText {info : Info} {text : String}
    (h : regexOfText info text = .ok n) : n.Grouping ∧ n.IsClosed := by
  obtain ⟨_, -, rfl⟩ := regexOfText_eq_ok_iff.1 h
  exact ⟨grouping_leaf rfl trivial, trivial⟩

/-- A node that the operator behind it may take as its left operand. -/
def Fits (n : Node) (behind : List Slot) : Prop :=
  ∀ t rest op, behind = t :: rest → t.token.kind = .binary op → n.Binds op.precedence

theorem IsClosed.fits (h : n.IsClosed) (behind : List Slot) : n.Fits behind :=
  fun _ _ op _ _ => h.binds op.precedence

end Node

/-! ## One condition for each phrase -/

/-- What the grammar makes of a phrase is grouped, if what is joined to it is. -/
def Phrase.IsGrouped (before : List Slot) : Phrase → Prop
  | .operand n => n.Grouping ∧ n.IsClosed
  | .operation n => n.Grouping
  | .climb least left _ n => left.Grouping → left.Fits before →
    n.Grouping ∧ (left.Binds least → n.Binds least)
  | .item n => n.Grouping
  | .list _ ns => ∀ n ∈ ns, n.Grouping
  | .expression n => n.Grouping
  | .chain left _ n => left.Grouping → n.Grouping
  | .step _ n => n.Grouping
  | .call _ n => n.Grouping ∧ n.IsClosed
  | .statement n => n.Grouping
  | .statements _ ns => ∀ n ∈ ns, n.Grouping

theorem ListSort.grouping_of_element {sort : ListSort} {n : Node} {before : List Slot}
    (h : (sort.element n).IsGrouped before) : n.Grouping := by
  cases sort <;> exact h

/-- Behind the right operand of an operator stands no operator that binds more tightly, so the
operation is what the next operator may take. -/
theorem Reads.fits_joined {bytes : List UInt8} {before after : List Slot} {op : BinaryOp}
    {first left right : Node} {info : Info} {comment left' : Option Comment} {broken : Bool}
    (h : Reads bytes (.climb (op.precedence + 1) first comment right) before after left') :
    (Node.binary info op left right false broken).Fits after := by
  intro t rest op' hafter ht
  obtain ⟨u, us, hu, hjoin⟩ := h.climb_after
  obtain ⟨rfl, -⟩ := List.cons.inj (hu.symm.trans hafter)
  refine .inr (Nat.le_of_not_lt fun hlt => ?_)
  rw [ht, TokenKind.joining?_binary hlt] at hjoin
  cases hjoin

/-- **Whatever the grammar reads is grouped.** -/
theorem Reads.isGrouped {bytes : List UInt8} {ph : Phrase} {before after : List Slot}
    {left : Option Comment} (h : Reads bytes ph before after left) : ph.IsGrouped before := by
  induction h with
  | paren _ _ _ ih => exact ih.enclose _
  | number | bool | star | reference | name => exact ⟨Node.grouping_leaf rfl trivial, trivial⟩
  | string _ hn => exact Node.grouping_of_stringOfText? hn
  | duration _ hn => exact Node.grouping_of_durationOfText hn
  | regex _ hn => exact Node.grouping_of_regexOfText hn
  | applied _ _ _ _ ih | function _ _ _ _ ih =>
    exact ⟨Node.grouping_many rfl trivial ih, trivial⟩
  | unary _ _ ih =>
    exact ⟨Node.grouping_one rfl ih.2 ih.1, trivial⟩
  | operation hf _ ihf ihn => exact (ihn ihf.1 (ihf.2.fits _)).1
  | stop => exact fun hleft _ => ⟨hleft, id⟩
  | join ht hp hf hr hn ihf ihr ihn =>
    intro hleft hfits
    have hright := ihr ihf.1 (ihf.2.fits _)
    have hgrouped := And.intro (hfits _ _ _ rfl ht) (hright.2 (ihf.2.binds _))
    have hmore := ihn (Node.grouping_two rfl hgrouped hleft hright.1) hr.fits_joined
    exact ⟨hmore.1, fun _ => hmore.2 (.inr hp)⟩
  | itemName | itemStar | stepName => exact Node.grouping_leaf rfl trivial
  | itemString _ hn => exact (Node.grouping_of_stringOfText? hn).1
  | listEnd => simp [Phrase.IsGrouped]
  | listLast _ _ _ ih =>
    intro m hm
    obtain rfl := List.mem_singleton.1 hm
    exact ListSort.grouping_of_element ih
  | listMore _ _ _ _ ih ihs => exact List.forall_mem_cons.2 ⟨ListSort.grouping_of_element ih, ihs⟩
  | lambda _ _ ih => exact Node.grouping_one rfl trivial ih
  | bracket _ _ _ ih => exact Node.grouping_many rfl trivial ih
  | unnamed _ _ _ _ ih | named _ _ _ _ ih | express _ _ ih => exact ih
  | chained _ _ _ ih => exact ih (Node.grouping_name _)
  | callChained _ _ _ _ _ ihf ihn => exact ihn ihf.1
  | callJoined _ _ _ _ _ ihf ihn => exact (ihn ihf.1 (ihf.2.fits _)).1
  | chainEnd => exact id
  | chainStep _ _ _ ihr ihn => exact fun hleft => ihn (Node.grouping_two rfl trivial hleft ihr)
  | stepCall _ _ ih => exact ih.1
  | declare _ _ _ _ ih => exact Node.grouping_two rfl trivial (Node.grouping_name _) ih
  | declareType =>
    exact Node.grouping_two rfl trivial (Node.grouping_name _) (Node.grouping_name _)
  | done =>
    intro m hm
    obtain ⟨c, -, rfl⟩ := List.mem_map.1 hm
    exact Node.grouping_leaf rfl trivial
  | more _ _ _ ih ihs => exact List.forall_mem_cons.2 ⟨ih, ihs⟩

/-- **Precedence in parsed trees.** An operation below another one stands in parentheses unless it
binds as tightly as the other operator demands, on the left at least as tightly and on the right
more tightly; below a unary operator it stands in parentheses. So a writer puts no parentheses
around an operation that it was not read with. -/
theorem grouping_of_parse {source : String} {p : Node}
    (h : parse source = .ok p ∨ parseLambda source = .ok p) :
    ∀ n ∈ p.preorder, n.Grouped ∧ n.SparesParens := by
  have hp : p.Grouping := by
    rcases h with h | h
    · obtain ⟨ns, after, left, rfl, hreads⟩ := reads_of_parse h
      exact Node.grouping_many rfl trivial hreads.isGrouped
    · obtain ⟨body, t, after, left, rfl, -, hreads⟩ := parseLambda_eq_ok_iff.1 h
      exact Node.grouping_one rfl trivial hreads.isGrouped
  exact fun n hn => ⟨hp n hn, (hp n hn).sparesParens⟩

end

open scoped PatternEngine

/-- Operators of falling, equal and rising strength, with and without parentheses. -/
theorem grouping_of_parse_rising :
    ∃ p, parseLambda "a + b * c - (d OR e) / -(f < 2) AND g == h(i - (j - k))" = .ok p ∧
      ∀ n ∈ p.preorder, n.Grouped ∧ n.SparesParens := by
  obtain ⟨p, hparse, -⟩ := exists_ok_of_any (x := parseLambda
    "a + b * c - (d OR e) / -(f < 2) AND g == h(i - (j - k))")
    (P := fun _ => true) (by decide +kernel)
  exact ⟨p, hparse, grouping_of_parse (.inr hparse)⟩

end PipelineScript

import Mathlib.Algebra.Order.BigOperators.Group.List
import PipelineScript.Proofs.Entries
import PipelineScript.Proofs.Parsed

/-!
What becomes of the comments of a script.

A comment stands before a slot, and the node that is read from the slot takes it, if there is one.
The other slots drop theirs: `Scope.drops` says which they are, reading the script from the left
with what `Scope` remembers of the tokens before. Two kinds of signs cannot be told from there,
and are named by the tree (`Node.mute`): unary signs, and the operators of operations in
parentheses, which get the comment before the parenthesis instead of their own.

The comments are weighed by a function `f` of them, so that one bound is the count of any line.
`Reads.weight_le` says that the trees of a phrase weigh no more than the slots that it takes, and
`Reads.balances` that with the dropped slots they weigh no less. The second one goes by induction
on the reading of a phrase. A phrase in parentheses is the hard case, since the comment of its root
is overwritten from outside: `Phrase.Uproots` is the bound without that comment, and `Node.Heads`
says that the root has one to be overwritten.
-/
namespace PipelineScript

variable {engine : PatternEngine}

/-! ## Tokens that keep no comment -/

/-- Whether the next slot is of a kind. -/
def nextIs (kind : TokenKind) (ts : List Slot) : Bool := ts.head?.any (·.token.kind == kind)

/-- The slots behind the parenthesis that closes the outermost of `depth + 1` open ones. -/
def behindParens (depth : Nat) : List Slot → List Slot
  | [] => []
  | t :: ts =>
    if t.token.kind = .lparen then behindParens (depth + 1) ts
    else if t.token.kind = .rparen then if depth = 0 then ts else behindParens (depth - 1) ts
    else behindParens depth ts

/-- What the tokens before a slot say about it. -/
structure Scope where
  /-- An operand here stands in an operation. -/
  inner : Bool
  /-- The token before is a parenthesis that does not belong to a call. -/
  opened : Bool
  /-- The token before is a name that a parenthesis here would call; whether it stands in an
  operation. -/
  callee : Option Bool
  /-- How many names of a declaration are still to come. -/
  awaited : Nat
  /-- For each open parenthesis, whether the operands in it stand in an operation. -/
  parens : List Bool

namespace Scope

/-- Where a script begins. -/
def start : Scope := ⟨false, false, none, 0, []⟩

/-- Behind one more token. -/
def step (s : Scope) : TokenKind → Scope
  | .lparen =>
    let inner := s.callee.getD true
    ⟨inner, s.callee.isNone, none, 0, inner :: s.parens⟩
  | .rparen => ⟨false, false, none, 0, s.parens.tail⟩
  | .comma => ⟨s.parens.headD false, false, none, 0, s.parens⟩
  | .var => ⟨false, false, none, 2, s.parens⟩
  | .ident => ⟨false, false, if s.awaited = 0 then some s.inner else none, s.awaited - 1, s.parens⟩
  | .lambda | .not | .binary _ => ⟨true, false, none, 0, s.parens⟩
  | _ => ⟨false, false, none, 0, s.parens⟩

/-- Whether the grammar gives the comment before a token of a kind to no node of its own, when the
slots `rest` stand behind the token. -/
def drops (s : Scope) (kind : TokenKind) (rest : List Slot) : Bool :=
  match kind with
  -- These are no part of the tree. The comment before the last token of a script is kept.
  | .comma | .assign => true
  | .rparen | .rbracket => !nextIs .eof rest
  -- A call keeps the comment before its name, if it does not stand in an operation.
  | .lparen => s.callee.isSome || s.opened && nextIs .rparen (behindParens 0 rest)
  | .ident => if nextIs .lparen rest then s.inner else s.opened && nextIs .rparen rest
  -- An operand alone in parentheses has the comment before the parenthesis.
  | .number | .string | .bool _ | .duration | .regex | .star | .reference =>
    s.opened && nextIs .rparen rest
  | _ => false

/-- The slots whose comments are dropped because of what their tokens are. -/
def dropped (s : Scope) : List Slot → List Slot
  | [] => []
  | t :: ts => (if s.drops t.token.kind ts then [t] else []) ++ (s.step t.token.kind).dropped ts

end Scope

mutual

/-- Where the signs of a tree stand that keep no comment: unary signs, and the operators of
operations in parentheses, which have the comment before the parenthesis. -/
def Node.mute : Node → List Nat
  | .unary info _ operand => info.position.offset :: mute operand
  | .binary info _ left right parenthesized _ =>
    (if parenthesized then [info.position.offset] else []) ++ (mute left ++ mute right)
  | .list _ items => muteAll items
  | .chain _ _ left right => mute left ++ mute right
  | .func _ _ _ args _ => muteAll args
  | .lambda _ body => mute body
  | .declaration _ _ value => mute value
  | .program _ statements => muteAll statements
  | _ => []
termination_by structural n => n

def Node.muteAll : List Node → List Nat
  | [] => []
  | n :: ns => mute n ++ muteAll ns
termination_by structural ns => ns

end

/-- The slots of a script whose comments are dropped. -/
def droppedSlots (slots : List Slot) (p : Node) : List Slot :=
  Scope.start.dropped slots ++ p.mute.flatMap fun k => slots.filter (·.token.offset == k)

/-! ## Weighing comments -/

@[simp] theorem Position.offset_locate (bytes : List UInt8) (offset : Nat) :
    (Position.locate bytes offset).offset = offset := rfl

/-- The weight of a comment that may be missing. -/
def weigh (f : Comment → Nat) (c : Option Comment) : Nat := (c.toList.map f).sum

/-- The weight of the comments before some slots. -/
def load (f : Comment → Nat) (ts : List Slot) : Nat := (ts.map fun t => weigh f t.comment).sum

/-- The weight of the comments of a tree. -/
def Node.weight (f : Comment → Nat) (n : Node) : Nat := (n.comments.map f).sum

/-- The weight of the comments of several trees. -/
def Node.weightAll [PatternEngine] (f : Comment → Nat) (ns : List Node) : Nat :=
  ((commentsAll ns).map f).sum

section

variable {f : Comment → Nat} {info : Info} {ident : Identifier} {n left right : Node}
  {ns : List Node}

@[simp] theorem weigh_none : weigh f none = 0 := rfl

@[simp] theorem load_nil : load f [] = 0 := rfl

@[simp] theorem load_cons (t : Slot) (ts : List Slot) :
    load f (t :: ts) = weigh f t.comment + load f ts := rfl

namespace Node

@[simp] theorem weightAll_nil : weightAll f [] = 0 := rfl

@[simp] theorem weightAll_cons (n : Node) (ns : List Node) :
    weightAll f (n :: ns) = n.weight f + weightAll f ns := by
  simp [weightAll, commentsAll, weight]

@[simp] theorem weight_identifier :
    (Node.identifier ident).weight f = weigh f ident.info.comment := rfl

@[simp] theorem weight_list :
    (Node.list info ns).weight f = weigh f info.comment + weightAll f ns := by
  simp [weight, comments, weigh, weightAll]

@[simp] theorem weight_unary {op : UnaryOp} :
    (Node.unary info op n).weight f = weigh f info.comment + n.weight f := by
  simp [weight, comments, weigh]

@[simp] theorem weight_binary {op : BinaryOp} {parenthesized broken : Bool} :
    (Node.binary info op left right parenthesized broken).weight f =
      weigh f info.comment + (left.weight f + right.weight f) := by
  simp [weight, comments, weigh]

@[simp] theorem weight_chain {op : ChainOp} :
    (Node.chain info op left right).weight f =
      left.weight f + (weigh f info.comment + right.weight f) := by
  simp [weight, comments, weigh]

@[simp] theorem weight_func {kind : CallKind} {name : String} {broken : Bool} :
    (Node.func info kind name ns broken).weight f = weigh f info.comment + weightAll f ns := by
  simp [weight, comments, weigh, weightAll]

@[simp] theorem weight_lambda :
    (Node.lambda info n).weight f = weigh f info.comment + n.weight f := by
  simp [weight, comments, weigh]

@[simp] theorem weight_declaration :
    (Node.declaration info ident n).weight f =
      weigh f info.comment + (weigh f ident.info.comment + n.weight f) := by
  simp [weight, comments, weigh, Identifier.comments]

@[simp] theorem weight_typeDeclaration {type : Identifier} :
    (Node.typeDeclaration info ident type).weight f =
      weigh f info.comment + (weigh f ident.info.comment + weigh f type.info.comment) := by
  simp [weight, comments, weigh, Identifier.comments]

/-- The comments behind the last statement. -/
theorem weightAll_trailing [PatternEngine] (c d : Option Comment) :
    weightAll f ((c.toList ++ d.toList).map .comment) = weigh f c + weigh f d := by
  cases c <;> cases d <;> simp [weight, comments, weigh]

end Node

end

/-! ## Nodes that are one token -/

/-- A node with a comment before it and nothing below it. -/
structure Node.IsLeaf (c : Option Comment) (n : Node) : Prop where
  comments_eq : n.comments = c.toList
  setComment_eq : ∀ d : Option Comment, (n.setComment d).comments = d.toList
  parenthesize_eq : n.parenthesize = n
  mute_eq : n.mute = []

namespace Node

variable {info : Info} {text : String} {n : Node}

theorem isLeaf_of_stringOfText? (h : stringOfText? info text = some n) : n.IsLeaf info.comment := by
  obtain ⟨_, _, rfl⟩ := Option.map_eq_some_iff.1 h
  exact ⟨rfl, fun _ => rfl, rfl, rfl⟩

theorem isLeaf_of_durationOfText (h : durationOfText info text = .ok n) :
    n.IsLeaf info.comment := by
  obtain ⟨_, -, rfl⟩ := durationOfText_eq_ok_iff.1 h
  exact ⟨rfl, fun _ => rfl, rfl, rfl⟩

theorem isLeaf_of_regexOfText (h : regexOfText info text = .ok n) : n.IsLeaf info.comment := by
  obtain ⟨_, -, rfl⟩ := regexOfText_eq_ok_iff.1 h
  exact ⟨rfl, fun _ => rfl, rfl, rfl⟩

theorem IsLeaf.weight_eq {f : Comment → Nat} {c : Option Comment} (h : n.IsLeaf c) :
    n.weight f = weigh f c := by
  rw [weight, h.comments_eq, weigh]

end Node

/-! ## No comment is invented -/

/-- The trees that a phrase stands for. -/
def Phrase.trees : Phrase → List Node
  | .operand n | .operation n | .climb _ _ _ n | .item n | .expression n | .chain _ _ n | .step _ n
  | .call _ n | .statement n => [n]
  | .list _ ns | .statements _ ns => ns

/-- The tree that a phrase goes on with. -/
def Phrase.stem : Phrase → List Node
  | .climb _ left _ _ | .chain left _ _ => [left]
  | _ => []

theorem Node.weight_enclose_le {f : Comment → Nat} (c : Option Comment) (n : Node) :
    (n.parenthesize.setComment c).weight f ≤ weigh f c + n.weight f := by
  cases n <;>
    (simp [parenthesize, setComment, weight, comments, Identifier.comments, weigh]; try omega)

theorem ListSort.trees_element (sort : ListSort) (n : Node) : (sort.element n).trees = [n] := by
  cases sort <;> rfl

theorem ListSort.stem_element (sort : ListSort) (n : Node) : (sort.element n).stem = [] := by
  cases sort <;> rfl

/-- **No comment is invented or used twice**: the comments of the trees that a phrase stands for
weigh no more than those before the slots that it takes. -/
theorem Reads.weight_le {bytes : List UInt8} {ph : Phrase} {before after : List Slot}
    {left : Option Comment} (h : Reads bytes ph before after left) (f : Comment → Nat) :
    Node.weightAll f ph.trees + weigh f left + load f after ≤
      load f before + Node.weightAll f ph.stem + weigh f ph.found := by
  induction h with
  | @paren t _ _ _ n =>
    have := Node.weight_enclose_le (f := f) t.comment n
    simp [Phrase.trees, Phrase.stem, Phrase.found] at *
    omega
  | string _ hn | itemString _ hn =>
    have := (Node.isLeaf_of_stringOfText? hn).weight_eq (f := f)
    simp [Phrase.trees, Phrase.stem, Phrase.found, Slot.info] at *
    omega
  | duration _ hn =>
    have := (Node.isLeaf_of_durationOfText hn).weight_eq (f := f)
    simp [Phrase.trees, Phrase.stem, Phrase.found, Slot.info] at *
    omega
  | regex _ hn =>
    have := (Node.isLeaf_of_regexOfText hn).weight_eq (f := f)
    simp [Phrase.trees, Phrase.stem, Phrase.found, Slot.info] at *
    omega
  | number | bool | star | reference | itemStar =>
    simp [Phrase.trees, Phrase.stem, Phrase.found, Slot.info, Node.weight, Node.comments, weigh,
      Node.referenceOfText]
  | listLast _ _ _ ih | listMore _ _ _ _ ih ihs =>
    simp only [ListSort.trees_element, ListSort.stem_element, ListSort.found_element] at ih
    simp [Phrase.trees, Phrase.stem, Phrase.found] at *
    omega
  | @done t _ left =>
    have := Node.weightAll_trailing (f := f) left t.comment
    simp only [Phrase.trees, Phrase.stem, Phrase.found, Slot.bare, this, load_cons, weigh_none,
      Node.weightAll_nil]
    omega
  | _ =>
    -- The comment before a slot goes to the node that is read from it, or is dropped.
    simp [Phrase.trees, Phrase.stem, Phrase.found, Slot.info] at *
    try omega

/-! ## Where the tokens of a phrase lead -/

@[simp] theorem nextIs_cons (kind : TokenKind) (t : Slot) (ts : List Slot) :
    nextIs kind (t :: ts) = (t.token.kind == kind) := rfl

theorem behindParens_lparen {t : Slot} (h : t.token.kind = .lparen) (ts : List Slot) (depth : Nat) :
    behindParens depth (t :: ts) = behindParens (depth + 1) ts := by
  rw [behindParens, if_pos h]

theorem behindParens_rparen {t : Slot} (h : t.token.kind = .rparen) (ts : List Slot) (depth : Nat) :
    behindParens (depth + 1) (t :: ts) = behindParens depth ts := by
  simp [behindParens, h]

theorem behindParens_cons {t : Slot} {kind : TokenKind} (h : t.token.kind = kind)
    (h₁ : kind ≠ .lparen) (h₂ : kind ≠ .rparen) (ts : List Slot) (depth : Nat) :
    behindParens depth (t :: ts) = behindParens depth ts := by
  rw [behindParens, if_neg (h ▸ h₁), if_neg (h ▸ h₂)]

/-- The parentheses of a phrase are in pairs. -/
theorem Reads.behindParens_eq {bytes : List UInt8} {ph : Phrase} {before after : List Slot}
    {left : Option Comment} (h : Reads bytes ph before after left) (depth : Nat) :
    behindParens depth before = behindParens depth after := by
  -- A slot that is no parenthesis leaves the depth alone, and what stands between two parentheses
  -- leaves it as the first one has set it.
  induction h generalizing depth with
  | paren ht _ hc ih => rw [behindParens_lparen ht, ih, behindParens_rparen hc]
  | applied ht ho _ hc ih | function ht ho _ hc ih =>
    rw [behindParens_cons ht (by simp) (by simp), behindParens_lparen ho, ih,
      behindParens_rparen hc]
  | bracket ht _ hc ih =>
    rw [behindParens_cons ht (by simp) (by simp), ih, behindParens_cons hc (by simp) (by simp)]
  | number ht | string ht | bool ht | duration ht | regex ht | star ht | reference ht | name ht
  | itemName ht | itemString ht | itemStar ht | stepName _ ht =>
    exact behindParens_cons ht (by simp) (by simp) _ depth
  | @unary _ _ _ op _ _ ht _ ih =>
    rw [behindParens_cons ht (by cases op <;> simp [UnaryOp.tokenKind])
      (by cases op <;> simp [UnaryOp.tokenKind]), ih]
  | operation _ _ ihf ihn | callChained _ _ _ _ _ ihf ihn | callJoined _ _ _ _ _ ihf ihn
  | more _ _ _ ihf ihn => rw [ihf, ihn]
  | stop | listEnd | chainEnd => rfl
  | join ht _ _ _ _ ihf ihr ihn =>
    rw [behindParens_cons ht (by simp) (by simp), ihf, ihr, ihn]
  | listLast _ _ _ ih | unnamed _ _ _ _ ih | named _ _ _ _ ih | stepCall _ _ ih
  | express _ _ ih => exact ih depth
  | listMore _ _ ht _ ih ihs => rw [ih, behindParens_cons ht (by simp) (by simp), ihs]
  | lambda ht _ ih | chained ht _ _ ih => rw [behindParens_cons ht (by simp) (by simp), ih]
  | chainStep ht _ _ ihr ihn => rw [behindParens_cons ht (by simp) (by simp), ihr, ihn]
  | declare ht hi he _ ih =>
    rw [behindParens_cons ht (by simp) (by simp), behindParens_cons hi (by simp) (by simp),
      behindParens_cons he (by simp) (by simp), ih]
  | declareType ht hi hy =>
    rw [behindParens_cons ht (by simp) (by simp), behindParens_cons hi (by simp) (by simp),
      behindParens_cons hy (by simp) (by simp)]
  | @done t _ _ ht =>
    rw [behindParens_cons ht (by simp) (by simp),
      behindParens_cons (t := t.bare) ht (by simp) (by simp)]

/-! ## Weighing what is dropped -/

/-- The weight of a comment that the last phrase of a script leaves behind. -/
def owed (f : Comment → Nat) (after : List Slot) (left : Option Comment) : Nat :=
  if nextIs .eof after then weigh f left else 0

/-- The weight of the comments before the slots that stand at some offsets. -/
def muteLoad (f : Comment → Nat) (slots : List Slot) (offsets : List Nat) : Nat :=
  load f (offsets.flatMap fun k => slots.filter (·.token.offset == k))

section

variable {f : Comment → Nat} {slots : List Slot}

@[simp] theorem load_append (ts us : List Slot) : load f (ts ++ us) = load f ts + load f us := by
  simp [load]

@[simp] theorem muteLoad_nil : muteLoad f slots [] = 0 := rfl

@[simp] theorem muteLoad_append (ks js : List Nat) :
    muteLoad f slots (ks ++ js) = muteLoad f slots ks + muteLoad f slots js := by
  simp [muteLoad]

theorem weigh_le_load {t : Slot} {ts : List Slot} (h : t ∈ ts) : weigh f t.comment ≤ load f ts :=
  List.single_le_sum (by simp) _ (List.mem_map_of_mem h)

/-- A comment before a slot is among those at its offset. -/
theorem weigh_add_le_muteLoad {t : Slot} (ht : t ∈ slots) (ks : List Nat) :
    weigh f t.comment + muteLoad f slots ks ≤ muteLoad f slots (t.token.offset :: ks) := by
  have hmem : t ∈ slots.filter (·.token.offset == t.token.offset) :=
    List.mem_filter.2 ⟨ht, beq_self_eq_true _⟩
  have hle := weigh_le_load (f := f) hmem
  simp only [muteLoad, List.flatMap_cons, load_append]
  omega

theorem owed_le (after : List Slot) (left : Option Comment) : owed f after left ≤ weigh f left := by
  rw [owed]
  split <;> omega

theorem owed_eq_zero {after : List Slot} (h : nextIs .eof after = false) (left : Option Comment) :
    owed f after left = 0 := by
  rw [owed, if_neg (by simp [h])]

@[simp] theorem owed_none (after : List Slot) : owed f after none = 0 := by simp [owed]

theorem load_dropped_cons (s : Scope) (t : Slot) (ts : List Slot) :
    load f (s.dropped (t :: ts)) =
      (if s.drops t.token.kind ts then weigh f t.comment else 0) +
        load f ((s.step t.token.kind).dropped ts) := by
  rw [Scope.dropped, load_append]
  split <;> simp

/-- What is dropped behind a token is dropped. -/
theorem load_dropped_le {s : Scope} {t : Slot} {kind : TokenKind} (ht : t.token.kind = kind)
    (ts : List Slot) :
    load f ((s.step kind).dropped ts) ≤ load f (s.dropped (t :: ts)) := by
  rw [load_dropped_cons, ht]
  omega

/-- A token that is dropped. -/
theorem load_dropped_of_drops {s : Scope} {t : Slot} {kind : TokenKind} (ht : t.token.kind = kind)
    (ts : List Slot) (h : s.drops kind ts = true) :
    load f (s.dropped (t :: ts)) = weigh f t.comment + load f ((s.step kind).dropped ts) := by
  rw [load_dropped_cons, ht, if_pos h]

/-- A closing mark is dropped, or the comment before it is owed. -/
theorem load_dropped_close {s : Scope} {t : Slot} {kind : TokenKind} (ht : t.token.kind = kind)
    (hk : kind = .rparen ∨ kind = .rbracket) (ts : List Slot) :
    load f (s.dropped (t :: ts)) + owed f ts t.comment =
      weigh f t.comment + load f ((s.step kind).dropped ts) := by
  have hdrops : s.drops t.token.kind ts = !nextIs .eof ts := by
    rw [ht]
    rcases hk with rfl | rfl <;> rfl
  rw [load_dropped_cons, hdrops, owed, ht]
  cases nextIs .eof ts <;> (simp; try omega)

end

namespace Scope

/-- No name before the next slot goes on with it. -/
structure Ready (s : Scope) (ts : List Slot) : Prop where
  awaited_eq : s.awaited = 0
  callee_eq : nextIs .lparen ts = true → s.callee = none

/-- If a call comes next, it stands in an operation. -/
def Inside (s : Scope) (ts : List Slot) : Prop :=
  nextIs .ident ts = true → nextIs .lparen ts.tail = true → s.inner = true

end Scope

/-- What a phrase expects of the place where it begins. -/
def Phrase.Enters (s : Scope) (before : List Slot) : Phrase → Prop
  | .operand _ | .operation _ => s.Inside before
  | .list .operations _ => s.inner = true ∧ s.parens.head? = some true
  | _ => True

/-- Whether a phrase is in brackets, whose closing mark comes behind it. -/
def Phrase.isBracketed : Phrase → Bool
  | .item _ | .list .. => true
  | _ => false

/-- A node has its comment where a parenthesis puts another one. -/
def Node.Heads (f : Comment → Nat) (n : Node) : Prop :=
  ∀ c : Option Comment,
    (n.parenthesize.setComment c).weight f = weigh f c + (n.setComment none).weight f

/-- What becomes of the comments before the slots that a phrase takes, if it begins in the scope `s`
and ends in the scope `s'`. -/
structure Phrase.Accounts (f : Comment → Nat) (slots : List Slot) (s s' : Scope)
    (before after : List Slot) (left : Option Comment) (ph : Phrase) : Prop where
  parens_eq : s'.parens = s.parens
  awaited_eq : s'.awaited = 0
  ready : ph.isBracketed = false → s'.Ready after
  /-- A comment is in a tree, or dropped, or owed to the end of the script. -/
  bound : (ph.isBracketed = true → nextIs .eof after = false) →
    Node.weightAll f ph.stem + owed f before ph.found + load f before +
        load f (s'.dropped after) + muteLoad f slots (Node.muteAll ph.stem) ≤
      Node.weightAll f ph.trees + load f after + load f (s.dropped before) +
        muteLoad f slots (Node.muteAll ph.trees) + owed f after left

/-- What becomes of them where the comment before the phrase is replaced: the one that its root had
is dropped. -/
def Phrase.Uproots (f : Comment → Nat) (slots : List Slot) (s s' : Scope)
    (before after : List Slot) : Phrase → Prop
  | .operand n | .operation n =>
    n.Heads f ∧ (s.opened = true → nextIs .rparen after = true →
      load f before + load f (s'.dropped after) ≤
        (n.setComment none).weight f + load f after + load f (s.dropped before) +
          muteLoad f slots n.parenthesize.mute)
  | .climb _ m found n =>
    (m.Heads f → n.Heads f) ∧
      ((n = m ∧ after = before ∧ s' = s) ∨
        (nextIs .rparen after = true →
          m.weight f + owed f before found + load f before + load f (s'.dropped after) +
              muteLoad f slots m.mute ≤
            (n.setComment none).weight f + load f after + load f (s.dropped before) +
              muteLoad f slots n.parenthesize.mute))
  | _ => True

/-- A phrase accounts for the comments before the slots that it takes, wherever it begins. -/
def Phrase.Balances (f : Comment → Nat) (slots before after : List Slot) (left : Option Comment)
    (ph : Phrase) : Prop :=
  ∀ s : Scope, s.Ready before → ph.Enters s before → ∃ s' : Scope,
    ph.Accounts f slots s s' before after left ∧ ph.Uproots f slots s s' before after

section

variable {f : Comment → Nat} {slots before mid rest after : List Slot} {t o c : Slot} {n : Node}
  {left : Option Comment} {bytes : List UInt8} {ns : List Node}

@[simp] theorem Node.parenthesize_parenthesize (n : Node) :
    n.parenthesize.parenthesize = n.parenthesize := by
  cases n <;> rfl

@[simp] theorem Node.mute_setComment (c : Option Comment) (n : Node) :
    (n.setComment c).mute = n.mute := by
  cases n <;> simp [setComment, mute]

theorem nextIs_ne {k k' : TokenKind} {ts : List Slot} (h : nextIs k ts = true) (hk : k ≠ k') :
    nextIs k' ts = false := by
  cases ts with
  | nil => rfl
  | cons t ts =>
    simp only [nextIs_cons, beq_iff_eq, beq_eq_false_iff_ne] at h ⊢
    rw [h]
    exact hk

/-- An operation in parentheses: its root gives way to the comment before the parenthesis. -/
theorem balances_paren (ht : t.token.kind = .lparen) (hc : c.token.kind = .rparen)
    (hmid : behindParens 0 mid = rest)
    (hn : (Phrase.operation n).Balances f slots mid (c :: rest) left) :
    (Phrase.operand (n.parenthesize.setComment t.comment)).Balances f slots (t :: mid) rest
      c.comment := by
  intro s hs _
  have hcallee := hs.callee_eq (by simp [ht])
  obtain ⟨s₁, hin, hheads, hroot⟩ := hn (s.step .lparen)
    ⟨rfl, fun _ => rfl⟩ (by simp [Phrase.Enters, Scope.Inside, Scope.step, hcallee])
  -- The operation fills the parentheses, so the comment of its root counts as dropped.
  have hroot := hroot (by simp [Scope.step, hcallee]) (by simp [hc])
  have hclose := load_dropped_close (f := f) (s := s₁) hc (.inl rfl) rest
  have hbare : (n.parenthesize.setComment none).weight f = (n.setComment none).weight f := by
    simpa using hheads none
  refine ⟨s₁.step .rparen, ⟨?_, rfl, fun _ => ⟨rfl, fun _ => rfl⟩, fun _ => ?_⟩, ?_, ?_⟩
  · simp [Scope.step, hin.parens_eq]
  · have hopen := load_dropped_le (f := f) (s := s) ht mid
    have hweight := hheads t.comment
    simp [Phrase.stem, Phrase.trees, Phrase.found, Node.muteAll] at hroot ⊢
    omega
  · intro d
    simp [hheads d, hbare]
  · intro hopened hnext
    have hdrops : s.drops .lparen mid = true := by simp [Scope.drops, hmid, hopened, hnext]
    have hopen := load_dropped_of_drops (f := f) ht mid hdrops
    have howed : owed f rest c.comment = 0 := owed_eq_zero (nextIs_ne hnext (by decide)) _
    simp at hroot ⊢
    omega

/-- What is one token keeps its comment, if it does not stand alone in parentheses. -/
theorem accounts_leaf {s : Scope} {kind : TokenKind} {ph : Phrase} (ht : t.token.kind = kind)
    (hn : n.IsLeaf t.comment) (htrees : ph.trees = [n]) (hstem : ph.stem = [])
    (hfound : ph.found = none) (hparens : (s.step kind).parens = s.parens)
    (hawaited : (s.step kind).awaited = 0)
    (hready : ph.isBracketed = false → (s.step kind).Ready rest) :
    ph.Accounts f slots s (s.step kind) (t :: rest) rest none := by
  refine ⟨hparens, hawaited, hready, fun _ => ?_⟩
  have hdropped := load_dropped_le (f := f) (s := s) ht rest
  have hweight := hn.weight_eq (f := f)
  simp [htrees, hstem, hfound, Node.muteAll] at hdropped ⊢
  omega

theorem uproots_leaf {s : Scope} {kind : TokenKind} (ht : t.token.kind = kind)
    (hn : n.IsLeaf t.comment) (hdrops : s.opened = true → nextIs .rparen rest = true →
      s.drops kind rest = true) :
    (Phrase.operand n).Uproots f slots s (s.step kind) (t :: rest) rest := by
  constructor
  · intro c
    simp [hn.parenthesize_eq, Node.weight, hn.setComment_eq, weigh]
  · intro hopened hnext
    have hdropped := load_dropped_of_drops (f := f) ht rest (hdrops hopened hnext)
    simp only [load_cons]
    omega

theorem balances_literal (hk : t.token.kind ∈ Node.literalKinds) (hn : n.IsLeaf t.comment) :
    (Phrase.operand n).Balances f slots (t :: rest) rest none := by
  intro s hs _
  obtain ⟨hstep, hdrops⟩ : s.step t.token.kind = ⟨false, false, none, 0, s.parens⟩ ∧
      s.drops t.token.kind rest = (s.opened && nextIs .rparen rest) := by
    generalize t.token.kind = kind at hk
    simp only [Node.literalKinds, List.mem_cons, List.not_mem_nil, or_false] at hk
    rcases hk with rfl | rfl | rfl | rfl | rfl | rfl | rfl | rfl | rfl <;> exact ⟨rfl, rfl⟩
  have hready : (s.step t.token.kind).Ready rest := by
    rw [hstep]
    exact ⟨rfl, fun _ => rfl⟩
  refine ⟨_, accounts_leaf rfl hn rfl rfl rfl (by rw [hstep]) (by rw [hstep]) fun _ => hready,
    uproots_leaf rfl hn fun hopened hnext => ?_⟩
  rw [hdrops, hopened, hnext]
  rfl

/-- Behind a name that nothing is awaited for. -/
theorem Scope.step_ident {s : Scope} (h : s.awaited = 0) :
    s.step .ident = ⟨false, false, some s.inner, 0, s.parens⟩ := by
  simp [step, h]

theorem balances_name {name : String} (ht : t.token.kind = .ident)
    (hb : nextIs .lparen rest = false) :
    (Phrase.operand (.identifier ⟨t.info bytes, name⟩)).Balances f slots (t :: rest) rest none := by
  intro s hs _
  have hleaf : (Node.identifier ⟨t.info bytes, name⟩).IsLeaf t.comment :=
    ⟨rfl, fun _ => rfl, rfl, by simp [Node.mute]⟩
  have hstep := Scope.step_ident hs.awaited_eq
  refine ⟨_, accounts_leaf ht hleaf rfl rfl rfl (by rw [hstep]) (by rw [hstep]) ?_,
    uproots_leaf ht hleaf fun hopened hnext => ?_⟩
  · intro _
    rw [hstep]
    exact ⟨rfl, fun h => by rw [hb] at h; cases h⟩
  · simp [Scope.drops, hb, hopened, hnext]

theorem balances_item (hk : t.token.kind ∈ [.ident, .string, .star]) (hn : n.IsLeaf t.comment) :
    (Phrase.item n).Balances f slots (t :: rest) rest none := by
  intro s hs _
  obtain ⟨hparens, hawaited⟩ : (s.step t.token.kind).parens = s.parens ∧
      (s.step t.token.kind).awaited = 0 := by
    generalize t.token.kind = kind at hk
    simp only [List.mem_cons, List.not_mem_nil, or_false] at hk
    rcases hk with rfl | rfl | rfl
    · simp [Scope.step_ident hs.awaited_eq]
    · exact ⟨rfl, rfl⟩
    · exact ⟨rfl, rfl⟩
  exact ⟨_, accounts_leaf rfl hn rfl rfl rfl hparens hawaited (by simp [Phrase.isBracketed]),
    trivial⟩

/-- The comments of a call: the one before its name is dropped in an operation, and those before
the parentheses everywhere. -/
theorem exists_behind_call {sort : ListSort} {s : Scope} (hs : s.Ready (t :: o :: mid))
    (ht : t.token.kind = .ident) (ho : o.token.kind = .lparen) (hc : c.token.kind = .rparen)
    (hsort : sort = .operations → s.inner = true)
    (ha : (Phrase.list sort ns).Balances f slots mid (c :: rest) none) :
    ∃ s' : Scope, s'.parens = s.parens ∧ s'.awaited = 0 ∧ s'.Ready rest ∧
      load f (t :: o :: mid) + load f (s'.dropped rest) ≤
        (if s.inner then 0 else weigh f t.comment) + Node.weightAll f ns + load f rest +
          load f (s.dropped (t :: o :: mid)) + muteLoad f slots (Node.muteAll ns) +
          owed f rest c.comment := by
  have hname := Scope.step_ident hs.awaited_eq
  have hscope : (s.step .ident).step .lparen = ⟨s.inner, false, none, 0, s.inner :: s.parens⟩ := by
    rw [hname]
    rfl
  have henters : (Phrase.list sort ns).Enters ((s.step .ident).step .lparen) mid := by
    rw [hscope]
    cases sort with
    | operations => simp [Phrase.Enters, hsort rfl]
    | expressions | items => trivial
  obtain ⟨s₁, hin, -⟩ := ha ((s.step .ident).step .lparen) ⟨rfl, fun _ => rfl⟩ henters
  refine ⟨s₁.step .rparen, ?_, rfl, ⟨rfl, fun _ => rfl⟩, ?_⟩
  · show s₁.parens.tail = s.parens
    rw [hin.parens_eq, hscope, List.tail_cons]
  · have hbound := hin.bound fun _ => by simp [hc]
    have hclose := load_dropped_close (f := f) (s := s₁) hc (.inl rfl) rest
    have hopen := load_dropped_of_drops (f := f) (s := s.step .ident) ho mid
      (by simp [Scope.drops, hname])
    -- The comment before the name is dropped in an operation; elsewhere the call has it.
    have hdropped : load f (s.dropped (t :: o :: mid)) =
        (if s.inner then weigh f t.comment else 0) +
          load f ((s.step .ident).dropped (o :: mid)) := by
      rw [load_dropped_cons, ht]
      simp [Scope.drops, ho]
    simp [Phrase.stem, Phrase.trees, Phrase.found] at hbound ⊢
    split <;> simp_all <;> omega

theorem balances_applied {name : String} {broken : Bool} {position : Position}
    (ht : t.token.kind = .ident) (ho : o.token.kind = .lparen) (hc : c.token.kind = .rparen)
    (ha : (Phrase.list .operations ns).Balances f slots mid (c :: rest) none) :
    (Phrase.operand (.func ⟨position, none⟩ .global name ns broken)).Balances f slots
      (t :: o :: mid) rest c.comment := by
  intro s hs hinside
  have hinner : s.inner = true := hinside (by simp [ht]) (by simp [ho])
  obtain ⟨s', hparens, hawaited, hready, hbound⟩ :=
    exists_behind_call hs ht ho hc (fun _ => hinner) ha
  rw [hinner, if_pos rfl] at hbound
  refine ⟨s', ⟨hparens, hawaited, fun _ => hready, fun _ => ?_⟩, fun d => ?_, fun _ hnext => ?_⟩
  · simp [Phrase.stem, Phrase.trees, Phrase.found, Node.muteAll, Node.mute] at hbound ⊢
    omega
  · simp [Node.parenthesize, Node.setComment]
  · rw [owed_eq_zero (nextIs_ne hnext (by decide))] at hbound
    simp [Node.parenthesize, Node.setComment, Node.mute] at hbound ⊢
    omega

theorem balances_function {kind : CallKind} {name : String} {broken : Bool}
    (ht : t.token.kind = .ident) (ho : o.token.kind = .lparen) (hc : c.token.kind = .rparen)
    (ha : (Phrase.list .expressions ns).Balances f slots mid (c :: rest) none) :
    (Phrase.call kind (.func (t.info bytes) kind name ns broken)).Balances f slots
      (t :: o :: mid) rest c.comment := by
  intro s hs _
  obtain ⟨s', hparens, hawaited, hready, hbound⟩ :=
    exists_behind_call hs ht ho hc (fun h => by cases h) ha
  have hname : (if s.inner then 0 else weigh f t.comment) ≤ weigh f t.comment := by
    split <;> omega
  refine ⟨s', ⟨hparens, hawaited, fun _ => hready, fun _ => ?_⟩, trivial⟩
  simp [Phrase.stem, Phrase.trees, Phrase.found, Node.muteAll, Node.mute, Slot.info] at hbound ⊢
  omega

theorem balances_unary {op : UnaryOp} (ht : t.token.kind = op.tokenKind) (hmem : t ∈ slots)
    (hn : (Phrase.operand n).Balances f slots mid rest left) :
    (Phrase.operand (.unary ⟨.locate bytes t.token.offset, left⟩ op n)).Balances f slots (t :: mid)
      rest none := by
  intro s hs _
  have hstep : s.step op.tokenKind = ⟨true, false, none, 0, s.parens⟩ := by cases op <;> rfl
  obtain ⟨s₁, hin, -⟩ := hn (s.step op.tokenKind) (by rw [hstep]; exact ⟨rfl, fun _ => rfl⟩)
    (by rw [hstep]; exact fun _ _ => rfl)
  have hbound := hin.bound (by simp [Phrase.isBracketed])
  have hdropped := load_dropped_le (f := f) (s := s) ht mid
  -- The node has the comment that its operand leaves, and the one before the operator is muted.
  have hmute := weigh_add_le_muteLoad (f := f) hmem n.mute
  refine ⟨s₁, ⟨by rw [hin.parens_eq, hstep], hin.awaited_eq, fun _ => hin.ready rfl, fun _ => ?_⟩,
    fun d => ?_, fun _ hnext => ?_⟩
  · have howed := owed_le (f := f) rest left
    simp [Phrase.stem, Phrase.trees, Phrase.found, Node.muteAll, Node.mute] at hbound ⊢
    omega
  · simp [Node.parenthesize, Node.setComment]
  · rw [owed_eq_zero (nextIs_ne hnext (by decide))] at hbound
    simp [Phrase.stem, Phrase.trees, Phrase.found, Node.muteAll, Node.parenthesize,
      Node.setComment, Node.mute] at hbound ⊢
    omega

theorem balances_operation {first : Node} {left₁ left₂ : Option Comment}
    (hf : (Phrase.operand first).Balances f slots before mid left₁)
    (hn : (Phrase.climb 0 first left₁ n).Balances f slots mid rest left₂) :
    (Phrase.operation n).Balances f slots before rest left₂ := by
  intro s hs hinside
  obtain ⟨s₁, hin₁, hheads, hroot⟩ := hf s hs hinside
  obtain ⟨s₂, hin₂, hheads', hcases⟩ := hn s₁ (hin₁.ready rfl) trivial
  have hbound₁ := hin₁.bound (by simp [Phrase.isBracketed])
  have hbound₂ := hin₂.bound (by simp [Phrase.isBracketed])
  simp [Phrase.stem, Phrase.trees, Phrase.found, Node.muteAll] at hbound₁ hbound₂
  refine ⟨s₂, ⟨by rw [hin₂.parens_eq, hin₁.parens_eq], hin₂.awaited_eq, fun _ => hin₂.ready rfl,
    fun _ => ?_⟩, hheads' hheads, fun hopened hnext => ?_⟩
  · simp [Phrase.stem, Phrase.trees, Phrase.found, Node.muteAll]
    omega
  -- The root is the first operand, or an operator that has been joined to it.
  · rcases hcases with ⟨rfl, rfl, rfl⟩ | hjoined
    · exact hroot hopened hnext
    · have := hjoined hnext
      omega

theorem balances_stop {least : Nat} :
    (Phrase.climb least n left n).Balances f slots before before left := by
  intro s hs _
  refine ⟨s, ⟨rfl, hs.awaited_eq, fun _ => hs, fun _ => ?_⟩, id, .inl ⟨rfl, rfl, rfl⟩⟩
  simp [Phrase.stem, Phrase.trees, Phrase.found]
  omega

/-- One more operator with its right operand. -/
theorem balances_join {least p : Nat} {op : BinaryOp} {m first right : Node} {broken : Bool}
    {left₀ left₁ left₂ left₃ : Option Comment} {toks mid₁ mid₂ : List Slot}
    (ht : t.token.kind = .binary op) (hmem : t ∈ slots)
    (hf : (Phrase.operand first).Balances f slots toks mid₁ left₁)
    (hr : (Phrase.climb p first left₁ right).Balances f slots mid₁ mid₂ left₂)
    (hn : (Phrase.climb least (.binary (t.info bytes) op m right false broken) left₂ n).Balances f
      slots mid₂ rest left₃) :
    (Phrase.climb least m left₀ n).Balances f slots (t :: toks) rest left₃ := by
  intro s hs _
  have hstep : s.step (.binary op) = ⟨true, false, none, 0, s.parens⟩ := rfl
  obtain ⟨s₁, hin₁, -⟩ := hf (s.step (.binary op)) ⟨rfl, fun _ => rfl⟩ fun _ _ => rfl
  obtain ⟨s₂, hin₂, -⟩ := hr s₁ (hin₁.ready rfl) trivial
  obtain ⟨s₃, hin₃, hheads, hcases⟩ := hn s₂ (hin₂.ready rfl) trivial
  have hbound₁ := hin₁.bound (by simp [Phrase.isBracketed])
  have hbound₂ := hin₂.bound (by simp [Phrase.isBracketed])
  have hbound₃ := hin₃.bound (by simp [Phrase.isBracketed])
  have hdropped := load_dropped_le (f := f) (s := s) ht toks
  have howed : owed f (t :: toks) left₀ = 0 := owed_eq_zero (by simp [ht]) _
  simp [Phrase.stem, Phrase.trees, Phrase.found, Node.muteAll, Node.mute, Slot.info]
    at hbound₁ hbound₂ hbound₃
  refine ⟨s₃, ⟨by rw [hin₃.parens_eq, hin₂.parens_eq, hin₁.parens_eq, hstep], hin₃.awaited_eq,
    fun _ => hin₃.ready rfl, fun _ => ?_⟩, fun _ => hheads fun d => ?_, .inr fun hnext => ?_⟩
  · simp [Phrase.stem, Phrase.trees, Phrase.found, Node.muteAll]
    omega
  · simp [Node.parenthesize, Node.setComment]
  · rcases hcases with ⟨rfl, rfl, rfl⟩ | hjoined
    · -- The operator is the root.
      have hmute := weigh_add_le_muteLoad (f := f) hmem (m.mute ++ right.mute)
      rw [owed_eq_zero (nextIs_ne hnext (by decide))] at hbound₂
      simp [Node.parenthesize, Node.setComment, Node.mute, Slot.info] at hmute ⊢
      omega
    · have := hjoined hnext
      simp [Node.mute, Slot.info] at this ⊢
      omega

theorem ListSort.enters_element {sort : ListSort} {s : Scope}
    (h : (Phrase.list sort ns).Enters s before) (n : Node) (ts : List Slot) :
    (sort.element n).Enters s ts := by
  cases sort with
  | operations => exact fun _ _ => h.1
  | expressions | items => trivial

theorem balances_listEnd {sort : ListSort} :
    (Phrase.list sort []).Balances f slots before before none := by
  intro s hs _
  refine ⟨s, ⟨rfl, hs.awaited_eq, by simp [Phrase.isBracketed], fun _ => ?_⟩, trivial⟩
  simp [Phrase.stem, Phrase.trees, Phrase.found, Node.muteAll]

theorem balances_listLast {sort : ListSort}
    (hn : (sort.element n).Balances f slots before after left) :
    (Phrase.list sort [n]).Balances f slots before after none := by
  intro s hs henters
  obtain ⟨s', hin, -⟩ := hn s hs (sort.enters_element henters n before)
  refine ⟨s', ⟨hin.parens_eq, hin.awaited_eq, by simp [Phrase.isBracketed], fun hend => ?_⟩,
    trivial⟩
  have hend := hend rfl
  have hbound := hin.bound fun _ => hend
  rw [owed_eq_zero hend, sort.trees_element, sort.stem_element, sort.found_element] at hbound
  simp [Phrase.stem, Phrase.trees, Phrase.found, Node.muteAll] at hbound ⊢
  omega

theorem balances_listMore {sort : ListSort} (ht : t.token.kind = .comma)
    (hn : (sort.element n).Balances f slots before (t :: mid) left)
    (hns : (Phrase.list sort ns).Balances f slots mid rest none) :
    (Phrase.list sort (n :: ns)).Balances f slots before rest none := by
  intro s hs henters
  obtain ⟨s₁, hin₁, -⟩ := hn s hs (sort.enters_element henters n before)
  -- Behind a comma the scope is that of the parenthesis again.
  have hstep : s₁.step .comma = ⟨s.parens.headD false, false, none, 0, s.parens⟩ := by
    rw [← hin₁.parens_eq]
    rfl
  have henters' : (Phrase.list sort ns).Enters (s₁.step .comma) mid := by
    rw [hstep]
    cases sort with
    | operations => exact ⟨by rw [List.headD_eq_head?_getD, henters.2]; rfl, henters.2⟩
    | expressions | items => trivial
  obtain ⟨s₂, hin₂, -⟩ := hns (s₁.step .comma) ⟨rfl, fun _ => rfl⟩ henters'
  refine ⟨s₂, ⟨by rw [hin₂.parens_eq, hstep], hin₂.awaited_eq, by simp [Phrase.isBracketed],
    fun hend => ?_⟩, trivial⟩
  have hbound₁ := hin₁.bound fun _ => by simp [ht]
  have hbound₂ := hin₂.bound hend
  have hcomma := load_dropped_of_drops (f := f) (s := s₁) ht mid rfl
  have howed : owed f (t :: mid) left = 0 := owed_eq_zero (by simp [ht]) _
  rw [howed, sort.trees_element, sort.stem_element, sort.found_element] at hbound₁
  simp [Phrase.stem, Phrase.trees, Phrase.found, Node.muteAll] at hbound₁ hbound₂ ⊢
  omega

theorem balances_lambda (ht : t.token.kind = .lambda)
    (hn : (Phrase.operation n).Balances f slots mid rest left) :
    (Phrase.expression (.lambda (t.info bytes) n)).Balances f slots (t :: mid) rest left := by
  intro s _ _
  obtain ⟨s', hin, -⟩ := hn (s.step .lambda) ⟨rfl, fun _ => rfl⟩ fun _ _ => rfl
  refine ⟨s', ⟨hin.parens_eq, hin.awaited_eq, fun _ => hin.ready rfl, fun _ => ?_⟩, trivial⟩
  have hbound := hin.bound (by simp [Phrase.isBracketed])
  have hdropped := load_dropped_le (f := f) (s := s) ht mid
  simp [Phrase.stem, Phrase.trees, Phrase.found, Node.muteAll, Node.mute, Slot.info] at hbound ⊢
  omega

theorem balances_bracket (ht : t.token.kind = .lbracket) (hc : c.token.kind = .rbracket)
    (hns : (Phrase.list .items ns).Balances f slots mid (c :: rest) none) :
    (Phrase.expression (.list (t.info bytes) ns)).Balances f slots (t :: mid) rest c.comment := by
  intro s _ _
  obtain ⟨s', hin, -⟩ := hns (s.step .lbracket) ⟨rfl, fun _ => rfl⟩ trivial
  refine ⟨s'.step .rbracket, ⟨hin.parens_eq, rfl, fun _ => ⟨rfl, fun _ => rfl⟩, fun _ => ?_⟩,
    trivial⟩
  have hbound := hin.bound fun _ => by simp [hc]
  have hdropped := load_dropped_le (f := f) (s := s) ht mid
  have hclose := load_dropped_close (f := f) (s := s') hc (.inr rfl) rest
  simp [Phrase.stem, Phrase.trees, Phrase.found, Node.muteAll, Node.mute, Slot.info] at hbound ⊢
  omega

/-- An operation that does not begin with a call is an expression. -/
theorem balances_unnamed
    (hfirst : nextIs .ident before = true → nextIs .lparen before.tail = false)
    (hn : (Phrase.operation n).Balances f slots before after left) :
    (Phrase.expression n).Balances f slots before after left := by
  intro s hs _
  obtain ⟨s', hin, -⟩ := hn s hs fun hi hl => by rw [hfirst hi] at hl; cases hl
  exact ⟨s', ⟨hin.parens_eq, hin.awaited_eq, fun _ => hin.ready rfl,
    fun _ => hin.bound (by simp [Phrase.isBracketed])⟩, trivial⟩

/-- A name and the steps behind it. -/
theorem balances_chained {name : String} (ht : t.token.kind = .ident)
    (hnext : nextIs .lparen mid = false)
    (hn : (Phrase.chain (.identifier ⟨t.info bytes, name⟩) none n).Balances f slots mid rest left) :
    (Phrase.expression n).Balances f slots (t :: mid) rest left := by
  intro s hs _
  have hstep := Scope.step_ident hs.awaited_eq
  have hready : (s.step .ident).Ready mid := by
    rw [hstep]
    exact ⟨rfl, fun h => by rw [hnext] at h; cases h⟩
  obtain ⟨s', hin, -⟩ := hn (s.step .ident) hready trivial
  refine ⟨s', ⟨by rw [hin.parens_eq, hstep], hin.awaited_eq, fun _ => hin.ready rfl,
    fun _ => ?_⟩, trivial⟩
  have hbound := hin.bound (by simp [Phrase.isBracketed])
  have hdropped := load_dropped_le (f := f) (s := s) ht mid
  simp [Phrase.stem, Phrase.trees, Phrase.found, Node.muteAll, Node.mute, Slot.info] at hbound ⊢
  omega

/-- A call and what goes on with it. -/
theorem balances_call_behind (ph : Phrase) {first : Node} {left₁ : Option Comment}
    (hstem : ph.stem = [first]) (hfound : ph.found = left₁) (htrees : ph.trees = [n])
    (henters : ∀ s : Scope, ph.Enters s mid) (hbracketed : ph.isBracketed = false)
    {kind : CallKind} (hf : (Phrase.call kind first).Balances f slots before mid left₁)
    (hn : ph.Balances f slots mid after left) :
    (Phrase.expression n).Balances f slots before after left := by
  intro s hs _
  obtain ⟨s₁, hin₁, -⟩ := hf s hs trivial
  obtain ⟨s₂, hin₂, -⟩ := hn s₁ (hin₁.ready rfl) (henters s₁)
  refine ⟨s₂, ⟨by rw [hin₂.parens_eq, hin₁.parens_eq], hin₂.awaited_eq,
    fun _ => hin₂.ready hbracketed, fun _ => ?_⟩, trivial⟩
  have hbound₁ := hin₁.bound (by simp [Phrase.isBracketed])
  have hbound₂ := hin₂.bound (by simp [hbracketed])
  rw [hstem, hfound, htrees] at hbound₂
  simp [Phrase.stem, Phrase.trees, Phrase.found, Node.muteAll] at hbound₁ hbound₂ ⊢
  omega

theorem balances_chainStep {op : ChainOp} {m right : Node} {left₀ left₁ left₂ : Option Comment}
    {toks : List Slot} (ht : t.token.kind = .chain op)
    (hr : (Phrase.step op right).Balances f slots toks mid left₁)
    (hn : (Phrase.chain (.chain (t.info bytes) op m right) left₁ n).Balances f slots mid rest
      left₂) :
    (Phrase.chain m left₀ n).Balances f slots (t :: toks) rest left₂ := by
  intro s _ _
  obtain ⟨s₁, hin₁, -⟩ := hr (s.step (.chain op)) ⟨rfl, fun _ => rfl⟩ trivial
  obtain ⟨s₂, hin₂, -⟩ := hn s₁ (hin₁.ready rfl) trivial
  refine ⟨s₂, ⟨by rw [hin₂.parens_eq, hin₁.parens_eq]; rfl, hin₂.awaited_eq,
    fun _ => hin₂.ready rfl, fun _ => ?_⟩, trivial⟩
  have hbound₁ := hin₁.bound (by simp [Phrase.isBracketed])
  have hbound₂ := hin₂.bound (by simp [Phrase.isBracketed])
  have hdropped := load_dropped_le (f := f) (s := s) ht toks
  -- The script goes on with this slot, so nothing is owed to its end.
  have howed : owed f (t :: toks) left₀ = 0 := owed_eq_zero (by simp [ht]) _
  simp [Phrase.stem, Phrase.trees, Phrase.found, Node.muteAll, Node.mute, Slot.info]
    at hbound₁ hbound₂ ⊢
  omega

theorem balances_stepName {op : ChainOp} {name : String} (ht : t.token.kind = .ident)
    (hnext : nextIs .lparen rest = false) :
    (Phrase.step op (.identifier ⟨t.info bytes, name⟩)).Balances f slots (t :: rest) rest none := by
  intro s hs _
  have hstep := Scope.step_ident hs.awaited_eq
  have hleaf : (Node.identifier ⟨t.info bytes, name⟩).IsLeaf t.comment :=
    ⟨rfl, fun _ => rfl, rfl, by simp [Node.mute]⟩
  refine ⟨_, accounts_leaf ht hleaf rfl rfl rfl (by rw [hstep]) (by rw [hstep]) ?_, trivial⟩
  intro _
  rw [hstep]
  exact ⟨rfl, fun h => by rw [hnext] at h; cases h⟩

/-- A declaration with a value. The comments before its name and before the equals sign. -/
theorem balances_declare {i e : Slot} {name : String} (ht : t.token.kind = .var)
    (hi : i.token.kind = .ident) (he : e.token.kind = .assign)
    (hn : (Phrase.expression n).Balances f slots mid rest left) :
    (Phrase.statement (.declaration (t.info bytes) ⟨i.info bytes, name⟩ n)).Balances f slots
      (t :: i :: e :: mid) rest left := by
  intro s _ _
  obtain ⟨s', hin, -⟩ := hn (((s.step .var).step .ident).step .assign) ⟨rfl, fun _ => rfl⟩ trivial
  refine ⟨s', ⟨hin.parens_eq, hin.awaited_eq, fun _ => hin.ready rfl, fun _ => ?_⟩, trivial⟩
  have hbound := hin.bound (by simp [Phrase.isBracketed])
  have hvar := load_dropped_le (f := f) (s := s) ht (i :: e :: mid)
  have hname := load_dropped_le (f := f) (s := s.step .var) hi (e :: mid)
  have hassign := load_dropped_of_drops (f := f) (s := (s.step .var).step .ident) he mid rfl
  simp [Phrase.stem, Phrase.trees, Phrase.found, Node.muteAll, Node.mute, Slot.info] at hbound ⊢
  omega

theorem balances_declareType {i y : Slot} {name type : String} (ht : t.token.kind = .var)
    (hi : i.token.kind = .ident) (hy : y.token.kind = .ident) :
    (Phrase.statement (.typeDeclaration (t.info bytes) ⟨i.info bytes, name⟩
      ⟨y.info bytes, type⟩)).Balances f slots (t :: i :: y :: rest) rest none := by
  intro s _ _
  refine ⟨((s.step .var).step .ident).step .ident,
    ⟨rfl, rfl, fun _ => ⟨rfl, fun _ => rfl⟩, fun _ => ?_⟩, trivial⟩
  have hvar := load_dropped_le (f := f) (s := s) ht (i :: y :: rest)
  have hname := load_dropped_le (f := f) (s := s.step .var) hi (y :: rest)
  have htype := load_dropped_le (f := f) (s := (s.step .var).step .ident) hy rest
  simp [Phrase.stem, Phrase.trees, Phrase.found, Node.muteAll, Node.mute, Slot.info]
  omega

/-- The end of a script, which keeps what is left over. -/
theorem balances_done (ht : t.token.kind = .eof) :
    (Phrase.statements left ((left.toList ++ t.comment.toList).map .comment)).Balances f slots
      (t :: rest) (t.bare :: rest) none := by
  intro s hs _
  refine ⟨s, ⟨rfl, hs.awaited_eq, fun _ => ⟨hs.awaited_eq, fun h => ?_⟩, fun _ => ?_⟩, trivial⟩
  · simp [ht] at h
  -- The comments become nodes at the end, and the slot of the end is left without its own.
  · have hweight := Node.weightAll_trailing (f := f) left t.comment
    have hdropped := load_dropped_le (f := f) (s := s) ht rest
    have hbare : load f (s.dropped (t.bare :: rest)) = load f ((s.step .eof).dropped rest) := by
      rw [load_dropped_cons, Slot.bare_token, ht]
      simp [Slot.bare]
    have howed := owed_le (f := f) (t :: rest) left
    have hnone : weigh f t.bare.comment = 0 := rfl
    simp only [Phrase.stem, Phrase.trees, Phrase.found, Node.muteAll, Node.weightAll_nil,
      muteLoad_nil, load_cons, hweight]
    omega

theorem balances_more {ns : List Node} {left₀ left₁ left₂ : Option Comment}
    (ht : nextIs .eof before = false) (hn : (Phrase.statement n).Balances f slots before mid left₁)
    (hns : (Phrase.statements left₁ ns).Balances f slots mid after left₂) :
    (Phrase.statements left₀ (n :: ns)).Balances f slots before after left₂ := by
  intro s hs _
  obtain ⟨s₁, hin₁, -⟩ := hn s hs trivial
  obtain ⟨s₂, hin₂, -⟩ := hns s₁ (hin₁.ready rfl) trivial
  refine ⟨s₂, ⟨by rw [hin₂.parens_eq, hin₁.parens_eq], hin₂.awaited_eq, fun _ => hin₂.ready rfl,
    fun _ => ?_⟩, trivial⟩
  have hbound₁ := hin₁.bound (by simp [Phrase.isBracketed])
  have hbound₂ := hin₂.bound (by simp [Phrase.isBracketed])
  have howed := owed_eq_zero (f := f) ht left₀
  simp [Phrase.stem, Phrase.trees, Phrase.found, Node.muteAll] at hbound₁ hbound₂ ⊢
  omega

end

/-- **Every phrase accounts for the comments before its slots.** -/
theorem Reads.balances {bytes : List UInt8} {ph : Phrase} {before after : List Slot}
    {left : Option Comment} (h : Reads bytes ph before after left) (f : Comment → Nat)
    {slots : List Slot} (hmem : ∀ t ∈ before, t ∈ slots) :
    ph.Balances f slots before after left := by
  induction h with
  | @paren t c mid rest n left ht hn hc ih =>
    rw [List.forall_mem_cons] at hmem
    refine balances_paren ht hc ?_ (ih hmem.2)
    rw [hn.behindParens_eq, behindParens, if_neg (by simp [hc]), if_pos hc, if_pos rfl]
  | number ht | bool ht | star ht | reference ht =>
    exact balances_literal (by simp [ht, Node.literalKinds])
      ⟨rfl, fun _ => rfl, rfl, by simp [Node.mute, Node.referenceOfText]⟩
  | string ht hn =>
    exact balances_literal (by simp [ht, Node.literalKinds]) (Node.isLeaf_of_stringOfText? hn)
  | duration ht hn =>
    exact balances_literal (by simp [ht, Node.literalKinds]) (Node.isLeaf_of_durationOfText hn)
  | regex ht hn =>
    exact balances_literal (by simp [ht, Node.literalKinds]) (Node.isLeaf_of_regexOfText hn)
  | name ht hb => exact balances_name ht (by simpa using hb)
  | applied ht ho _ hc ih =>
    simp only [List.forall_mem_cons] at hmem
    exact balances_applied ht ho hc (ih hmem.2.2)
  | unary ht _ ih =>
    rw [List.forall_mem_cons] at hmem
    exact balances_unary ht hmem.1 (ih hmem.2)
  | operation hf _ ihf ihn =>
    exact balances_operation (ihf hmem) (ihn (hf.forall_mem_after rfl hmem))
  | stop => exact balances_stop
  | join ht _ hf hr _ ihf ihr ihn =>
    rw [List.forall_mem_cons] at hmem
    have hmid := hf.forall_mem_after rfl hmem.2
    exact balances_join ht hmem.1 (ihf hmem.2) (ihr hmid) (ihn (hr.forall_mem_after rfl hmid))
  | itemName ht =>
    exact balances_item (by simp [ht]) ⟨rfl, fun _ => rfl, rfl, by simp [Node.mute]⟩
  | itemString ht hn => exact balances_item (by simp [ht]) (Node.isLeaf_of_stringOfText? hn)
  | itemStar ht => exact balances_item (by simp [ht]) ⟨rfl, fun _ => rfl, rfl, by simp [Node.mute]⟩
  | listEnd => exact balances_listEnd
  | listLast _ _ _ ih => exact balances_listLast (ih hmem)
  | listMore _ hn ht _ ih ihs =>
    have hmid := hn.forall_mem_after (ListSort.isWhole_element _ _) hmem
    exact balances_listMore ht (ih hmem) (ihs (List.forall_mem_cons.1 hmid).2)
  | lambda ht _ ih => exact balances_lambda ht (ih (List.forall_mem_cons.1 hmem).2)
  | bracket ht _ hc ih => exact balances_bracket ht hc (ih (List.forall_mem_cons.1 hmem).2)
  | unnamed hi _ _ _ ih => exact balances_unnamed (by simp [hi]) (ih hmem)
  | named _ hb _ _ ih => exact balances_unnamed (by simp [hb]) (ih hmem)
  | chained ht hc _ ih =>
    refine balances_chained ht ?_ (ih (List.forall_mem_cons.1 hmem).2)
    rw [nextIs_cons, beq_eq_false_iff_ne]
    intro hb
    rw [hb] at hc
    cases hc
  | callChained _ _ hf _ _ ihf ihn =>
    exact balances_call_behind (.chain _ _ _) rfl rfl rfl (fun _ => trivial) rfl (ihf hmem)
      (ihn (hf.forall_mem_after rfl hmem))
  | callJoined _ _ hf _ _ ihf ihn =>
    exact balances_call_behind (.climb _ _ _ _) rfl rfl rfl (fun _ => trivial) rfl (ihf hmem)
      (ihn (hf.forall_mem_after rfl hmem))
  | chainEnd =>
    intro s hs _
    refine ⟨s, ⟨rfl, hs.awaited_eq, fun _ => hs, fun _ => ?_⟩, trivial⟩
    simp [Phrase.stem, Phrase.trees, Phrase.found]
    omega
  | chainStep ht hr _ ihr ihn =>
    have hmid := (List.forall_mem_cons.1 hmem).2
    exact balances_chainStep ht (ihr hmid) (ihn (hr.forall_mem_after rfl hmid))
  | stepCall _ _ ih | express _ _ ih =>
    intro s hs _
    obtain ⟨s', hin, -⟩ := ih hmem s hs trivial
    exact ⟨s', ⟨hin.parens_eq, hin.awaited_eq, hin.ready, hin.bound⟩, trivial⟩
  | stepName _ ht hb => exact balances_stepName ht (by simpa using hb)
  | function ht ho _ hc ih =>
    simp only [List.forall_mem_cons] at hmem
    exact balances_function ht ho hc (ih hmem.2.2)
  | declare ht hi he _ ih =>
    simp only [List.forall_mem_cons] at hmem
    exact balances_declare ht hi he (ih hmem.2.2.2)
  | declareType ht hi hy => exact balances_declareType ht hi hy
  | done ht => exact balances_done ht
  | more ht hn _ ihn ihs =>
    exact balances_more (by simpa using ht) (ihn hmem) (ihs (hn.forall_mem_after rfl hmem))

end PipelineScript

import Mathlib.Logic.Relation
import PipelineScript.Node.Same
import PipelineScript.Proofs.Children
import PipelineScript.Proofs.Floats

/-!
Equality of meaning as equality of erased trees.

A tree is erased by putting one fixed value wherever it tells how it was written: no place and no
comment, no parentheses and line breaks, base ten, no spelling, and the positive zero for both
zeros. Trees without NaNs have the same meaning exactly if they are the same tree when they are
erased (`same_iff_erase_eq`). So the comparison, written out kind by kind, is an equivalence on
these trees, and a tree, with NaNs or without, compares as every other tree does that differs from
it in its comments and its layout only (`Restyled`).
-/
namespace PipelineScript

section

variable {engine : PatternEngine}

/-! ## Numbers -/

namespace Binary64

/-- The value, with one zero for both. -/
def erase (x : Binary64) : Binary64 := if x.isZero then zero false else x

theorem isNaN_of_isZero {x : Binary64} (h : x.isZero = true) : x.isNaN = false := by
  rw [isZero, Bool.and_eq_true, beq_iff_eq] at h
  simp [isNaN, h.1, topField]

@[simp] theorem isZero_erase (x : Binary64) : x.erase.isZero = x.isZero := by
  have hzero : (zero false).isZero = true := by decide
  rw [erase]
  split
  · rename_i h
    rw [h, hzero]
  · rfl

@[simp] theorem isNaN_erase (x : Binary64) : x.erase.isNaN = x.isNaN := by
  rw [erase]
  split
  · rename_i h
    rw [isNaN_of_isZero h]
    decide
  · rfl

/-- Two values compare as equal exactly if they are one number up to the sign of zero. -/
theorem same_iff (x y : Binary64) : x.same y = true ↔ x.erase = y.erase ∧ x.isNaN = false := by
  constructor
  · intro h
    simp only [same, Bool.and_eq_true, Bool.or_eq_true, Bool.not_eq_true', beq_iff_eq] at h
    obtain ⟨⟨hx, -⟩, hbits | ⟨hxzero, hyzero⟩⟩ := h
    · exact ⟨congrArg (fun bits => erase ⟨bits⟩) hbits, hx⟩
    · exact ⟨by rw [erase, erase, if_pos hxzero, if_pos hyzero], hx⟩
  · rintro ⟨he, hx⟩
    have hy : y.isNaN = false := by rw [← isNaN_erase, ← he, isNaN_erase, hx]
    have hzero : x.isZero = y.isZero := by rw [← isZero_erase, he, isZero_erase]
    cases hxzero : x.isZero with
    | true => simp [same, hx, hy, hxzero, ← hzero]
    | false =>
      have hyzero : ¬y.isZero = true := by simp [← hzero, hxzero]
      rw [erase, erase, if_neg (by simp [hxzero]), if_neg hyzero] at he
      simp [same, hy, he]

end Binary64

namespace Number

/-- The number in base ten. -/
def erase : Number → Number
  | .int value _ => .int value Node.decimalBase
  | .float x => .float x.erase

/-- A binary64 value that is no number. -/
def isNaN : Number → Bool
  | .int _ _ => false
  | .float x => x.isNaN

@[simp] theorem isNaN_erase (a : Number) : a.erase.isNaN = a.isNaN := by
  cases a with
  | int value base => rfl
  | float x => exact x.isNaN_erase

theorem same_iff (a b : Number) : a.same b = true ↔ a.erase = b.erase ∧ a.isNaN = false := by
  cases a <;> cases b <;> simp [same, erase, isNaN, Binary64.same_iff]

end Number

/-- A pattern is known by its text. -/
theorem Pattern.text_inj {p q : Pattern} : p.text = q.text ↔ p = q := by
  cases p
  cases q
  simp

namespace Node

/-! ## Erased trees -/

mutual

/-- The tree without what tells how it was written. -/
def erase : Node → Node
  | .number _ value => .number .built value.erase
  | .duration _ span _ => .ofDuration span
  | .bool _ value => .ofBool value
  | .string _ literal _ => .ofString literal
  | .regex _ pattern _ => .regex .built pattern ""
  | .reference _ name => .ofReference name
  | .star _ => .ofStar
  | .list _ items => .ofList (eraseAll items)
  | .unary _ op operand => .ofUnary op (erase operand)
  | .binary _ op left right _ _ => .ofBinary op (erase left) (erase right)
  | .identifier ident => .ofName ident.name
  | .chain _ op left right => .chain .built op (erase left) (erase right)
  | .func _ kind name args _ => .ofCall kind name (eraseAll args)
  | .lambda _ body => .ofLambda (erase body)
  | .declaration _ name value => .ofDeclaration name.name (erase value)
  | .typeDeclaration _ name type => .ofTypeDeclaration name.name type.name
  | .program _ statements => .ofStatements (eraseAll statements)
  | .comment _ => .ofCommentLines []
termination_by structural n => n

/-- The trees without what tells how they were written. -/
def eraseAll : List Node → List Node
  | [] => []
  | n :: ns => erase n :: eraseAll ns
termination_by structural ns => ns

end

theorem eraseAll_eq (ns : List Node) : eraseAll ns = ns.map erase := by
  induction ns with
  | nil => rfl
  | cons n ns ih => rw [eraseAll, ih, List.map_cons]

@[simp] theorem kind_erase (n : Node) : n.erase.kind = n.kind := by cases n <;> rfl

/-- The children of an erased node are its children, erased. -/
theorem children_erase (n : Node) :
    n.erase.children.map Child.node = (n.children.map Child.node).map erase := by
  cases n with
  | program | func | list =>
    rw [children, map_node_any, ← eraseAll_eq]
    exact map_node_any _
  | _ => rfl

/-- A number that is a NaN. -/
def isNaN : Node → Bool
  | .number _ value => value.isNaN
  | _ => false

/-- A tree with a NaN somewhere in it. -/
def hasNaN (n : Node) : Bool := n.preorder.any isNaN

theorem hasNaN_eq (n : Node) : n.hasNaN = (n.isNaN || (n.children.map Child.node).any hasNaN) := by
  rw [hasNaN, preorder_eq, List.any_cons, List.any_flatMap]
  rfl

theorem isNaN_erase (n : Node) : n.erase.isNaN = n.isNaN := by
  cases n with
  | number info value => exact value.isNaN_erase
  | _ => rfl

/-- Erasing keeps every NaN. -/
theorem hasNaN_erase (n : Node) : n.erase.hasNaN = n.hasNaN := by
  rw [hasNaN_eq, isNaN_erase, children_erase, hasNaN_eq n, List.any_map]
  congr 1
  rw [Bool.eq_iff_iff, List.any_eq_true, List.any_eq_true]
  refine exists_congr fun m => and_congr_right fun hm => ?_
  obtain ⟨c, hc, rfl⟩ := List.mem_map.1 hm
  have := length_preorder_lt hc
  rw [Function.comp_apply, hasNaN_erase c.node]
termination_by n.preorder.length

/-! ## The comparison -/

/-- Trees of different kinds neither have the same meaning nor are one tree when they are erased. -/
theorem same_iff_of_kind_ne {m n : Node} {p : Prop} (h : m.kind ≠ n.kind) :
    m.same n = true ↔ m.erase = n.erase ∧ p := by
  have hsame : m.same n = false := by
    cases m <;> cases n <;> first | rfl | exact absurd rfl h
  have herase : m.erase ≠ n.erase := fun he => h (by rw [← kind_erase m, he, kind_erase])
  simp [hsame, herase]

mutual

/-- One case for each kind of the first tree; the second one is of the same kind or differs. -/
theorem same_iff : (m n : Node) → (m.same n = true ↔ m.erase = n.erase ∧ m.hasNaN = false)
  | .number _ a, n => by
    cases n with
    | number _ b => simp [same, erase, hasNaN_eq, isNaN, children, a.same_iff b]
    | _ => exact same_iff_of_kind_ne nofun
  | .duration .., n => by
    cases n with
    | duration => simp [same, erase, ofDuration, hasNaN_eq, isNaN, children]
    | _ => exact same_iff_of_kind_ne nofun
  | .bool .., n => by
    cases n with
    | bool => simp [same, erase, ofBool, hasNaN_eq, isNaN, children]
    | _ => exact same_iff_of_kind_ne nofun
  | .string .., n => by
    cases n with
    | string => simp [same, erase, ofString, hasNaN_eq, isNaN, children]
    | _ => exact same_iff_of_kind_ne nofun
  | .regex _ p _, n => by
    cases n with
    | regex _ q _ => simp [same, erase, hasNaN_eq, isNaN, children, Pattern.text_inj]
    | _ => exact same_iff_of_kind_ne nofun
  | .reference .., n => by
    cases n with
    | reference => simp [same, erase, ofReference, hasNaN_eq, isNaN, children]
    | _ => exact same_iff_of_kind_ne nofun
  | .star _, n => by
    cases n with
    | star => simp [same, erase, hasNaN_eq, isNaN, children]
    | _ => exact same_iff_of_kind_ne nofun
  | .list _ items, n => by
    cases n with
    | list _ items' =>
      simp [same, erase, ofList, hasNaN_eq (.list ..), isNaN, children, sameAll_iff items items']
    | _ => exact same_iff_of_kind_ne nofun
  | .unary _ _ operand, n => by
    cases n with
    | unary _ _ operand' =>
      simp [same, erase, ofUnary, hasNaN_eq (.unary ..), isNaN, children, same_iff operand operand',
        and_assoc]
    | _ => exact same_iff_of_kind_ne nofun
  | .binary _ _ left right _ _, n => by
    cases n with
    | binary _ _ left' right' _ _ =>
      simp [same, erase, ofBinary, hasNaN_eq (.binary ..), isNaN, children,
        same_iff left left', same_iff right right', and_assoc, and_left_comm]
    | _ => exact same_iff_of_kind_ne nofun
  | .identifier _, n => by
    cases n with
    | identifier => simp [same, erase, ofName, Identifier.ofName, hasNaN_eq, isNaN, children]
    | _ => exact same_iff_of_kind_ne nofun
  | .chain _ _ left right, n => by
    cases n with
    | chain _ _ left' right' =>
      simp [same, erase, hasNaN_eq (.chain ..), isNaN, children,
        same_iff left left', same_iff right right', and_assoc, and_left_comm]
    | _ => exact same_iff_of_kind_ne nofun
  | .func _ _ _ args _, n => by
    cases n with
    | func _ _ _ args' _ =>
      simp [same, erase, ofCall, hasNaN_eq (.func ..), isNaN, children, sameAll_iff args args',
        and_assoc]
    | _ => exact same_iff_of_kind_ne nofun
  | .lambda _ body, n => by
    cases n with
    | lambda _ body' =>
      simp [same, erase, ofLambda, hasNaN_eq (.lambda ..), isNaN, children, same_iff body body']
    | _ => exact same_iff_of_kind_ne nofun
  | .declaration _ _ value, n => by
    cases n with
    | declaration _ _ value' =>
      simp [same, erase, ofDeclaration, Identifier.ofName, hasNaN_eq (.declaration ..),
        hasNaN_eq (.identifier ..), isNaN, children, same_iff value value', and_assoc]
    | _ => exact same_iff_of_kind_ne nofun
  | .typeDeclaration .., n => by
    cases n with
    | typeDeclaration =>
      simp [same, erase, ofTypeDeclaration, Identifier.ofName, hasNaN_eq, isNaN, children]
    | _ => exact same_iff_of_kind_ne nofun
  | .program _ statements, n => by
    cases n with
    | program _ statements' =>
      simp [same, erase, ofStatements, hasNaN_eq (.program ..), isNaN, children,
        sameAll_iff statements statements']
    | _ => exact same_iff_of_kind_ne nofun
  | .comment _, n => by
    cases n with
    | comment => simp [same, erase, hasNaN_eq, isNaN, children]
    | _ => exact same_iff_of_kind_ne nofun
termination_by structural m => m

theorem sameAll_iff : (ms ns : List Node) →
    (sameAll ms ns = true ↔ eraseAll ms = eraseAll ns ∧ ∀ m ∈ ms, m.hasNaN = false)
  | [], [] => by simp [sameAll]
  | [], n :: ns => by simp [sameAll, eraseAll]
  | m :: ms, [] => by simp [sameAll, eraseAll]
  | m :: ms, n :: ns => by
    simp [sameAll, eraseAll, same_iff m n, sameAll_iff ms ns, and_assoc, and_left_comm]
termination_by structural ms => ms

end

/-! ## Other comments and another layout -/

/-- The node at another place. -/
def moveTo (position : Position) : Node → Node
  | .number info value => .number { info with position } value
  | .duration info span literal => .duration { info with position } span literal
  | .bool info value => .bool { info with position } value
  | .string info literal triple => .string { info with position } literal triple
  | .regex info pattern literal => .regex { info with position } pattern literal
  | .reference info name => .reference { info with position } name
  | .star info => .star { info with position }
  | .list info items => .list { info with position } items
  | .unary info op operand => .unary { info with position } op operand
  | .binary info op left right parenthesized broken =>
    .binary { info with position } op left right parenthesized broken
  | .identifier ident => .identifier { ident with info := { ident.info with position } }
  | .chain info op left right => .chain { info with position } op left right
  | .func info kind name args broken => .func { info with position } kind name args broken
  | .lambda info body => .lambda { info with position } body
  | .declaration info name value => .declaration { info with position } name value
  | .typeDeclaration info name type => .typeDeclaration { info with position } name type
  | .program _ statements => .program position statements
  | .comment block => .comment { block with position }

/-- One change, anywhere in a tree, of how it is written. -/
inductive Retouched : Node → Node → Prop
  | comment (n : Node) (c : Option Comment) : Retouched n (n.setComment c)
  | place (n : Node) (position : Position) : Retouched n (n.moveTo position)
  | base (info : Info) (value : Int64) (base base' : UInt32) :
    Retouched (.number info (.int value base)) (.number info (.int value base'))
  | spelling (info : Info) (span : Duration) (literal literal' : String) :
    Retouched (.duration info span literal) (.duration info span literal')
  | quotes (info : Info) (literal : String) (triple triple' : Bool) :
    Retouched (.string info literal triple) (.string info literal triple')
  | slashes (info : Info) (pattern : Pattern) (literal literal' : String) :
    Retouched (.regex info pattern literal) (.regex info pattern literal')
  | parentheses (info : Info) (op : BinaryOp) (left right : Node)
      (parenthesized parenthesized' broken : Bool) :
    Retouched (.binary info op left right parenthesized broken)
      (.binary info op left right parenthesized' broken)
  | operandLine (info : Info) (op : BinaryOp) (left right : Node)
      (parenthesized broken broken' : Bool) :
    Retouched (.binary info op left right parenthesized broken)
      (.binary info op left right parenthesized broken')
  | argumentLines (info : Info) (kind : CallKind) (name : String) (args : List Node)
      (broken broken' : Bool) :
    Retouched (.func info kind name args broken) (.func info kind name args broken')
  | lines (position : Position) (lines lines' : List String) :
    Retouched (.comment ⟨position, lines⟩) (.comment ⟨position, lines'⟩)
  /-- A child is retouched in its place, and the other children stay. -/
  | child {n m m' : Node} {before behind : List Node}
      (children : n.children.map Child.node = before ++ m :: behind) (retouched : Retouched m m') :
    Retouched n (n.withChildren (before ++ m' :: behind))

/-- The second tree is the first one with other comments and another layout. -/
def Restyled : Node → Node → Prop := Relation.ReflTransGen Retouched

theorem erase_setComment (c : Option Comment) (n : Node) : (n.setComment c).erase = n.erase := by
  cases n <;> rfl

theorem erase_moveTo (position : Position) (n : Node) : (n.moveTo position).erase = n.erase := by
  cases n <;> rfl

/-- A node that erases to a name is one. -/
theorem eq_identifier_of_erase {n : Node} {ident : Identifier}
    (h : n.erase = (Node.identifier ident).erase) :
    ∃ ident', n = .identifier ident' ∧ ident'.name = ident.name := by
  cases n with
  | identifier ident' => exact ⟨ident', rfl, by simpa [erase, ofName, Identifier.ofName] using h⟩
  | _ => exact absurd (congrArg kind h) nofun

/-- A node that gets children like its own when they are erased is like itself when it is erased. -/
theorem erase_withChildren {n : Node} {ns : List Node}
    (h : ns.map erase = (n.children.map Child.node).map erase) :
    (n.withChildren ns).erase = n.erase := by
  cases n with
  | program | func | list =>
    rw [children, map_node_any, ← eraseAll_eq, ← eraseAll_eq] at h
    simp only [withChildren, erase, h]
  | declaration info name value =>
    obtain ⟨a, b, rfl⟩ := List.length_eq_two.1 (by simpa [children] using congrArg List.length h)
    obtain ⟨ha, hb⟩ : a.erase = (Node.identifier name).erase ∧ b.erase = value.erase := by
      simpa [children] using h
    obtain ⟨name', rfl, hname⟩ := eq_identifier_of_erase ha
    simp only [withChildren, erase, hname, hb]
  | typeDeclaration info name type =>
    obtain ⟨a, b, rfl⟩ := List.length_eq_two.1 (by simpa [children] using congrArg List.length h)
    obtain ⟨ha, hb⟩ :
        a.erase = (Node.identifier name).erase ∧ b.erase = (Node.identifier type).erase := by
      simpa [children] using h
    obtain ⟨name', rfl, hname⟩ := eq_identifier_of_erase ha
    obtain ⟨type', rfl, htype⟩ := eq_identifier_of_erase hb
    simp only [withChildren, erase, hname, htype]
  | chain info op left right | binary info op left right =>
    obtain ⟨a, b, rfl⟩ := List.length_eq_two.1 (by simpa [children] using congrArg List.length h)
    obtain ⟨ha, hb⟩ : a.erase = left.erase ∧ b.erase = right.erase := by simpa [children] using h
    simp only [withChildren, erase, ha, hb]
  | lambda info body | unary info op body =>
    obtain ⟨a, rfl⟩ := List.length_eq_one_iff.1 (by simpa [children] using congrArg List.length h)
    have ha : a.erase = body.erase := by simpa [children] using h
    simp only [withChildren, erase, ha]
  | _ => rfl

theorem Retouched.erase_eq {m n : Node} (h : Retouched m n) : n.erase = m.erase := by
  induction h with
  | comment n c => exact erase_setComment c n
  | place n position => exact erase_moveTo position n
  | child hchildren _ ih =>
    refine erase_withChildren ?_
    rw [hchildren, List.map_append, List.map_append, List.map_cons, List.map_cons, ih]
  | _ => rfl

theorem Restyled.erase_eq {m n : Node} (h : Restyled m n) : n.erase = m.erase := by
  induction h with
  | refl => rfl
  | tail _ h ih => rw [h.erase_eq, ih]

/-- What the comparison of two trees says is known from the trees when they are erased. -/
theorem same_congr {m m' n n' : Node} (hm : m'.erase = m.erase) (hn : n'.erase = n.erase) :
    m'.same n' = m.same n := by
  rw [Bool.eq_iff_iff, same_iff, same_iff, hm, hn, ← hasNaN_erase m', hm, hasNaN_erase]

/-- Trees without NaNs have the same meaning exactly if they are one tree when they are erased; on
these trees the comparison is an equivalence; and the comparison of any two trees comes out as that
of the same trees with other comments and another layout, wherever these are in the trees. -/
theorem same_iff_erase_eq :
    (∀ m n : Node, m.hasNaN = false → n.hasNaN = false →
      (m.same n = true ↔ m.erase = n.erase)) ∧
    Equivalence (fun m n : { n : Node // n.hasNaN = false } => m.1.same n.1 = true) ∧
    ∀ m m' n n' : Node, Restyled m m' → Restyled n n' → m'.same n' = m.same n := by
  have heq : ∀ m n : Node, m.hasNaN = false → (m.same n = true ↔ m.erase = n.erase) := by
    intro m n hm
    rw [same_iff, and_iff_left hm]
  refine ⟨fun m n hm _ => heq m n hm, ⟨?_, ?_, ?_⟩, ?_⟩
  · rintro ⟨n, hn⟩
    exact (heq n n hn).2 rfl
  · rintro ⟨m, hm⟩ ⟨n, hn⟩ h
    exact (heq n m hn).2 ((heq m n hm).1 h).symm
  · rintro ⟨l, hl⟩ ⟨m, hm⟩ ⟨n, hn⟩ hlm hmn
    exact (heq l n hl).2 (((heq l m hl).1 hlm).trans ((heq m n hm).1 hmn))
  · intro m m' n n' hm hn
    exact same_congr hm.erase_eq hn.erase_eq

end Node

end

namespace Node

open scoped PatternEngine

/-- A declaration of an octal number times a list with the negative zero, in parentheses and under a
comment, and the one that is built with a decimal number and the positive zero. A list with a NaN is
not the same as itself, and neither is it when its number is respelled. -/
theorem same_iff_erase_eq_octal :
    let octal := Node.number ⟨⟨10, 2, 3⟩, none⟩ (.int 8 octalBase)
    let read := Node.declaration ⟨⟨4, 2, 1⟩, some ⟨⟨0, 1, 1⟩, ["n"]⟩⟩ ⟨⟨⟨8, 2, 5⟩, none⟩, "x"⟩
      (.binary .built .multiply octal (.ofList [.ofFloat (.zero true)]) true true)
    let built := Node.ofDeclaration "x"
      (.ofBinary .multiply (.ofInt 8) (.ofList [.ofFloat (.zero false)]))
    let nan := Node.ofFloat ⟨0x7FF8000000000000⟩
    (read.hasNaN = false ∧ built.hasNaN = false ∧ read.same built = true) ∧
      built.same read = true ∧
      Restyled (.ofList [nan, octal]) (.ofList [nan, .ofInt 8]) ∧
      (Node.ofList [nan, .ofInt 8]).same (.ofList [nan, octal]) = false := by
  intro octal read built nan
  obtain ⟨iff, equivalence, restyled⟩ := same_iff_erase_eq
  have hread : read.hasNaN = false := by decide
  have hbuilt : built.hasNaN = false := by decide
  have hsame : read.same built = true := (iff read built hread hbuilt).2 rfl
  have hplace : Retouched octal (octal.moveTo .nowhere) := .place octal .nowhere
  have hbase : Retouched (octal.moveTo .nowhere) (.ofInt 8) := .base .built 8 octalBase decimalBase
  have hlist : Restyled (.ofList [nan, octal]) (.ofList [nan, .ofInt 8]) := by
    have hitems : ∀ n, (Node.ofList [nan, n]).children.map Child.node = [nan] ++ n :: [] :=
      fun _ => rfl
    exact (Relation.ReflTransGen.single (.child (hitems _) hplace)).tail (.child (hitems _) hbase)
  have hself : (Node.ofList [nan, octal]).same (.ofList [nan, octal]) = false := by decide
  exact ⟨⟨hread, hbuilt, hsame⟩, equivalence.symm (x := ⟨read, hread⟩) (y := ⟨built, hbuilt⟩) hsame,
    hlist, (restyled _ _ _ _ hlist .refl).trans hself⟩

end Node

end PipelineScript

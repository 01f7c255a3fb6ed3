import PipelineScript.Json.Codec
import PipelineScript.Node.Preorder
import PipelineScript.Node.Same
import PipelineScript.Proofs.Floats

/-!
Reading back a node that was written as JSON.

Reading has two halves, and each is followed along what was written. The schema gives a record back
unless a binary64 value in it is not finite, because JSON has only `null` for such a value
(`Record.reread_gives`). The record then gives a node back unless JSON holds something that a built
node cannot be: an integer in another base, a span that no literal may spell, or a chain that ends
in neither a call nor a name (`Record.toNode_gives`). The node that is read back is `Node.rebuilt`,
the same tree without places, comments and layout.
-/
namespace PipelineScript

section

variable {engine : PatternEngine}

/-! ## Outcomes under a condition -/

/-- The outcome is the value `a` if the condition holds, and some failure otherwise. -/
def GivesIff {ε α : Type} (x : Except ε α) (p : Bool) (a : α) : Prop :=
  ∀ b, x = .ok b ↔ p = true ∧ b = a

namespace GivesIff

variable {ε α β : Type} {x : Except ε α} {p q : Bool} {a : α} {b : β}

theorem ok (a : α) : GivesIff (.ok a : Except ε α) true a := by
  intro c
  simp [eq_comm]

theorem error (e : ε) (a : α) : GivesIff (.error e) false a := by
  intro c
  simp

theorem eq_ok (h : GivesIff x p a) (hp : p = true) : x = .ok a := (h a).2 ⟨hp, rfl⟩

theorem eq_error (h : GivesIff x p a) (hp : p = false) : ∃ e, x = .error e := by
  cases hx : x with
  | error e => exact ⟨e, rfl⟩
  | ok c =>
    have := ((h c).1 hx).1
    rw [hp] at this
    cases this

/-- A computation goes on with the one value that its first step can give. -/
theorem bind {f : α → Except ε β} (hx : GivesIff x p a) (hf : GivesIff (f a) q b) :
    GivesIff (x >>= f) (p && q) b := by
  intro c
  cases hp : p with
  | false =>
    obtain ⟨e, rfl⟩ := hx.eq_error hp
    exact GivesIff.error e b c
  | true =>
    rw [hx.eq_ok hp, Bool.true_and]
    exact hf c

theorem map {f : α → β} (hx : GivesIff x p a) : GivesIff (x.map f) p (f a) := by
  intro c
  cases hp : p with
  | false =>
    obtain ⟨e, rfl⟩ := hx.eq_error hp
    exact GivesIff.error e (f a) c
  | true =>
    rw [hx.eq_ok hp]
    exact GivesIff.ok (f a) c

/-- A computation that ends with the value of its one step. -/
theorem bind_pure {f : α → β} (hx : GivesIff x p a) :
    GivesIff (x >>= fun c => pure (f c)) p (f a) := by
  have h : GivesIff (pure (f a) : Except ε β) true (f a) := .ok (f a)
  rw [← Bool.and_true p]
  exact hx.bind h

theorem mapError {ε' : Type} {f : ε → ε'} (hx : GivesIff x p a) : GivesIff (x.mapError f) p a := by
  intro c
  rw [← hx c]
  cases x <;> simp [Except.mapError]

/-- Another spelling of the condition. -/
theorem of_eq (hx : GivesIff x p a) (h : q = p) : GivesIff x q a := h ▸ hx

end GivesIff

namespace Json

/-! ## The schema -/

namespace Reading

theorem int_ofInt (n : Int64) : (Record.reading (.ofInt n)).int = .ok n := by
  have hle := n.le_toInt
  have hlt := n.toInt_lt
  rw [Value.ofInt]
  split
  · rfl
  -- What is not negative is written without a sign and is below the bound of the signed values.
  · rename_i hneg
    have hsmall : (UInt64.ofNat n.toInt.toNat).toNat = n.toInt.toNat := by
      rw [UInt64.toNat_ofNat']
      omega
    have hbound : n.toInt.toNat < 0x8000000000000000 := by omega
    have hback : Int64.ofNat n.toInt.toNat = n := by
      have hnat : (n.toInt.toNat : Int) = n.toInt := by omega
      rw [← Int64.toInt_inj, Int64.toInt_ofNat', hnat]
      exact Int64.toInt_bmod_size n
    simp only [Record.reading, int, hsmall, hbound, if_true, hback]

theorem float_ofFloat (x : Binary64) :
    GivesIff (Record.reading (.ofFloat x)).float x.isFinite x := by
  cases hx : x.isFinite with
  | true =>
    rw [Value.ofFloat, if_pos hx]
    exact GivesIff.ok x
  | false =>
    rw [Value.ofFloat, if_neg (by simp [hx])]
    exact GivesIff.error _ x

theorem textItems_map (lines : List String) : textItems (lines.map .string) = .ok lines := by
  induction lines with
  | nil => rfl
  | cons line lines ih => simp [textItems, ih, Except.map]

end Reading

namespace Record

/-- The kind that a record is written with. -/
def kind : Record → NodeKind
  | .number .. => .number
  | .duration _ => .duration
  | .bool _ => .bool
  | .unary .. => .unary
  | .binary .. => .binary
  | .declaration .. => .declaration
  | .typeDeclaration .. => .typeDeclaration
  | .chain .. => .chain
  | .identifier _ => .identifier
  | .reference _ => .reference
  | .string _ => .string
  | .list _ => .list
  | .regex _ => .regex
  | .star => .star
  | .func .. => .func
  | .lambda _ => .lambda
  | .program _ => .program
  | .comment _ => .comment

/-- The fields that a record is written with, without the kind. -/
def entries (r : Record) : List (String × Value) :=
  match r.toValue with
  | .object fields => fields.dropLast
  | _ => []

theorem toValue_eq (r : Record) : r.toValue = .object (r.entries ++ [kindEntry r.kind]) := by
  cases r <;> rfl

/-- The record that fields make once their kind is known. -/
def assemble (kind : NodeKind) (fields : List (String × Reading)) : Except SchemaError Record :=
  match firstFault? kind fields with
  | some e => .error e
  | none => (Supply.ofFields fields).build kind

/-- The record that is read from what another one is written as. -/
def reread (r : Record) : Except SchemaError Record := assemble r.kind (fieldReadings r.entries)

theorem ofFields_entries (indexed : Bool) (r : Record) :
    ofFields indexed (fieldReadings (r.entries ++ [kindEntry r.kind])) = r.reread := by
  cases r <;> rfl

theorem record_reading (r : Record) : (reading r.toValue).record = r.reread := by
  rw [toValue_eq]
  exact ofFields_entries true r

theorem ofValue_toValue (r : Record) : ofValue r.toValue = r.reread := by
  rw [toValue_eq]
  exact ofFields_entries false r

-- The lemmas on the kinds of record all ask for the equations of these functions: they are made
-- here, once, and not by each lemma while the others wait.
attribute [local simp] reread kind entries toValue fieldReadings

theorem reread_number (isInt isFloat : Bool) (int : Int64) (float : Binary64) (base : Int64) :
    reread (.number isInt isFloat int float base) =
      (reading (.ofFloat float)).float.map fun x => .number isInt isFloat int x base := by
  -- The other fields are read back as they are, so only the binary64 value can fail.
  have hassemble : ∀ b f i : Reading, b.int = .ok base → i.int = .ok int →
      assemble .number
        [("base", b), ("float64", f), ("int64", i), ("isfloat", reading (.bool isFloat)),
         ("isint", reading (.bool isInt))] =
        f.float.map fun x => .number isInt isFloat int x base := by
    intro b f i hb hi
    cases hf : f.float <;>
    simp [assemble, firstFault?, schema, List.lookup_cons, Reading.fault?, Reading.errorOf, hb, hf,
      hi, Supply.build, Supply.need, Supply.needOr, Supply.ofFields, Reading.flag, reading,
      Except.map, pure, Except.pure, bind, Except.bind]
  exact hassemble _ _ _ (Reading.int_ofInt base) (Reading.int_ofInt int)

theorem reread_unary (op : String) (node : Record) :
    reread (.unary op node) = node.reread.map (.unary op) := by
  rw [← record_reading node]
  simp only [reread, kind, entries, toValue, fieldReadings, List.dropLast]
  rcases reading node.toValue with ⟨_, _ | _, _⟩ <;> rfl

theorem reread_lambda (expression : Record) :
    reread (.lambda expression) = expression.reread.map .lambda := by
  rw [← record_reading expression]
  simp only [reread, kind, entries, toValue, fieldReadings, List.dropLast]
  rcases reading expression.toValue with ⟨_, _ | _, _⟩ <;> rfl

section

variable (op : String) (left right : Record)

theorem reread_binary :
    reread (.binary op left right) = left.reread >>= fun l => right.reread.map (.binary op l) := by
  rw [← record_reading left, ← record_reading right]
  simp only [reread, kind, entries, toValue, fieldReadings, List.dropLast]
  rcases reading left.toValue with ⟨_, _ | _, _⟩ <;>
  rcases reading right.toValue with ⟨_, _ | _, _⟩ <;> rfl

theorem reread_chain :
    reread (.chain op left right) = left.reread >>= fun l => right.reread.map (.chain op l) := by
  rw [← record_reading left, ← record_reading right]
  simp only [reread, kind, entries, toValue, fieldReadings, List.dropLast]
  rcases reading left.toValue with ⟨_, _ | _, _⟩ <;>
  rcases reading right.toValue with ⟨_, _ | _, _⟩ <;> rfl

theorem reread_declaration :
    reread (.declaration left right) =
      left.reread >>= fun l => right.reread.map (.declaration l) := by
  rw [← record_reading left, ← record_reading right]
  simp only [reread, kind, entries, toValue, fieldReadings, List.dropLast]
  rcases reading left.toValue with ⟨_, _ | _, _⟩ <;>
  rcases reading right.toValue with ⟨_, _ | _, _⟩ <;> rfl

theorem reread_typeDeclaration :
    reread (.typeDeclaration left right) =
      left.reread >>= fun l => right.reread.map (.typeDeclaration l) := by
  rw [← record_reading left, ← record_reading right]
  simp only [reread, kind, entries, toValue, fieldReadings, List.dropLast]
  rcases reading left.toValue with ⟨_, _ | _, _⟩ <;>
  rcases reading right.toValue with ⟨_, _ | _, _⟩ <;> rfl

end

/-- The records that are read from what some records are written as. -/
def rereadAll (rs : List Record) : Except SchemaError (List Record) :=
  collect (readings (toValues rs))

theorem rereadAll_cons (r : Record) (rs : List Record) :
    rereadAll (r :: rs) = r.reread >>= fun a => (rereadAll rs).map (a :: ·) := by
  rw [← record_reading r]
  simp only [rereadAll, toValues, readings, collect]
  cases (reading r.toValue).record <;> rfl

theorem reread_list (nodes : List Record) :
    reread (.list nodes) = (rereadAll nodes).map .list := by
  simp only [reread, kind, entries, toValue, fieldReadings, List.dropLast, reading, rereadAll]
  cases collect (readings (toValues nodes)) <;> rfl

theorem reread_program (nodes : List Record) :
    reread (.program nodes) = (rereadAll nodes).map .program := by
  simp only [reread, kind, entries, toValue, fieldReadings, List.dropLast, reading, rereadAll]
  cases collect (readings (toValues nodes)) <;> rfl

theorem reread_func (name kind : String) (args : List Record) :
    reread (.func name kind args) = (rereadAll args).map (.func name kind) := by
  simp only [reread, Record.kind, entries, toValue, fieldReadings, List.dropLast, reading,
    rereadAll]
  cases collect (readings (toValues args)) <;> rfl

theorem reread_comment (lines : List String) : reread (.comment lines) = .ok (.comment lines) := by
  have hlines : (reading (.array (lines.map .string))).texts = .ok lines :=
    Reading.textItems_map lines
  simp [reread, assemble, kind, entries, toValue, fieldReadings, firstFault?, schema,
    List.lookup_cons, Reading.fault?, Reading.errorOf, hlines, Supply.build, Supply.need,
    Supply.ofFields, pure, Except.pure, bind, Except.bind]

mutual

/-- Whether every binary64 value in a record is finite. -/
def isFinite : Record → Bool
  | .number _ _ _ float _ => float.isFinite
  | .unary _ node => isFinite node
  | .binary _ left right => isFinite left && isFinite right
  | .declaration left right => isFinite left && isFinite right
  | .typeDeclaration node type => isFinite node && isFinite type
  | .chain _ left right => isFinite left && isFinite right
  | .list nodes => allFinite nodes
  | .func _ _ args => allFinite args
  | .lambda expression => isFinite expression
  | .program nodes => allFinite nodes
  | .duration _ => true
  | .bool _ => true
  | .identifier _ => true
  | .reference _ => true
  | .string _ => true
  | .regex _ => true
  | .star => true
  | .comment _ => true
termination_by structural r => r

/-- Whether every binary64 value in some records is finite. -/
def allFinite : List Record → Bool
  | [] => true
  | r :: rs => isFinite r && allFinite rs
termination_by structural rs => rs

end

mutual

/-- A record is read back unless a binary64 value in it is not finite. -/
theorem reread_gives : (r : Record) → GivesIff r.reread r.isFinite r
  | .number isInt isFloat int float base =>
    reread_number isInt isFloat int float base ▸ (Reading.float_ofFloat float).map
  | .unary op node => reread_unary op node ▸ (reread_gives node).map
  | .binary op left right =>
    reread_binary op left right ▸ (reread_gives left).bind (reread_gives right).map
  | .declaration left right =>
    reread_declaration left right ▸ (reread_gives left).bind (reread_gives right).map
  | .typeDeclaration node type =>
    reread_typeDeclaration node type ▸ (reread_gives node).bind (reread_gives type).map
  | .chain op left right =>
    reread_chain op left right ▸ (reread_gives left).bind (reread_gives right).map
  | .list nodes => reread_list nodes ▸ (rereadAll_gives nodes).map
  | .func name kind args => reread_func name kind args ▸ (rereadAll_gives args).map
  | .lambda expression => reread_lambda expression ▸ (reread_gives expression).map
  | .program nodes => reread_program nodes ▸ (rereadAll_gives nodes).map
  | .duration text => GivesIff.ok (Record.duration text)
  | .bool value => GivesIff.ok (Record.bool value)
  | .identifier name => GivesIff.ok (Record.identifier name)
  | .reference name => GivesIff.ok (Record.reference name)
  | .string literal => GivesIff.ok (Record.string literal)
  | .regex pattern => GivesIff.ok (Record.regex pattern)
  | .star => GivesIff.ok Record.star
  | .comment lines => reread_comment lines ▸ GivesIff.ok (Record.comment lines)
termination_by structural r => r

/-- Records are read back, one by one. -/
theorem rereadAll_gives : (rs : List Record) → GivesIff (rereadAll rs) (allFinite rs) rs
  | [] => .ok []
  | r :: rs => rereadAll_cons r rs ▸ (reread_gives r).bind (rereadAll_gives rs).map
termination_by structural rs => rs

end

end Record

end Json

/-! ## The node that is read back -/

namespace Node

/-- Whether JSON can hold the value of the node: it has no binary64 value that is not finite. -/
def isFinite : Node → Bool
  | .number _ (.float x) => x.isFinite
  | _ => true

/-- Whether a node read from JSON can be like this one: integers are in base eight or ten, spans can
be spelled, and chains end in a call or a name. -/
def isBuildable : Node → Bool
  | .number _ (.int _ base) => base == octalBase || base == decimalBase
  | .duration _ span _ => decide (span.nanos ≤ Duration.limit)
  | .chain _ _ _ right => right.isStep
  | _ => true

/-- Whether the node itself, its children aside, can be written as JSON and read back. -/
def isEncodable (n : Node) : Bool := n.isFinite && n.isBuildable

theorem all_isEncodable (ns : List Node) :
    ns.all isEncodable = (ns.all isFinite && ns.all isBuildable) := by
  induction ns with
  | nil => rfl
  | cons n ns ih =>
    simp only [List.all_cons, ih, isEncodable]
    ac_rfl

mutual

/-- The same tree as it is built, without places, comments and layout. Only the base of an integer
stays. -/
def rebuilt : Node → Node
  | .number _ value => .number .built value
  | .duration _ span _ => .ofDuration span
  | .bool _ value => .ofBool value
  | .string _ literal _ => .ofString literal
  | .regex _ pattern _ =>
    .regex .built pattern (String.ofList (Text.escapeMark '/' pattern.text.toList))
  | .reference _ name => .ofReference name
  | .star _ => .ofStar
  | .list _ items => .ofList (rebuiltAll items)
  | .unary _ op operand => .ofUnary op (rebuilt operand)
  | .binary _ op left right _ _ => .ofBinary op (rebuilt left) (rebuilt right)
  | .identifier ident => .ofName ident.name
  | .chain _ op left right => .chain .built op (rebuilt left) (rebuilt right)
  | .func _ kind name args _ => .ofCall kind name (rebuiltAll args)
  | .lambda _ body => .ofLambda (rebuilt body)
  | .declaration _ name value => .ofDeclaration name.name (rebuilt value)
  | .typeDeclaration _ name type => .ofTypeDeclaration name.name type.name
  | .program _ statements => .ofStatements (rebuiltAll statements)
  | .comment block => .ofCommentLines block.lines
termination_by structural n => n

/-- The same trees as they are built. -/
def rebuiltAll : List Node → List Node
  | [] => []
  | n :: ns => rebuilt n :: rebuiltAll ns
termination_by structural ns => ns

end

@[simp] theorem isStep_rebuilt (n : Node) : n.rebuilt.isStep = n.isStep := by cases n <;> rfl

mutual

/-- A rebuilt tree has the meaning of the tree. -/
theorem same_rebuilt : (n : Node) → n.preorder.all isFinite = true → n.rebuilt.same n = true
  | .number _ (.int _ _), _ => by simp [rebuilt, same, Number.same]
  | .number _ (.float x), h => by
    have hx : x.isFinite = true := by simpa [preorder, isFinite] using h
    simp [rebuilt, same, Number.same, Binary64.same_self (Binary64.isNaN_of_isFinite hx)]
  | .duration .., _ => by simp [rebuilt, ofDuration, same]
  | .bool .., _ => by simp [rebuilt, ofBool, same]
  | .string .., _ => by simp [rebuilt, ofString, same]
  | .regex .., _ => by simp [rebuilt, same]
  | .reference .., _ => by simp [rebuilt, ofReference, same]
  | .star _, _ => rfl
  | .list _ items, h => by
    have hitems := sameAll_rebuiltAll items (by simpa [preorder, isFinite] using h)
    simp [rebuilt, ofList, same, hitems]
  | .unary _ _ operand, h => by
    have ho := same_rebuilt operand (by simpa [preorder, isFinite] using h)
    simp [rebuilt, ofUnary, same, ho]
  | .binary _ _ left right _ _, h => by
    rw [preorder, List.all_cons, List.all_append, Bool.and_eq_true, Bool.and_eq_true] at h
    simp [rebuilt, ofBinary, same, same_rebuilt left h.2.1, same_rebuilt right h.2.2]
  | .identifier _, _ => by simp [rebuilt, ofName, Identifier.ofName, same]
  | .chain _ _ left right, h => by
    rw [preorder, List.all_cons, List.all_append, Bool.and_eq_true, Bool.and_eq_true] at h
    simp [rebuilt, same, same_rebuilt left h.2.1, same_rebuilt right h.2.2]
  | .func _ _ _ args _, h => by
    have hargs := sameAll_rebuiltAll args (by simpa [preorder, isFinite] using h)
    simp [rebuilt, ofCall, same, hargs]
  | .lambda _ body, h => by
    have hb := same_rebuilt body (by simpa [preorder, isFinite] using h)
    simp [rebuilt, ofLambda, same, hb]
  | .declaration _ _ value, h => by
    have hv := same_rebuilt value (by simpa [preorder, isFinite] using h)
    simp [rebuilt, ofDeclaration, Identifier.ofName, same, hv]
  | .typeDeclaration .., _ => by simp [rebuilt, ofTypeDeclaration, Identifier.ofName, same]
  | .program _ statements, h => by
    have hs := sameAll_rebuiltAll statements (by simpa [preorder, isFinite] using h)
    simp [rebuilt, ofStatements, same, hs]
  | .comment _, _ => rfl
termination_by structural n => n

theorem sameAll_rebuiltAll :
    (ns : List Node) → (preorderAll ns).all isFinite = true → sameAll (rebuiltAll ns) ns = true
  | [], _ => rfl
  | n :: ns, h => by
    rw [preorderAll, List.all_append, Bool.and_eq_true] at h
    simp [rebuiltAll, sameAll, same_rebuilt n h.1, sameAll_rebuiltAll ns h.2]
termination_by structural ns => ns

end

end Node

namespace Json

namespace Record

mutual

theorem ofNode_rebuilt : (n : Node) → ofNode n.rebuilt = ofNode n
  | .number _ _ | .duration .. | .bool .. | .string .. | .regex .. | .reference .. | .star _
  | .identifier _ | .typeDeclaration .. | .comment _ => rfl
  | .list _ items => congrArg Record.list (ofNodes_rebuiltAll items)
  | .unary _ op operand => congrArg (Record.unary op.spelling) (ofNode_rebuilt operand)
  | .binary _ op left right _ _ =>
    congrArg₂ (Record.binary op.spelling) (ofNode_rebuilt left) (ofNode_rebuilt right)
  | .chain _ op left right =>
    congrArg₂ (Record.chain op.spelling) (ofNode_rebuilt left) (ofNode_rebuilt right)
  | .func _ kind name args _ => congrArg (Record.func name kind.name) (ofNodes_rebuiltAll args)
  | .lambda _ body => congrArg Record.lambda (ofNode_rebuilt body)
  | .declaration _ name value =>
    congrArg (Record.declaration (ofIdentifier name)) (ofNode_rebuilt value)
  | .program _ statements => congrArg Record.program (ofNodes_rebuiltAll statements)
termination_by structural n => n

theorem ofNodes_rebuiltAll : (ns : List Node) → ofNodes (Node.rebuiltAll ns) = ofNodes ns
  | [] => rfl
  | n :: ns => congrArg₂ List.cons (ofNode_rebuilt n) (ofNodes_rebuiltAll ns)
termination_by structural ns => ns

end

mutual

/-- The record of a tree has the binary64 values of the tree. -/
theorem isFinite_ofNode : (n : Node) → (ofNode n).isFinite = n.preorder.all Node.isFinite
  | .number _ (.int _ _) => rfl
  | .number _ (.float x) => by simp [ofNode, ofNumber, isFinite, Node.preorder, Node.isFinite]
  | .duration .. | .bool .. | .string .. | .regex .. | .reference .. | .star _ | .identifier _
  | .typeDeclaration .. | .comment _ => rfl
  | .list _ items => by
    simp [ofNode, isFinite, Node.preorder, Node.isFinite, allFinite_ofNodes items]
  | .unary _ _ operand => by
    simp [ofNode, isFinite, Node.preorder, Node.isFinite, isFinite_ofNode operand]
  | .binary _ _ left right _ _ => by
    simp [ofNode, isFinite, Node.preorder, Node.isFinite, isFinite_ofNode left,
      isFinite_ofNode right]
  | .chain _ _ left right => by
    simp [ofNode, isFinite, Node.preorder, Node.isFinite, isFinite_ofNode left,
      isFinite_ofNode right]
  | .func _ _ _ args _ => by
    simp [ofNode, isFinite, Node.preorder, Node.isFinite, allFinite_ofNodes args]
  | .lambda _ body => by
    simp [ofNode, isFinite, Node.preorder, Node.isFinite, isFinite_ofNode body]
  | .declaration _ _ value => by
    simp [ofNode, ofIdentifier, isFinite, Node.preorder, Node.isFinite, isFinite_ofNode value]
  | .program _ statements => by
    simp [ofNode, isFinite, Node.preorder, Node.isFinite, allFinite_ofNodes statements]
termination_by structural n => n

theorem allFinite_ofNodes :
    (ns : List Node) → allFinite (ofNodes ns) = (Node.preorderAll ns).all Node.isFinite
  | [] => rfl
  | n :: ns => by
    simp [ofNodes, allFinite, Node.preorderAll, isFinite_ofNode n, allFinite_ofNodes ns]
termination_by structural ns => ns

end

/-- An integer is read back in base eight or ten only. -/
theorem toNumber_gives (value : Int64) (float : Binary64) (base : UInt32) :
    GivesIff (toNumber true false value float (Int64.ofNat base.toNat))
      (base == Node.octalBase || base == Node.decimalBase) (.int value base) := by
  -- Bases are compared as signed values of 64 bits, where those of 32 bits stay apart.
  have heq : ∀ b : UInt32, Int64.ofNat base.toNat = Int64.ofNat b.toNat ↔ base = b := by
    intro b
    have hbase := base.toNat_lt
    have hb := b.toNat_lt
    rw [← Int64.toInt_inj, Int64.toInt_ofNat_of_lt (by omega), Int64.toInt_ofNat_of_lt (by omega),
      Int.natCast_inj, UInt32.toNat_inj]
  have hzero : Int64.ofNat base.toNat = 0 ↔ base = 0 := heq 0
  have hoctal : Int64.ofNat base.toNat = 8 ↔ base = Node.octalBase := heq 8
  have hdecimal : Int64.ofNat base.toNat = 10 ↔ base = Node.decimalBase := heq 10
  simp only [toNumber, hzero, hoctal, hdecimal, if_true]
  by_cases h8 : base = Node.octalBase
  · subst h8
    exact GivesIff.ok _
  · by_cases h10 : base = Node.decimalBase
    · subst h10
      exact GivesIff.ok _
    · intro c
      simp only [h8, h10, if_false, beq_false_of_ne, ne_eq, not_false_eq_true]
      split <;> simp

/-- A pattern is read back from its text. -/
theorem ofPattern_text (pattern : Pattern) :
    Node.ofPattern pattern.text =
      .ok (.regex .built pattern (String.ofList (Text.escapeMark '/' pattern.text.toList))) :=
  Node.ofPattern_eq_ok_iff.2 ⟨pattern, rfl, rfl⟩

theorem ofChain_gives (op : ChainOp) (left right : Node) :
    GivesIff (Node.ofChain op left right) right.isStep (.chain .built op left right) := by
  cases h : right.isStep with
  | true =>
    rw [Node.ofChain, if_pos h]
    exact GivesIff.ok _
  | false =>
    rw [Node.ofChain, if_neg (by simp [h])]
    exact GivesIff.error _ _

theorem parse_render_gives (span : Duration) :
    GivesIff (Duration.parse span.render) (decide (span.nanos ≤ Duration.limit)) span := by
  rw [span.parse_render]
  split
  · rename_i h
    rw [decide_eq_true h]
    exact GivesIff.ok span
  · rename_i h
    rw [decide_eq_false h]
    exact GivesIff.error _ span

mutual

/-- A node is read back from its record, rebuilt, if it can be built at all. -/
theorem toNode_gives : (n : Node) →
    GivesIff (toNode (ofNode n)) (n.preorder.all Node.isBuildable) n.rebuilt
  | .number _ (.int value base) => by
    rw [ofNode, ofNumber, toNode]
    exact (toNumber_gives value (.zero false) base).bind_pure.of_eq
      (by simp [Node.preorder, Node.isBuildable])
  | .number _ (.float x) => GivesIff.ok (Node.number .built (.float x))
  | .duration _ span _ => by
    rw [ofNode, toNode]
    exact (parse_render_gives span).mapError.mapError.bind_pure.of_eq
      (by simp [Node.preorder, Node.isBuildable])
  | .bool _ value => GivesIff.ok (Node.ofBool value)
  | .string _ literal _ => GivesIff.ok (Node.ofString literal)
  | .regex _ pattern literal => by
    rw [ofNode, toNode, ofPattern_text]
    exact GivesIff.ok _
  | .reference _ name => GivesIff.ok (Node.ofReference name)
  | .star _ => GivesIff.ok Node.ofStar
  | .list _ items => by
    rw [ofNode, toNode]
    exact (toNodes_gives items).bind_pure.of_eq (by simp [Node.preorder, Node.isBuildable])
  | .unary _ op operand => by
    rw [ofNode, toNode, UnaryOp.read_spelling]
    exact (toNode_gives operand).bind_pure.of_eq (by simp [Node.preorder, Node.isBuildable])
  | .binary _ op left right _ _ => by
    rw [ofNode, toNode, BinaryOp.read_spelling]
    exact ((toNode_gives left).bind (toNode_gives right).bind_pure).of_eq
      (by simp [Node.preorder, Node.isBuildable])
  | .identifier ident => GivesIff.ok (Node.ofName ident.name)
  | .chain _ op left right => by
    rw [ofNode, toNode, ChainOp.read_spelling]
    refine ((toNode_gives left).bind ((toNode_gives right).bind
      (ofChain_gives op left.rebuilt right.rebuilt).mapError)).of_eq ?_
    simp [Node.preorder, Node.isBuildable, Bool.and_comm, Bool.and_left_comm]
  | .func _ kind name args _ => by
    rw [ofNode, toNode, CallKind.read_name]
    exact (toNodes_gives args).bind_pure.of_eq (by simp [Node.preorder, Node.isBuildable])
  | .lambda _ body => by
    rw [ofNode, toNode]
    exact (toNode_gives body).bind_pure.of_eq (by simp [Node.preorder, Node.isBuildable])
  | .declaration _ name value => by
    rw [ofNode, toNode]
    exact (toNode_gives value).bind_pure.of_eq (by simp [Node.preorder, Node.isBuildable])
  | .typeDeclaration _ name type => GivesIff.ok (Node.ofTypeDeclaration name.name type.name)
  | .program _ statements => by
    rw [ofNode, toNode]
    exact (toNodes_gives statements).bind_pure.of_eq (by simp [Node.preorder, Node.isBuildable])
  | .comment block => GivesIff.ok (Node.ofCommentLines block.lines)
termination_by structural n => n

theorem toNodes_gives : (ns : List Node) →
    GivesIff (toNodes (ofNodes ns)) ((Node.preorderAll ns).all Node.isBuildable)
      (Node.rebuiltAll ns)
  | [] => GivesIff.ok []
  | n :: ns => by
    rw [ofNodes, toNodes]
    exact ((toNode_gives n).bind (toNodes_gives ns).bind_pure).of_eq (by simp [Node.preorderAll])
termination_by structural ns => ns

end

end Record

theorem typeOf_toValue (r : Record) : typeOf r.toValue = .ok r.kind.name := by
  cases r <;> rfl

theorem unmarshal_toValue (r : Record) : unmarshal r.toValue = decode r.toValue := by
  rw [unmarshal, typeOf_toValue]
  simp [bind, Except.bind]

theorem decode_toValue (r : Record) :
    decode r.toValue = r.reread.mapError .schema >>= Record.toNode := by
  rw [decode, Record.ofValue_toValue]
  cases r.reread <;> rfl

/-- What is read back from a node is the rebuilt node, if all in it can be written. -/
theorem unmarshal_gives (n : Node) :
    GivesIff (unmarshal (marshal n)) (n.preorder.all Node.isEncodable) n.rebuilt := by
  rw [marshal, unmarshal_toValue, decode_toValue]
  refine ((Record.reread_gives _).mapError.bind (Record.toNode_gives n)).of_eq ?_
  rw [Node.all_isEncodable, Record.isFinite_ofNode]

/-- A node is read back from what it is written as exactly if every node in it can be written: no
binary64 value is an infinity or a NaN, integers are in base eight or ten, spans can be spelled, and
chains end in a call or a name. The node that is read then has the same meaning, and is written as
the same value. -/
theorem unmarshal_marshal (n : Node) :
    ((∃ m, unmarshal (marshal n) = .ok m) ↔ ∀ k ∈ n.preorder, k.isEncodable = true) ∧
      ∀ m, unmarshal (marshal n) = .ok m → m.same n = true ∧ marshal m = marshal n := by
  have hgives := unmarshal_gives n
  constructor
  · rw [← List.all_eq_true]
    constructor
    · rintro ⟨m, hm⟩
      exact ((hgives m).1 hm).1
    · intro hall
      exact ⟨n.rebuilt, hgives.eq_ok hall⟩
  · intro m hm
    obtain ⟨hall, rfl⟩ := (hgives m).1 hm
    rw [Node.all_isEncodable, Bool.and_eq_true] at hall
    exact ⟨n.same_rebuilt hall.1, by rw [marshal, Record.ofNode_rebuilt, marshal]⟩

end Json

end

namespace Json

open scoped PatternEngine

/-- The call `a|f(017, 60s, 1.5)`, with places, and the node that is read back for it: the octal
base stays, the spelling `60s` goes. -/
theorem unmarshal_marshal_call :
    let n : Node := .chain ⟨⟨1, 1, 2⟩, none⟩ .pipe (.identifier ⟨⟨⟨0, 1, 1⟩, none⟩, "a"⟩)
      (.func ⟨⟨2, 1, 3⟩, none⟩ .chain "f"
        [.number ⟨⟨4, 1, 5⟩, none⟩ (.int 15 Node.octalBase),
         .duration ⟨⟨9, 1, 10⟩, none⟩ ⟨60 * Duration.second⟩ "60s",
         .number ⟨⟨14, 1, 15⟩, none⟩ (.float ⟨0x3ff8000000000000⟩)] true)
    let m : Node := .chain .built .pipe (.ofName "a")
      (.ofCall .chain "f" [.number .built (.int 15 Node.octalBase),
        .ofDuration ⟨60 * Duration.second⟩, .ofFloat ⟨0x3ff8000000000000⟩])
    unmarshal (marshal n) = .ok m ∧ m.same n = true ∧ marshal m = marshal n := by
  intro n m
  have hall : n.preorder.all Node.isEncodable = true := by decide
  have hm : unmarshal (marshal n) = .ok m := (unmarshal_gives n).eq_ok hall
  exact ⟨hm, (unmarshal_marshal n).2 m hm⟩

end Json

end PipelineScript

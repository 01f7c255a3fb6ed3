import PipelineScript.Proofs.Encoding
import PipelineScript.Proofs.Finite

/-!
Decoding is stable.

Whatever form a value gives a node in, the node that is read is one that can be written and that is
read back as it is: the decoder makes nodes as they are built, in base eight or ten, with durations
that can be spelled and with chains that end in calls and names. So one round of decoding and
encoding normalises a value (`unmarshal_marshal_of_unmarshal`).
-/
namespace PipelineScript.Json

section

variable {engine : PatternEngine}

theorem bind_eq_ok_iff {ε α β : Type} {x : Except ε α} {f : α → Except ε β} {b : β} :
    x >>= f = .ok b ↔ ∃ a, x = .ok a ∧ f a = .ok b := by
  cases x with
  | error e => exact ⟨nofun, nofun⟩
  | ok a =>
    constructor
    · intro h
      exact ⟨a, rfl, h⟩
    · rintro ⟨_, ⟨⟩, h⟩
      exact h

theorem pure_eq_ok_iff {ε α : Type} {a b : α} : (pure a : Except ε α) = .ok b ↔ a = b :=
  Except.ok.injEq a b ▸ Iff.rfl

theorem mapError_eq_ok_iff {ε ε' α : Type} {x : Except ε α} {f : ε → ε'} {a : α} :
    x.mapError f = .ok a ↔ x = .ok a := by
  cases x <;> simp [Except.mapError]

/-! ## The records of a value -/

/-- What is read of a value that JSON has: finite numbers, in it and in the records it makes. -/
structure Reading.Finite (r : Reading) : Prop where
  value : r.value.isFinite = true
  record : ∀ a, r.record = .ok a → a.isFinite = true
  records : ∀ as, r.records = .ok as → Record.allFinite as = true

/-- A whole number is rounded to a finite value. -/
theorem Reading.Finite.float {r : Reading} (hr : r.Finite) {x : Binary64} (h : r.float = .ok x) :
    x.isFinite = true := by
  have hvalue := hr.value
  unfold Reading.float at h
  split at h
  · rename_i n _
    cases h
    have hlt := n.toNat_lt
    refine Binary64.isFinite_ofNat ?_
    unfold natLimit
    omega
  · rename_i n _
    cases h
    have hle := n.le_toInt
    have hlt := n.toInt_lt
    refine Binary64.isFinite_neg (Binary64.isFinite_ofNat ?_)
    unfold natLimit
    omega
  · rename_i hx
    cases h
    rw [hx] at hvalue
    exact hvalue
  · cases h

/-- Fields all of which are finite. -/
def Supply.Finite (s : Supply) : Prop := ∀ i name r, s.find? i name = some r → r.Finite

namespace Supply

variable {s : Supply} {i : Nat} {name : String} {α : Type} {read : Reading → Except SchemaError α}

theorem Finite.need (hs : s.Finite) {a : α} (h : s.need i name read = .ok a) :
    ∃ r, r.Finite ∧ read r = .ok a := by
  unfold Supply.need at h
  split at h
  · rename_i r hr
    exact ⟨r, hs i name r hr, h⟩
  · cases h

theorem Finite.needOr (hs : s.Finite) {a otherwise : α}
    (h : s.needOr i name read otherwise = .ok a) :
    a = otherwise ∨ ∃ r, r.Finite ∧ read r = .ok a := by
  unfold Supply.needOr at h
  split at h
  · rename_i r hr
    exact .inr ⟨r, hs i name r hr, h⟩
  · cases h
    exact .inl rfl

/-- The record that is made of finite fields is finite. -/
theorem Finite.build (hs : s.Finite) {kind : NodeKind} {r : Record} (h : s.build kind = .ok r) :
    r.isFinite = true := by
  have hrecord : ∀ {i name a}, s.need i name Reading.record = .ok a → a.isFinite = true := by
    intro i name a h
    obtain ⟨r, hr, h⟩ := hs.need h
    exact hr.record a h
  have hrecords : ∀ {i name as}, s.need i name Reading.records = .ok as →
      Record.allFinite as = true := by
    intro i name as h
    obtain ⟨r, hr, h⟩ := hs.need h
    exact hr.records as h
  cases kind <;> simp only [Supply.build, bind_eq_ok_iff, pure_eq_ok_iff] at h
  case number =>
    obtain ⟨isInt, -, isFloat, -, int, -, float, hfloat, base, -, rfl⟩ := h
    rcases hs.needOr hfloat with rfl | ⟨r, hr, h⟩
    · exact Binary64.isFinite_zero false
    · exact hr.float h
  case unary =>
    obtain ⟨op, -, node, hnode, rfl⟩ := h
    have hfinite := hrecord hnode
    exact hfinite
  case binary | chain =>
    obtain ⟨op, -, left, hleft, right, hright, rfl⟩ := h
    exact (Bool.and_eq_true ..).mpr ⟨hrecord hleft, hrecord hright⟩
  case declaration | typeDeclaration =>
    obtain ⟨left, hleft, right, hright, rfl⟩ := h
    exact (Bool.and_eq_true ..).mpr ⟨hrecord hleft, hrecord hright⟩
  case list | program =>
    obtain ⟨nodes, hnodes, rfl⟩ := h
    exact hrecords hnodes
  case func =>
    obtain ⟨name, -, kind, -, args, hargs, rfl⟩ := h
    exact hrecords hargs
  case lambda =>
    obtain ⟨expression, hexpression, rfl⟩ := h
    have hfinite := hrecord hexpression
    exact hfinite
  case star =>
    cases h
    rfl
  all_goals
    obtain ⟨a, -, rfl⟩ := h
    rfl

end Supply

namespace Record

theorem isFinite_of_ofFields {indexed : Bool} {fields : List (String × Reading)} {r : Record}
    (hfields : ∀ field ∈ fields, field.2.Finite) (h : ofFields indexed fields = .ok r) :
    r.isFinite = true := by
  unfold ofFields at h
  split at h
  · cases h
  split at h
  · cases h
  dsimp only at h
  split at h
  · cases h
  · refine Supply.Finite.build (fun i name r hr => ?_) h
    obtain ⟨before, behind, hrest, -⟩ := List.lookup_eq_some_iff.1 hr
    have hmem : (name, r) ∈ fields.filter fun field => field.1 != kindField := by
      rw [hrest]
      exact List.mem_append_right _ List.mem_cons_self
    exact hfields _ (List.mem_filter.1 hmem).1

theorem isFinite_of_ofItems {indexed : Bool} {items : List Reading} {r : Record}
    (hitems : ∀ item ∈ items, item.Finite) (h : ofItems indexed items = .ok r) :
    r.isFinite = true := by
  unfold ofItems at h
  split at h
  · cases h
  split at h
  · cases h
  split at h
  · cases h
  rename_i record hrecord
  have hfinite : record.isFinite = true := by
    refine Supply.Finite.build (fun i name r hr => ?_) hrecord
    exact hitems r (List.mem_cons_of_mem _ (List.mem_of_getElem? hr))
  dsimp only at h
  split at h
  · cases h
  · cases h
    exact hfinite

theorem allFinite_of_collect {rs : List Reading} {as : List Record}
    (hrs : ∀ r ∈ rs, r.Finite) (h : collect rs = .ok as) : allFinite as = true := by
  induction rs generalizing as with
  | nil =>
    cases h
    rfl
  | cons r rs ih =>
    rw [List.forall_mem_cons] at hrs
    rw [collect] at h
    split at h
    · rename_i a ha
      cases hcollect : collect rs with
      | error e =>
        rw [hcollect] at h
        cases h
      | ok as' =>
        rw [hcollect] at h
        cases h
        exact (Bool.and_eq_true ..).mpr ⟨hrs.1.record a ha, ih hrs.2 hcollect⟩
    · cases h

mutual

theorem finite_reading : (v : Value) → v.isFinite = true → (reading v).Finite
  | .null, h | .bool _, h | .string _, h | .number _, h => ⟨h, nofun, nofun⟩
  | .array items, h =>
    ⟨h, fun _ ha => isFinite_of_ofItems (finite_readings items h) ha,
      fun _ has => allFinite_of_collect (finite_readings items h) has⟩
  | .object fields, h =>
    ⟨h, fun _ ha => isFinite_of_ofFields (finite_fieldReadings fields h) ha, nofun⟩
termination_by structural v => v

theorem finite_readings : (vs : List Value) → Value.allFinite vs = true →
    ∀ r ∈ readings vs, r.Finite
  | [], _ => nofun
  | v :: vs, h => by
    have h := (Bool.and_eq_true ..).mp h
    exact List.forall_mem_cons.2 ⟨finite_reading v h.1, finite_readings vs h.2⟩
termination_by structural vs => vs

theorem finite_fieldReadings : (fields : List (String × Value)) →
    Value.fieldsFinite fields = true → ∀ field ∈ fieldReadings fields, field.2.Finite
  | [], _ => nofun
  | (name, v) :: fields, h => by
    have h := (Bool.and_eq_true ..).mp h
    exact List.forall_mem_cons.2 ⟨finite_reading v h.1, finite_fieldReadings fields h.2⟩
termination_by structural fields => fields

end

/-- The record that is read of a value that JSON has is finite. -/
theorem isFinite_of_ofValue {v : Value} {r : Record} (hv : v.isFinite = true)
    (h : ofValue v = .ok r) : r.isFinite = true := by
  cases v with
  | array items => exact isFinite_of_ofItems (finite_readings items hv) h
  | object fields => exact isFinite_of_ofFields (finite_fieldReadings fields hv) h
  | _ => cases h

end Record

/-! ## The nodes of a record -/

/-- A node as the decoder makes it: it is as it is built, and each node in it can be written. -/
structure Settled (n : Node) : Prop where
  rebuilt : n.rebuilt = n
  encodable : n.preorder.all Node.isEncodable = true

/-- Nodes each of which is as the decoder makes it. -/
structure AllSettled (ns : List Node) : Prop where
  rebuilt : Node.rebuiltAll ns = ns
  encodable : (Node.preorderAll ns).all Node.isEncodable = true

/-- A settled node is read back as it is. -/
theorem Settled.read_back {n : Node} (h : Settled n) : unmarshal (marshal n) = .ok n := by
  have hback := (unmarshal_gives n).eq_ok h.encodable
  rwa [h.rebuilt] at hback

/-- Integers are in base eight or ten. -/
theorem toNumber_settled {isInt isFloat : Bool} {int base : Int64} {float : Binary64}
    {value : PipelineScript.Number} (hfloat : float.isFinite = true)
    (h : Record.toNumber isInt isFloat int float base = .ok value) :
    Settled (.number .built value) := by
  refine ⟨rfl, ?_⟩
  unfold Record.toNumber at h
  split at h
  · split at h
    · cases h
    split at h
    · cases h
      rfl
    split at h
    · cases h
      rfl
    · cases h
  split at h
  · cases h
    simp [Node.preorder, Node.isEncodable, Node.isFinite, Node.isBuildable, hfloat]
  · cases h

/-- A regex has the literal that its pattern is written with. -/
theorem ofPattern_settled {pattern : String} {n : Node} (h : Node.ofPattern pattern = .ok n) :
    Settled n := by
  obtain ⟨p, rfl, rfl⟩ := Node.ofPattern_eq_ok_iff.1 h
  exact ⟨rfl, rfl⟩

/-- A chain ends in a call or a name. -/
theorem ofChain_settled {op : ChainOp} {left right n : Node} (hl : Settled left)
    (hr : Settled right) (h : Node.ofChain op left right = .ok n) : Settled n := by
  unfold Node.ofChain at h
  split at h
  · rename_i hstep
    cases h
    refine ⟨by rw [Node.rebuilt, hl.rebuilt, hr.rebuilt], ?_⟩
    rw [Node.preorder, List.all_cons, List.all_append, hl.encodable, hr.encodable]
    exact congrArg (· && true) hstep
  · cases h

mutual

/-- The node that is read of a finite record is settled. -/
theorem toNode_settled : (r : Record) → ∀ n, r.isFinite = true → r.toNode = .ok n → Settled n
  | .number isInt isFloat int float base => by
    intro n hr h
    simp only [Record.toNode, bind_eq_ok_iff, pure_eq_ok_iff] at h
    obtain ⟨value, hvalue, rfl⟩ := h
    exact toNumber_settled hr hvalue
  | .duration text => by
    intro n _ h
    simp only [Record.toNode, Record.built, bind_eq_ok_iff, pure_eq_ok_iff, mapError_eq_ok_iff] at h
    obtain ⟨span, hspan, rfl⟩ := h
    refine ⟨rfl, ?_⟩
    simp [Node.ofDuration, Node.preorder, Node.isEncodable, Node.isFinite, Node.isBuildable,
      Duration.le_limit_of_parse hspan]
  | .bool _ | .identifier _ | .reference _ | .string _ | .star | .comment _ => by
    intro n _ h
    rw [Record.toNode] at h
    cases h
    exact ⟨rfl, rfl⟩
  | .unary op node => by
    intro n hr h
    simp only [Record.toNode, bind_eq_ok_iff, pure_eq_ok_iff] at h
    obtain ⟨op, -, m, hm, rfl⟩ := h
    have hsettled := toNode_settled node m hr hm
    exact ⟨congrArg (Node.ofUnary op) hsettled.rebuilt, hsettled.encodable⟩
  | .binary op left right => by
    intro n hr h
    simp only [Record.toNode, bind_eq_ok_iff, pure_eq_ok_iff] at h
    obtain ⟨op, -, l, hl, r, hr', rfl⟩ := h
    have hr := (Bool.and_eq_true ..).mp hr
    have hleft := toNode_settled left l hr.1 hl
    have hright := toNode_settled right r hr.2 hr'
    refine ⟨congrArg₂ (Node.ofBinary op) hleft.rebuilt hright.rebuilt, ?_⟩
    rw [Node.ofBinary, Node.preorder, List.all_cons, List.all_append, hleft.encodable,
      hright.encodable]
    rfl
  | .declaration left right => by
    intro n hr h
    simp only [Record.toNode, bind_eq_ok_iff, pure_eq_ok_iff] at h
    obtain ⟨_, -, name, -, value, hvalue, rfl⟩ := h
    have hr := (Bool.and_eq_true ..).mp hr
    have hsettled := toNode_settled right value hr.2 hvalue
    exact ⟨congrArg (Node.ofDeclaration name) hsettled.rebuilt, hsettled.encodable⟩
  | .typeDeclaration node type => by
    intro n _ h
    simp only [Record.toNode, bind_eq_ok_iff, pure_eq_ok_iff] at h
    obtain ⟨_, -, name, -, _, -, type, -, rfl⟩ := h
    exact ⟨rfl, rfl⟩
  | .chain op left right => by
    intro n hr h
    simp only [Record.toNode, Record.built, bind_eq_ok_iff, mapError_eq_ok_iff] at h
    obtain ⟨op, -, l, hl, r, hr', h⟩ := h
    have hr := (Bool.and_eq_true ..).mp hr
    -- What is decoded for the right side is checked again when the chain is built.
    exact ofChain_settled (toNode_settled left l hr.1 hl) (toNode_settled right r hr.2 hr') h
  | .list nodes => by
    intro n hr h
    simp only [Record.toNode, bind_eq_ok_iff, pure_eq_ok_iff] at h
    obtain ⟨ns, hns, rfl⟩ := h
    have hsettled := toNodes_settled nodes ns hr hns
    exact ⟨congrArg Node.ofList hsettled.rebuilt, hsettled.encodable⟩
  | .regex pattern => by
    intro n _ h
    rw [Record.toNode, Record.built, mapError_eq_ok_iff] at h
    exact ofPattern_settled h
  | .func name kind args => by
    intro n hr h
    simp only [Record.toNode, bind_eq_ok_iff, pure_eq_ok_iff] at h
    obtain ⟨kind, -, ns, hns, rfl⟩ := h
    have hsettled := toNodes_settled args ns hr hns
    exact ⟨congrArg (Node.ofCall kind name) hsettled.rebuilt, hsettled.encodable⟩
  | .lambda expression => by
    intro n hr h
    simp only [Record.toNode, bind_eq_ok_iff, pure_eq_ok_iff] at h
    obtain ⟨m, hm, rfl⟩ := h
    have hsettled := toNode_settled expression m hr hm
    exact ⟨congrArg Node.ofLambda hsettled.rebuilt, hsettled.encodable⟩
  | .program nodes => by
    intro n hr h
    simp only [Record.toNode, bind_eq_ok_iff, pure_eq_ok_iff] at h
    obtain ⟨ns, hns, rfl⟩ := h
    have hsettled := toNodes_settled nodes ns hr hns
    exact ⟨congrArg Node.ofStatements hsettled.rebuilt, hsettled.encodable⟩
termination_by structural r => r

theorem toNodes_settled : (rs : List Record) → ∀ ns, Record.allFinite rs = true →
    Record.toNodes rs = .ok ns → AllSettled ns
  | [] => by
    intro ns _ h
    cases h
    exact ⟨rfl, rfl⟩
  | r :: rs => by
    intro ns hrs h
    simp only [Record.toNodes, bind_eq_ok_iff, pure_eq_ok_iff] at h
    obtain ⟨n, hn, ns, hns, rfl⟩ := h
    have hrs := (Bool.and_eq_true ..).mp hrs
    have hhead := toNode_settled r n hrs.1 hn
    have htail := toNodes_settled rs ns hrs.2 hns
    refine ⟨congrArg₂ List.cons hhead.rebuilt htail.rebuilt, ?_⟩
    rw [Node.preorderAll, List.all_append, hhead.encodable, htail.encodable]
    rfl
termination_by structural rs => rs

end

/-! ## Decoding what was decoded -/

theorem settled_of_unmarshal {v : Value} {n : Node} (hv : v.isFinite = true)
    (h : unmarshal v = .ok n) : Settled n := by
  obtain ⟨name, -, h⟩ := bind_eq_ok_iff.1 h
  dsimp only at h
  split at h
  · cases h
  unfold decode at h
  split at h
  · rename_i r hr
    exact toNode_settled r n (Record.isFinite_of_ofValue hv hr) h
  · cases h

theorem kind_ofNode (n : Node) : (Record.ofNode n).kind = n.kind := by
  cases n with
  | number info value => cases value <;> rfl
  | _ => rfl

/-- Where a kind is asked for, it is the kind that the node is written with. -/
theorem unmarshalAs_marshal (n : Node) :
    unmarshalAs n.kind.name (marshal n) = unmarshal (marshal n) := by
  rw [unmarshalAs, marshal, typeOf_toValue, kind_ofNode]
  simp [bind, Except.bind]

/-- A node that was read of any value that JSON has is read back, from what it is written as, as it
is: with the same places, comments, flags, literals, bases and words of binary64 values. -/
theorem unmarshal_marshal_of_unmarshal {v : Value} {n : Node} (hv : v.isFinite = true)
    (h : unmarshal v = .ok n) :
    unmarshal (marshal n) = .ok n ∧ unmarshalAs n.kind.name (marshal n) = .ok n := by
  have hback := (settled_of_unmarshal hv h).read_back
  exact ⟨hback, (unmarshalAs_marshal n).trans hback⟩

end

open scoped PatternEngine

/-- The fields of a chain with a field that no schema has, its right side as an array with the kind
of an argument given by its number, an integer without its optional fields and a duration that is
not canonical; all of it is normalised in one step. -/
theorem unmarshal_marshal_of_unmarshal_chain :
    let v : Value := .object
      [("extra", .null), ("left", .array [.string "identifier", .string "a"]),
       ("operator", .string "|"),
       ("right", .array [.string "func", .string "f", .string "chain",
         .array [.array [.number (.nat 1), .string "60s"],
           .object [("base", .number (.nat 8)), ("isfloat", .bool false), ("isint", .bool true),
             ("typeOf", .string "number")]]]),
       ("typeOf", .string "chain")]
    let n : Node := .chain .built .pipe (.ofName "a")
      (.ofCall .chain "f" [.ofDuration ⟨60 * Duration.second⟩,
        .number .built (.int 0 Node.octalBase)])
    v.isFinite = true ∧ unmarshal v = .ok n ∧ unmarshal (marshal n) = .ok n ∧
      unmarshalAs "chain" (marshal n) = .ok n := by
  intro v n
  have hv : v.isFinite = true := rfl
  have hrecord : Record.ofValue v = .ok (.chain "|" (.identifier "a") (.func "f" "chain"
      [.duration "60s", .number true false 0 (.zero false) 8])) := rfl
  have hname : typeOf v = .ok "chain" := rfl
  have h : unmarshal v = .ok n := by
    rw [unmarshal, hname]
    show decode v = .ok n
    rw [decode, hrecord]
    simp only [Record.toNode, Record.toNodes]
    rfl
  exact ⟨hv, h, unmarshal_marshal_of_unmarshal hv h⟩

end PipelineScript.Json

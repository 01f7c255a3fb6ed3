import PipelineScript.Proofs.Spellable

/-!
What is read back from the signs of a tree.

`Echo bytes inner parens n ts q` describes the tree `q` that the grammar makes of the slots `ts`,
when these are written for `n`. It has the operators, names and literals of `n`; every place,
comment and flag in it comes from a slot. So `q` has the meaning of `n` (`Echo.same`), and how it is
laid out follows from where the slots stand.
-/
namespace PipelineScript

variable {engine : PatternEngine}

open Node in
mutual

/-- The tree `q` is read from what is written for `n`. `inner` says that `n` stands inside an
operation, where a call keeps no comment, and `parens` that an operation is put in parentheses by
its place. -/
def Echo (bytes : List UInt8) (inner parens : Bool) : Node → List Slot → Node → Prop
  | .list _ items, ts, q =>
    ∃ t mid c qs, ts = t :: (mid ++ [c]) ∧ EchoAll bytes false items mid qs ∧
      q = .list (t.info bytes) qs
  | .unary _ op operand, ts, q =>
    ∃ t mid q₀ left, ts = t :: mid ∧ Echo bytes true operand.isBinary operand mid q₀ ∧
      (ClosesBare mid → left = none) ∧ q = .unary ⟨.locate bytes t.token.offset, left⟩ op q₀
  | .binary _ op left right parenthesized _, ts, q =>
    let parens := parens || parenthesized
    let loose := looserLeft op.precedence left
    ∃ tl o tr ql qr, Echo bytes (inner || parens || loose) loose left tl ql ∧
      Echo bytes true (looserRight op.precedence right) right tr qr ∧
      let broken := breaksIn bytes ql.position.offset qr.position.offset
      if parens then
        ∃ b c, ts = b :: ((tl ++ o :: tr) ++ [c]) ∧
          q = .binary ⟨.locate bytes o.token.offset, b.comment⟩ op ql qr true broken
      else ts = tl ++ o :: tr ∧ q = .binary (o.info bytes) op ql qr false broken
  | .identifier ident, ts, q => ∃ t, ts = [t] ∧ q = .identifier ⟨t.info bytes, ident.name⟩
  | .chain _ op left right, ts, q =>
    ∃ tl o tr ql qr, ts = tl ++ o :: tr ∧ Echo bytes false false left tl ql ∧
      Echo bytes false false right tr qr ∧ q = .chain (o.info bytes) op ql qr
  | .func _ kind name args _, ts, q =>
    ∃ t o mid c qs, ts = t :: o :: (mid ++ [c]) ∧ EchoAll bytes inner args mid qs ∧
      q = .func ⟨.locate bytes t.token.offset, if inner then none else t.comment⟩ kind name qs
        (callBreaks bytes t.token.offset qs)
  | .lambda _ body, ts, q =>
    ∃ t mid q₀, ts = t :: mid ∧ Echo bytes true false body mid q₀ ∧ q = .lambda (t.info bytes) q₀
  | .declaration _ name value, ts, q =>
    ∃ t i e mid q₀, ts = t :: i :: e :: mid ∧ Echo bytes false false value mid q₀ ∧
      q = .declaration (t.info bytes) ⟨i.info bytes, name.name⟩ q₀
  | .typeDeclaration _ name type, ts, q =>
    ∃ t i y, ts = [t, i, y] ∧
      q = .typeDeclaration (t.info bytes) ⟨i.info bytes, name.name⟩ ⟨y.info bytes, type.name⟩
  | n, ts, q => ∃ t g, ts = [t] ∧ n.literalSign? = some g ∧ Copies bytes n g t q
termination_by structural n => n

/-- The trees `qs` are read from what is written for `ns`, with commas between them. -/
def EchoAll (bytes : List UInt8) (inner : Bool) : List Node → List Slot → List Node → Prop
  | [], ts, qs => ts = [] ∧ qs = []
  | n :: ns, ts, qs =>
    ∃ tn tns q qs₀, ts = tn ++ tns ∧ qs = q :: qs₀ ∧ Echo bytes inner false n tn q ∧
      if ns.isEmpty then tns = [] ∧ qs₀ = []
      else ∃ m mid, tns = m :: mid ∧ EchoAll bytes inner ns mid qs₀
termination_by structural ns => ns

end

/-- The statements `qs` are read from what is written for `ns`. -/
def EchoRuns (bytes : List UInt8) : List Node → List Slot → List Node → Prop
  | [], ts, qs => ts = [] ∧ qs = []
  | n :: ns, ts, qs =>
    ∃ tn tns q qs₀, ts = tn ++ tns ∧ qs = q :: qs₀ ∧ Echo bytes false false n tn q ∧
      EchoRuns bytes ns tns qs₀

mutual

/-- What is read back has the meaning of what is written. -/
theorem Echo.same {bytes : List UInt8} {inner parens : Bool} {n : Node} {ts : List Slot} {q : Node}
    (h : Echo bytes inner parens n ts q) : q.same n = true := by
  cases n with
  | list info items =>
    obtain ⟨t, mid, c, qs, -, hqs, rfl⟩ := h
    simp [Node.same, hqs.same]
  | unary info op operand =>
    obtain ⟨t, mid, q₀, left, -, hq, -, rfl⟩ := h
    simp [Node.same, hq.same]
  | binary info op left right parenthesized broken =>
    obtain ⟨tl, o, tr, ql, qr, hl, hr, h⟩ := h
    dsimp only at h
    split at h
    · obtain ⟨b, c, -, rfl⟩ := h
      simp [Node.same, hl.same, hr.same]
    · obtain ⟨-, rfl⟩ := h
      simp [Node.same, hl.same, hr.same]
  | identifier ident =>
    obtain ⟨t, -, rfl⟩ := h
    simp [Node.same]
  | chain info op left right =>
    obtain ⟨tl, o, tr, ql, qr, -, hl, hr, rfl⟩ := h
    simp [Node.same, hl.same, hr.same]
  | func info kind name args broken =>
    obtain ⟨t, o, mid, c, qs, -, hqs, rfl⟩ := h
    simp [Node.same, hqs.same]
  | lambda info body =>
    obtain ⟨t, mid, q₀, -, hq, rfl⟩ := h
    simp [Node.same, hq.same]
  | declaration info name value =>
    obtain ⟨t, i, e, mid, q₀, -, hq, rfl⟩ := h
    simp [Node.same, hq.same]
  | typeDeclaration info name type =>
    obtain ⟨t, i, y, -, rfl⟩ := h
    simp [Node.same]
  | _ =>
    obtain ⟨t, g, -, -, hq⟩ := h
    exact hq.same
termination_by structural n

theorem EchoAll.same {bytes : List UInt8} {inner : Bool} {ns : List Node} {ts : List Slot}
    {qs : List Node} (h : EchoAll bytes inner ns ts qs) : Node.sameAll qs ns = true := by
  match ns with
  | [] =>
    obtain ⟨-, rfl⟩ := h
    rfl
  | n :: ns =>
    obtain ⟨tn, tns, q, qs, -, rfl, hq, h⟩ := h
    split at h
    · obtain ⟨-, rfl⟩ := h
      cases ns with
      | nil => simp [Node.sameAll, hq.same]
      | cons => simp at *
    · obtain ⟨m, mid, -, hqs⟩ := h
      simp [Node.sameAll, hq.same, hqs.same]
termination_by structural ns

end

theorem EchoRuns.same {bytes : List UInt8} {ns : List Node} {ts : List Slot} {qs : List Node}
    (h : EchoRuns bytes ns ts qs) : Node.sameAll qs ns = true := by
  induction ns generalizing ts qs with
  | nil =>
    obtain ⟨-, rfl⟩ := h
    rfl
  | cons n ns ih =>
    obtain ⟨tn, tns, q, qs, -, rfl, hq, hqs⟩ := h
    simp [Node.sameAll, hq.same, ih hqs]

end PipelineScript

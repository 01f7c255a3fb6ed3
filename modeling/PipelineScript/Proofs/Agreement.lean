import Mathlib.Data.List.DropRight
import PipelineScript.Proofs.Ample
import PipelineScript.Proofs.Floats
import PipelineScript.Proofs.Insertion

/-!
Two scripts with the same tokens.

Places, line breaks and comments tell how a script is laid out, and nothing that a parser decides
depends on them: `parse_agrees` says that two scripts whose tokens differ only in these are both
parsed, to the same program but for comments at its end, or both rejected for the same cause.

The proof follows two runs side by side. As long as both readers see the same tokens, whatever the
comments beside them, each step of one is a step of the other (`InStep`), so one lemma for each
function of the grammar is enough. The two runs have different fuel, because comments count for the
fuel; neither runs out of it.
-/
namespace PipelineScript

variable {engine : PatternEngine}

/-! ## Two readers of the same tokens -/

/-- Two tokens that differ at most in their places, as a scanner can read them. -/
structure Token.Alike (t u : Token) : Prop where
  kind : t.kind = u.kind
  text : t.text = u.text
  formed : t.Formed

theorem Token.alike_of_sign {t u : Token} (h : t.sign = u.sign) (ht : t.Formed) : t.Alike u := by
  rw [sign, sign, Sign.mk.injEq, String.toList_inj] at h
  exact ⟨h.1, h.2, ht⟩

/-- The tokens that reach the grammar. -/
def grammarTokens (ts : List Token) : List Token := ts.filter fun t => !Lookahead.isComment t

/-- The next token that reaches the grammar stands behind the next comments. -/
theorem grammarTokens_cases (ts : List Token) :
    (ts.dropWhile Lookahead.isComment = [] ∧ grammarTokens ts = []) ∨
      ∃ t rest, ts.dropWhile Lookahead.isComment = t :: rest ∧
        grammarTokens ts = t :: grammarTokens rest := by
  induction ts with
  | nil => exact .inl ⟨rfl, rfl⟩
  | cons t ts ih =>
    by_cases ht : Lookahead.isComment t = true
    · have hskip : grammarTokens (t :: ts) = grammarTokens ts := by simp [grammarTokens, ht]
      rw [hskip, List.dropWhile_cons_of_pos ht]
      exact ih
    · have htake : grammarTokens (t :: ts) = t :: grammarTokens ts := by simp [grammarTokens, ht]
      rw [htake, List.dropWhile_cons_of_neg ht]
      exact .inr ⟨t, ts, rfl, rfl⟩

/-- Two lists of tokens that are alike one by one. If the lists have been cut off, one of them may
be longer by some idle tokens. -/
inductive Along (cut : Prop) : List Token → List Token → Prop where
  | nil : Along cut [] []
  | cons {t u : Token} {ts us : List Token} (h : t.Alike u) (hs : Along cut ts us) :
      Along cut (t :: ts) (u :: us)
  | outLeft {us : List Token} (h : cut) (hidle : ∀ u ∈ us, u.IsIdle) : Along cut [] us
  | outRight {ts : List Token} (h : cut) (hidle : ∀ t ∈ ts, t.IsIdle) : Along cut ts []

/-- How the streams of two readers stop, and whether one of them may have been cut off before the
other. Only what a scanner that stands still gives is ever cut off. -/
structure Ends where
  ending : StreamEnd
  cut : Prop
  endless_of_cut : cut → ending = .endless

/-- Two readers before the same tokens. Neither their places nor the comments before the tokens are
compared. -/
structure Twins (e : Ends) (s t : Lookahead) : Prop where
  left : s.ending = e.ending
  right : t.ending = e.ending
  held : s.held = t.held
  newest : s.newest.token.Alike t.newest.token
  older : s.older.token.Alike t.older.token
  pending : Along e.cut (grammarTokens s.pending) (grammarTokens t.pending)

/-- Two outcomes that tell the same apart from places and comments. A run that has used up its fuel
tells nothing, and neither does one that has come to where its stream was cut off. -/
inductive Agrees (e : Ends) {α β : Type} (R : α → β → Prop) :
    EStateM.Result ParseFailure Lookahead α → EStateM.Result ParseFailure Lookahead β → Prop where
  | ok {x : α} {y : β} {s t : Lookahead} (h : R x y) (hs : Twins e s t) :
      Agrees e R (.ok x s) (.ok y t)
  | rejected {f g : ParseError} {s t : Lookahead} (h : f.cause = g.cause) :
      Agrees e R (.error (.rejected f) s) (.error (.rejected g) t)
  | interrupted {s t : Lookahead} (h : e.ending ≠ .ended) :
      Agrees e R (.error (.interrupted e.ending) s) (.error (.interrupted e.ending) t)
  | cutLeft {s : Lookahead} {r : EStateM.Result ParseFailure Lookahead β} (h : e.cut) :
      Agrees e R (.error (.interrupted e.ending) s) r
  | cutRight {t : Lookahead} {r : EStateM.Result ParseFailure Lookahead α} (h : e.cut) :
      Agrees e R r (.error (.interrupted e.ending) t)
  | exhaustedLeft {s : Lookahead} {r : EStateM.Result ParseFailure Lookahead β} :
      Agrees e R (.error .exhausted s) r
  | exhaustedRight {t : Lookahead} {r : EStateM.Result ParseFailure Lookahead α} :
      Agrees e R r (.error .exhausted t)

/-- From two readers of the same tokens the parsers have outcomes that agree. -/
def InStep (e : Ends) {α β : Type} (R : α → β → Prop) (x : Parser α) (y : Parser β) : Prop :=
  ∀ ⦃s t : Lookahead⦄, Twins e s t → Agrees e R (x s) (y t)

/-- The relation of results that do not count. -/
def Whatever {α β : Type} (_ : α) (_ : β) : Prop := True

section

variable {e : Ends} {α β γ δ : Type} {R : α → β → Prop} {S : γ → δ → Prop}

theorem InStep.bind {x : Parser α} {y : Parser β} {f : α → Parser γ} {g : β → Parser δ}
    (hx : InStep e R x y) (hf : ∀ r r', R r r' → InStep e S (f r) (g r')) :
    InStep e S (x >>= f) (y >>= g) := by
  intro s t hst
  have h := hx hst
  simp only [Bind.bind, EStateM.bind]
  revert h
  -- Where one of the two runs fails alone, it has run out of fuel or of tokens, and nothing is left
  -- to compare.
  cases x s <;> cases y t <;> intro h
  · cases h with
    | ok hr hs => exact hf _ _ hr hs
  · cases h with
    | cutRight hcut => exact .cutRight hcut
    | exhaustedRight => exact .exhaustedRight
  · cases h with
    | cutLeft hcut => exact .cutLeft hcut
    | exhaustedLeft => exact .exhaustedLeft
  · cases h with
    | rejected hc => exact .rejected hc
    | interrupted hl => exact .interrupted hl
    | cutLeft hcut => exact .cutLeft hcut
    | cutRight hcut => exact .cutRight hcut
    | exhaustedLeft => exact .exhaustedLeft
    | exhaustedRight => exact .exhaustedRight

theorem inStep_pure {r : α} {r' : β} (h : R r r') : InStep e R (pure r) (pure r') :=
  fun _ _ hst => .ok h hst

/-- Parsers that decide by the same condition stay in step where their branches do. -/
theorem InStep.ite {p : Prop} [Decidable p] {x x' : Parser α} {y y' : Parser β}
    (hyes : p → InStep e R x y) (hno : ¬p → InStep e R x' y') :
    InStep e R (if p then x else x') (if p then y else y') := by
  by_cases h : p
  · rw [if_pos h, if_pos h]
    exact hyes h
  · rw [if_neg h, if_neg h]
    exact hno h

theorem inStep_exhausted_left {y : Parser β} : InStep e R (throw .exhausted) y :=
  fun _ _ _ => .exhaustedLeft

theorem inStep_exhausted_right {x : Parser α} : InStep e R x (throw .exhausted) :=
  fun _ _ _ => .exhaustedRight

end

/-! ## The steps of a parser -/

section

open PipelineScript.Parser

variable {e : Ends} {α β : Type} {R : α → β → Prop} {s t : Lookahead} {u v : Token}

theorem Lookahead.fetch_of_cons {rest : List Token}
    (h : s.pending.dropWhile isComment = u :: rest) : ∃ c, s.fetch = .ok (⟨u, c⟩, rest) := by
  refine ⟨foldComments s.bytes (s.pending.takeWhile isComment), ?_⟩
  simp only [fetch, h]

theorem Lookahead.fetch_of_ended (h : s.pending.dropWhile isComment = []) (he : s.ending = .ended) :
    ∃ c, s.fetch = .ok (⟨⟨.eof, s.bytes.length, ""⟩, c⟩, []) := by
  refine ⟨foldComments s.bytes (s.pending.takeWhile isComment), ?_⟩
  simp only [fetch, h, he]

theorem Lookahead.fetch_of_not_ended (h : s.pending.dropWhile isComment = [])
    (he : s.ending ≠ .ended) : s.fetch = .error s.ending := by
  simp only [fetch, h]

/-- What two readers of the same tokens fetch. -/
inductive Fetches (e : Ends) :
    Except StreamEnd (Slot × List Token) → Except StreamEnd (Slot × List Token) → Prop where
  | ok {x y : Slot} {xs ys : List Token} (h : x.token.Alike y.token)
      (hs : Along e.cut (grammarTokens xs) (grammarTokens ys)) :
      Fetches e (.ok (x, xs)) (.ok (y, ys))
  | out (h : e.ending ≠ .ended) : Fetches e (.error e.ending) (.error e.ending)
  | cutLeft {r : Except StreamEnd (Slot × List Token)} (h : e.cut) :
      Fetches e (.error e.ending) r
  | cutRight {r : Except StreamEnd (Slot × List Token)} (h : e.cut) :
      Fetches e r (.error e.ending)

theorem Twins.fetch (h : Twins e s t) : Fetches e s.fetch t.fetch := by
  have hopen (hcut : e.cut) : e.ending ≠ .ended := by
    rw [e.endless_of_cut hcut]
    simp
  have hpending := h.pending
  -- A reader that has a token left is alone with it only if the other was cut off before it.
  rcases grammarTokens_cases s.pending with ⟨hs, hns⟩ | ⟨x, xs, hs, hcs⟩
  · rcases grammarTokens_cases t.pending with ⟨ht, -⟩ | ⟨y, ys, -, hct⟩
    · by_cases he : e.ending = .ended
      · obtain ⟨c, hfs⟩ := Lookahead.fetch_of_ended hs (h.left.trans he)
        obtain ⟨d, hft⟩ := Lookahead.fetch_of_ended ht (h.right.trans he)
        rw [hfs, hft]
        exact .ok ⟨rfl, rfl, trivial⟩ .nil
      · rw [Lookahead.fetch_of_not_ended hs (h.left ▸ he),
          Lookahead.fetch_of_not_ended ht (h.right ▸ he), h.left, h.right]
        exact .out he
    · rw [hns, hct] at hpending
      cases hpending with
      | outLeft hcut _ =>
        rw [Lookahead.fetch_of_not_ended hs (h.left ▸ hopen hcut), h.left]
        exact .cutLeft hcut
  · rcases grammarTokens_cases t.pending with ⟨ht, hnt⟩ | ⟨y, ys, ht, hct⟩
    · rw [hcs, hnt] at hpending
      cases hpending with
      | outRight hcut _ =>
        rw [Lookahead.fetch_of_not_ended ht (h.right ▸ hopen hcut), h.right]
        exact .cutRight hcut
    · rw [hcs, hct] at hpending
      cases hpending with
      | cons hxy hrest =>
        obtain ⟨c, hfs⟩ := Lookahead.fetch_of_cons hs
        obtain ⟨d, hft⟩ := Lookahead.fetch_of_cons ht
        rw [hfs, hft]
        exact .ok hxy hrest

theorem inStep_next : InStep e Token.Alike next next := by
  intro s t h
  -- Only with nothing held is a token fetched; what is held is alike by hypothesis.
  match hs : s.held with
  | 0 =>
    have ht : t.held = 0 := h.held ▸ hs
    simp only [next, ofStep_eq, Lookahead.next, hs, ht]
    have hfetch := h.fetch
    generalize s.fetch = f at hfetch ⊢
    generalize t.fetch = g at hfetch ⊢
    cases hfetch with
    | ok hxy hrest => exact .ok hxy ⟨h.left, h.right, rfl, hxy, h.older, hrest⟩
    | out hl => exact .interrupted hl
    | cutLeft hcut => exact .cutLeft hcut
    | cutRight hcut => exact .cutRight hcut
  | k + 1 =>
    have ht : t.held = k + 1 := h.held ▸ hs
    simp only [next, ofStep_eq, Lookahead.next, hs, ht]
    refine .ok ?_ ⟨h.left, h.right, rfl, h.newest, h.older, h.pending⟩
    cases k with
    | zero => exact h.newest
    | succ k => exact h.older

theorem inStep_peek : InStep e Token.Alike peek peek := by
  intro s t h
  match hs : s.held with
  | 0 =>
    have ht : t.held = 0 := h.held ▸ hs
    simp only [peek, ofStep_eq, Lookahead.peek, hs, ht]
    have hfetch := h.fetch
    generalize s.fetch = f at hfetch ⊢
    generalize t.fetch = g at hfetch ⊢
    cases hfetch with
    | ok hxy hrest => exact .ok hxy ⟨h.left, h.right, rfl, hxy, h.newest, hrest⟩
    | out hl => exact .interrupted hl
    | cutLeft hcut => exact .cutLeft hcut
    | cutRight hcut => exact .cutRight hcut
  | 1 =>
    have ht : t.held = 1 := h.held ▸ hs
    simp only [peek, ofStep_eq, Lookahead.peek, hs, ht]
    exact .ok h.newest h
  | k + 2 =>
    have ht : t.held = k + 2 := h.held ▸ hs
    simp only [peek, ofStep_eq, Lookahead.peek, hs, ht]
    exact .ok h.older h

theorem inStep_backup : InStep e Whatever backup backup := by
  intro s t h
  have hheld : s.backup.held = t.backup.held := congrArg (· + 1) h.held
  exact .ok trivial ⟨h.left, h.right, hheld, h.newest, h.older, h.pending⟩

theorem inStep_takeComment : InStep e Whatever takeComment takeComment := by
  intro s t h
  match hs : s.held with
  | 0 =>
    have ht : t.held = 0 := h.held ▸ hs
    simp only [takeComment, ofStep_eq, Lookahead.takeComment, hs, ht]
    exact .ok trivial ⟨h.left, h.right, rfl, h.newest, h.older, h.pending⟩
  | 1 =>
    have ht : t.held = 1 := h.held ▸ hs
    simp only [takeComment, ofStep_eq, Lookahead.takeComment, hs, ht]
    exact .ok trivial ⟨h.left, h.right, rfl, h.newest, h.older, h.pending⟩
  | k + 2 =>
    have ht : t.held = k + 2 := h.held ▸ hs
    simp only [takeComment, ofStep_eq, Lookahead.takeComment, hs, ht]
    exact .ok trivial h

theorem inStep_locate (offset offset' : Nat) :
    InStep e Whatever (locate offset) (locate offset') := fun _ _ h => .ok trivial h

theorem inStep_breaksBetween (start stop start' stop' : Nat) :
    InStep e Whatever (breaksBetween start stop) (breaksBetween start' stop') :=
  fun _ _ h => .ok trivial h

theorem inStep_infoOf : InStep e Whatever (infoOf u) (infoOf v) :=
  inStep_takeComment.bind fun _ _ _ => (inStep_locate _ _).bind fun _ _ _ => inStep_pure trivial

theorem inStep_reject (cause : ParseCause) :
    InStep e R (reject u cause) (reject v cause) := fun _ _ _ => .rejected rfl

theorem inStep_unexpected (h : u.Alike v) (kinds : List TokenKind) :
    InStep e R (unexpected u kinds) (unexpected v kinds) := by
  simp only [unexpected, h.kind, h.text]
  exact inStep_reject _

theorem inStep_expect (kind : TokenKind) :
    InStep e (fun u v => u.Alike v ∧ u.kind = kind) (expect kind) (expect kind) := by
  refine inStep_next.bind fun u v h => ?_
  rw [← h.kind]
  exact .ite (fun hk => inStep_pure ⟨h, hk⟩) fun _ => inStep_unexpected h _

end

/-! ## Literals -/

/-- Two results that are related, or fail for the same reason. -/
inductive SameResult {ε α β : Type} (R : α → β → Prop) : Except ε α → Except ε β → Prop where
  | ok {x : α} {y : β} (h : R x y) : SameResult R (.ok x) (.ok y)
  | error (e : ε) : SameResult R (.error e) (.error e)

/-- Two trees with the same meaning. -/
def SameNode (m n : Node) : Prop := m.same n = true

/-- Two lists of trees with the same meaning. -/
def SameNodes (ms ns : List Node) : Prop := Node.sameAll ms ns = true

/-- Two numbers with the same value. -/
def SameNumber (v w : Number) : Prop := v.same w = true

section

variable {info info' : Info} {text : String}

theorem sameNumber_ofText (text : String) :
    SameResult SameNumber (Number.ofText text) (Number.ofText text) := by
  cases h : Number.ofText text with
  | error e => exact .error e
  | ok v => exact .ok (Number.same_self_of_ofText h)

theorem sameNode_duration :
    SameResult SameNode (Node.durationOfText info text) (Node.durationOfText info' text) := by
  simp only [Node.durationOfText]
  cases Duration.parse text with
  | error e => exact .error _
  | ok span => exact .ok (by simp [SameNode, Node.same])

theorem sameNode_regex :
    SameResult SameNode (Node.regexOfText info text) (Node.regexOfText info' text) := by
  simp only [Node.regexOfText, Node.regexOfLiteral]
  split
  · exact .ok (by simp [SameNode, Node.same])
  · exact .error _

/-- The text of a string that was scanned has a value. -/
theorem Token.Formed.exists_string {t : Token} (h : t.Formed) (hk : t.kind = .string) :
    ∃ body triple, Node.stringBody? t.text.toList = some (body, triple) := by
  simp only [Token.Formed, hk] at h
  rcases h with ⟨inner, htext, -, hhead⟩ | htriple
  · rw [htext, Node.stringBody?]
    split
    · -- What opens with three quotes here is too short, or its body begins with a quote.
      rename_i hopens
      obtain ⟨hsize, hp⟩ := hopens
      cases inner with
      | nil => exact absurd hsize (by decide)
      | cons c cs =>
        simp at hp hhead
        exact absurd hp.1.symm hhead
    · exact ⟨_, _, rfl⟩
  · obtain ⟨body, hbody⟩ := htriple.exists_body
    exact ⟨body, true, hbody⟩

theorem SameNodes.cons {m n : Node} {ms ns : List Node} (h : SameNode m n)
    (hs : SameNodes ms ns) : SameNodes (m :: ms) (n :: ns) := by
  show Node.sameAll (m :: ms) (n :: ns) = true
  rw [Node.sameAll, show m.same n = true from h, show Node.sameAll ms ns = true from hs]
  rfl

theorem sameNode_parens {m n : Node} (h : SameNode m n) (c d : Option Comment) :
    SameNode (m.parenthesize.setComment c) (n.parenthesize.setComment d) := by
  cases m <;> cases n <;> exact h

end

/-! ## The functions of the grammar -/

section

open PipelineScript.Parser

variable {e : Ends} {m n : Nat} {u v : Token}

theorem inStep_literal {α β : Type} {R : α → β → Prop} {x : Except NodeError α}
    {y : Except NodeError β} (h : SameResult R x y) : InStep e R (literal u x) (literal v y) := by
  cases h with
  | ok h => exact inStep_pure h
  | error e => exact inStep_reject _

theorem inStep_identifier :
    InStep e (fun i j : Identifier => i.name = j.name) identifier identifier :=
  (inStep_expect _).bind fun _ _ h => inStep_infoOf.bind fun _ _ _ => inStep_pure h.1.text

theorem inStep_name :
    InStep e SameNode (do return .identifier (← identifier))
      (do return .identifier (← identifier)) :=
  inStep_identifier.bind fun _ _ h => inStep_pure (by simp [SameNode, Node.same, h])

theorem inStep_string : InStep e SameNode string string := by
  refine (inStep_expect _).bind fun u v h => inStep_infoOf.bind fun i j _ => ?_
  obtain ⟨body, triple, hbody⟩ := h.1.formed.exists_string h.2
  have hu : Node.stringOfText? i u.text = some (.string i (String.ofList body) triple) := by
    rw [Node.stringOfText?, hbody]
    rfl
  have hv : Node.stringOfText? j v.text = some (.string j (String.ofList body) triple) := by
    rw [← h.1.text, Node.stringOfText?, hbody]
    rfl
  rw [hu, hv]
  exact inStep_pure (by simp [SameNode, Node.same])

theorem inStep_star : InStep e SameNode star star :=
  (inStep_expect _).bind fun _ _ _ => inStep_infoOf.bind fun _ _ _ => inStep_pure rfl

theorem inStep_isCall : InStep e Eq isCall isCall :=
  inStep_next.bind fun _ _ _ => inStep_peek.bind fun _ _ h => inStep_backup.bind fun _ _ _ =>
    inStep_pure (by rw [h.kind])

theorem inStep_peekOperator (least : Nat) : InStep e Eq (peekOperator least) (peekOperator least) :=
  inStep_peek.bind fun _ _ h => inStep_pure (by rw [h.kind])

theorem inStep_call (h : u.Alike v) (kind : CallKind) (comment comment' : Option Comment)
    {args args' : List Node} (hargs : SameNodes args args') :
    InStep e SameNode (call u kind comment args) (call v kind comment' args') := by
  have hrest (broken broken' : Bool) : InStep e SameNode
      (do return .func ⟨← locate u.offset, comment⟩ kind u.text args broken)
      (do return .func ⟨← locate v.offset, comment'⟩ kind v.text args' broken') := by
    refine (inStep_locate _ _).bind fun i j _ => inStep_pure ?_
    have hargs : Node.sameAll args args' = true := hargs
    simp [SameNode, Node.same, h.text, hargs]
  rw [call, call]
  cases args.getLast? <;> cases args'.getLast? <;>
    refine InStep.bind (R := Whatever) (fun _ _ h => .ok trivial h) fun _ _ _ => hrest _ _

/-- The functions for operands and operations stay in step. -/
structure OperationsInStep [PatternEngine] (e : Ends) (m n : Nat) : Prop where
  operand : InStep e SameNode (operand m) (operand n)
  operation : InStep e SameNode (operation m) (operation n)
  climb : ∀ {left left' : Node} (least : Nat), SameNode left left' →
    InStep e SameNode (climb m left least) (climb n left' least)
  climbRight : ∀ {right right' : Node} (op : BinaryOp), SameNode right right' →
    InStep e SameNode (climbRight m op right) (climbRight n op right')
  list : InStep e SameNodes (operationList m) (operationList n)

theorem inStep_operand_unary (ih : OperationsInStep e m n) (op : UnaryOp) :
    InStep e SameNode
      (do
        let _ ← next
        let inner ← operand m
        return .unary (← infoOf u) op inner)
      (do
        let _ ← next
        let inner ← operand n
        return .unary (← infoOf v) op inner) := by
  refine inStep_next.bind fun _ _ _ => ih.operand.bind fun x y hxy => ?_
  refine inStep_infoOf.bind fun i j _ => inStep_pure ?_
  show (Node.unary i op x).same (.unary j op y) = true
  rw [Node.same, show x.same y = true from hxy]
  simp

theorem OperationsInStep.operand_succ (ih : OperationsInStep e m n) :
    InStep e SameNode (Parser.operand (m + 1)) (Parser.operand (n + 1)) := by
  rw [Parser.operand, Parser.operand]
  refine inStep_peek.bind fun u v h => ?_
  rw [← h.kind]
  cases hk : u.kind with
  | lparen =>
    refine inStep_next.bind fun _ _ _ => inStep_takeComment.bind fun _ _ _ => ?_
    refine ih.operation.bind fun x y hxy => (inStep_expect _).bind fun _ _ _ => ?_
    exact inStep_pure (sameNode_parens hxy _ _)
  | number =>
    refine (inStep_expect _).bind fun t w ht => inStep_infoOf.bind fun i j _ => ?_
    rw [← ht.1.text]
    exact (inStep_literal (sameNumber_ofText _)).bind fun x y hxy => inStep_pure hxy
  | string => exact inStep_string
  | bool value =>
    refine inStep_next.bind fun _ _ _ => inStep_infoOf.bind fun _ _ _ => inStep_pure ?_
    exact beq_self_eq_true value
  | duration =>
    refine (inStep_expect _).bind fun t w ht => inStep_infoOf.bind fun i j _ => ?_
    rw [← ht.1.text]
    exact inStep_literal sameNode_duration
  | regex =>
    refine (inStep_expect _).bind fun t w ht => inStep_infoOf.bind fun i j _ => ?_
    rw [← ht.1.text]
    exact inStep_literal sameNode_regex
  | star => exact inStep_star
  | reference =>
    refine (inStep_expect _).bind fun t w ht => inStep_infoOf.bind fun i j _ => ?_
    rw [← ht.1.text]
    exact inStep_pure (by simp [SameNode, Node.referenceOfText, Node.same])
  | ident =>
    refine inStep_isCall.bind fun called called' hcalled => ?_
    subst hcalled
    cases called with
    | false => exact inStep_name
    | true =>
      refine (inStep_expect _).bind fun t w ht => (inStep_expect _).bind fun _ _ _ => ?_
      refine ih.list.bind fun xs ys hxy => (inStep_expect _).bind fun _ _ _ => ?_
      exact inStep_call ht.1 _ _ _ hxy
  | binary op =>
    cases op with
    | subtract => exact inStep_operand_unary ih .negate
    | _ => exact inStep_unexpected h _
  | not => exact inStep_operand_unary ih .not
  | _ => exact inStep_unexpected h _

theorem OperationsInStep.operation_succ (ih : OperationsInStep e m n) :
    InStep e SameNode (Parser.operation (m + 1)) (Parser.operation (n + 1)) := by
  rw [Parser.operation, Parser.operation]
  exact ih.operand.bind fun x y hxy => ih.climb 0 hxy

theorem OperationsInStep.climb_succ (ih : OperationsInStep e m n) {left left' : Node}
    (least : Nat) (h : SameNode left left') :
    InStep e SameNode (Parser.climb (m + 1) left least) (Parser.climb (n + 1) left' least) := by
  rw [Parser.climb, Parser.climb]
  refine (inStep_peekOperator least).bind fun op? op?' hop => ?_
  subst hop
  cases op? with
  | none => exact inStep_pure h
  | some op =>
    refine inStep_next.bind fun _ _ _ => inStep_takeComment.bind fun _ _ _ => ?_
    refine ih.operand.bind fun x y hxy => (ih.climbRight op hxy).bind fun right right' hright => ?_
    refine (inStep_breaksBetween _ _ _ _).bind fun broken broken' _ => ?_
    refine (inStep_locate _ _).bind fun i j _ => ih.climb least ?_
    have hleft : left.same left' = true := h
    have hright : right.same right' = true := hright
    simp [SameNode, Node.same, hleft, hright]

theorem OperationsInStep.climbRight_succ (ih : OperationsInStep e m n) {right right' : Node}
    (op : BinaryOp) (h : SameNode right right') :
    InStep e SameNode (Parser.climbRight (m + 1) op right)
      (Parser.climbRight (n + 1) op right') := by
  rw [Parser.climbRight, Parser.climbRight]
  refine (inStep_peekOperator _).bind fun tighter? tighter?' htighter => ?_
  subst htighter
  cases tighter? with
  | none => exact inStep_pure h
  | some tighter => exact (ih.climb _ h).bind fun x y hxy => ih.climbRight op hxy

/-- The lists of operations and of expressions differ only in their elements. -/
theorem inStep_list {close : TokenKind} {x y : Parser Node} {xs ys : Parser (List Node)}
    (hx : InStep e SameNode x y) (hxs : InStep e SameNodes xs ys) :
    InStep e SameNodes
      (do
        if (← peek).kind = close then return []
        let first ← x
        if (← next).kind = .comma then return first :: (← xs)
        else
          backup
          return [first])
      (do
        if (← peek).kind = close then return []
        let first ← y
        if (← next).kind = .comma then return first :: (← ys)
        else
          backup
          return [first]) := by
  refine inStep_peek.bind fun u v huv => ?_
  rw [← huv.kind]
  refine .ite (fun _ => inStep_pure rfl) fun _ => ?_
  refine hx.bind fun p q hpq => inStep_next.bind fun t w htw => ?_
  rw [← htw.kind]
  refine .ite (fun _ => hxs.bind fun ps qs hrest => inStep_pure (.cons hpq hrest)) fun _ => ?_
  exact inStep_backup.bind fun _ _ _ => inStep_pure (.cons hpq rfl)

/-- **The functions for operands and operations stay in step**, whatever their fuel. -/
theorem operationsInStep (e : Ends) (m n : Nat) : OperationsInStep e m n := by
  -- The induction is on one fuel for every other fuel: where either is used up, nothing is
  -- compared.
  induction m generalizing n with
  | zero =>
    exact ⟨inStep_exhausted_left, inStep_exhausted_left, fun _ _ => inStep_exhausted_left,
      fun _ _ => inStep_exhausted_left, inStep_exhausted_left⟩
  | succ m ih =>
    cases n with
    | zero =>
      exact ⟨inStep_exhausted_right, inStep_exhausted_right, fun _ _ => inStep_exhausted_right,
        fun _ _ => inStep_exhausted_right, inStep_exhausted_right⟩
    | succ n =>
      have hlist : InStep e SameNodes (operationList (m + 1)) (operationList (n + 1)) := by
        rw [operationList, operationList]
        exact inStep_list (ih n).operation (ih n).list
      exact ⟨(ih n).operand_succ, (ih n).operation_succ, (ih n).climb_succ, (ih n).climbRight_succ,
        hlist⟩

/-! ## Expressions -/

theorem inStep_item : InStep e SameNode item item := by
  refine inStep_peek.bind fun u v h => ?_
  rw [← h.kind]
  cases u.kind with
  | ident => exact inStep_name
  | string => exact inStep_string
  | star => exact inStep_star
  | _ => exact inStep_unexpected h _

theorem inStep_itemList : InStep e SameNodes (itemList m) (itemList n) := by
  induction m generalizing n with
  | zero => exact inStep_exhausted_left
  | succ m ih =>
    cases n with
    | zero => exact inStep_exhausted_right
    | succ n =>
      rw [itemList, itemList]
      exact inStep_list inStep_item ih

theorem inStep_bracket : InStep e SameNode (Parser.list m) (Parser.list n) := by
  refine (inStep_expect _).bind fun _ _ _ => inStep_infoOf.bind fun _ _ _ => ?_
  refine inStep_itemList.bind fun xs ys hxy => (inStep_expect _).bind fun _ _ _ => ?_
  exact inStep_pure hxy

theorem inStep_lambda : InStep e SameNode (lambda m) (lambda n) := by
  refine inStep_next.bind fun _ _ _ => inStep_infoOf.bind fun _ _ _ => ?_
  exact (operationsInStep e m n).operation.bind fun x y hxy => inStep_pure hxy

/-- The functions for expressions stay in step. -/
structure ExpressionsInStep [PatternEngine] (e : Ends) (m n : Nat) : Prop where
  expression : InStep e SameNode (expression m) (expression n)
  chain : ∀ {left left' : Node}, SameNode left left' →
    InStep e SameNode (chain m left) (chain n left')
  step : ∀ op : ChainOp, InStep e SameNode (step m op) (step n op)
  function : ∀ kind : CallKind, InStep e SameNode (function m kind) (function n kind)
  list : InStep e SameNodes (expressionList m) (expressionList n)

theorem ExpressionsInStep.expression_succ (ih : ExpressionsInStep e m n) :
    InStep e SameNode (Parser.expression (m + 1)) (Parser.expression (n + 1)) := by
  have hoperation := (operationsInStep e m n).operation
  rw [Parser.expression, Parser.expression]
  refine inStep_peek.bind fun u v h => ?_
  rw [← h.kind]
  cases hk : u.kind with
  | ident =>
    refine inStep_next.bind fun _ _ _ => inStep_peek.bind fun p q hpq => ?_
    refine inStep_backup.bind fun _ _ _ => ?_
    rw [← hpq.kind]
    refine .ite (fun _ => ?_) fun _ => .ite (fun _ => ?_) fun _ => hoperation
    · -- A call, which may begin a chain or be the first operand of an operation.
      refine (ih.function .global).bind fun x y hxy => inStep_peek.bind fun t w htw => ?_
      rw [← htw.kind]
      exact .ite (fun _ => ih.chain hxy) fun _ => (operationsInStep e m n).climb 0 hxy
    · -- A name that begins a chain.
      exact inStep_identifier.bind fun i j hij => ih.chain (beq_iff_eq.2 hij)
  | lambda => exact inStep_lambda
  | lbracket => exact inStep_bracket
  | _ => exact hoperation

theorem ExpressionsInStep.chain_succ (ih : ExpressionsInStep e m n) {left left' : Node}
    (h : SameNode left left') :
    InStep e SameNode (Parser.chain (m + 1) left) (Parser.chain (n + 1) left') := by
  rw [Parser.chain, Parser.chain]
  refine inStep_peek.bind fun u v huv => ?_
  rw [← huv.kind]
  cases hk : u.kind with
  | chain op =>
    refine inStep_next.bind fun _ _ _ => inStep_takeComment.bind fun _ _ _ => ?_
    refine (ih.step op).bind fun x y hxy => (inStep_locate _ _).bind fun _ _ _ => ih.chain ?_
    have hleft : left.same left' = true := h
    have hright : x.same y = true := hxy
    simp [SameNode, Node.same, hleft, hright]
  | _ => exact inStep_pure h

theorem ExpressionsInStep.step_succ (ih : ExpressionsInStep e m n) (op : ChainOp) :
    InStep e SameNode (Parser.step (m + 1) op) (Parser.step (n + 1) op) := by
  -- Behind the operator both put the name back and read a call or the name alone.
  have hbehind (called : Bool) : InStep e SameNode
      (do
        backup
        if called then Parser.function m (CallKind.ofChain op)
        else return .identifier (← identifier))
      (do
        backup
        if called then Parser.function n (CallKind.ofChain op)
        else return .identifier (← identifier)) := by
    refine inStep_backup.bind fun _ _ _ => ?_
    cases called with
    | false => exact inStep_name
    | true => exact ih.function _
  rw [Parser.step, Parser.step]
  refine inStep_next.bind fun _ _ _ => .ite (fun _ => hbehind true) fun _ => ?_
  refine inStep_peek.bind fun u v huv => ?_
  rw [← huv.kind]
  exact hbehind _

theorem ExpressionsInStep.function_succ (ih : ExpressionsInStep e m n) (kind : CallKind) :
    InStep e SameNode (Parser.function (m + 1) kind) (Parser.function (n + 1) kind) := by
  rw [Parser.function, Parser.function]
  refine (inStep_expect _).bind fun u v huv => inStep_takeComment.bind fun _ _ _ => ?_
  refine (inStep_expect _).bind fun _ _ _ => ih.list.bind fun xs ys hxy => ?_
  exact (inStep_expect _).bind fun _ _ _ => inStep_call huv.1 _ _ _ hxy

/-- **The functions for expressions stay in step**, whatever their fuel. -/
theorem expressionsInStep (e : Ends) (m n : Nat) : ExpressionsInStep e m n := by
  induction m generalizing n with
  | zero =>
    exact ⟨inStep_exhausted_left, fun _ => inStep_exhausted_left, fun _ => inStep_exhausted_left,
      fun _ => inStep_exhausted_left, inStep_exhausted_left⟩
  | succ m ih =>
    cases n with
    | zero =>
      exact ⟨inStep_exhausted_right, fun _ => inStep_exhausted_right,
        fun _ => inStep_exhausted_right, fun _ => inStep_exhausted_right, inStep_exhausted_right⟩
    | succ n =>
      have hlist : InStep e SameNodes (expressionList (m + 1)) (expressionList (n + 1)) := by
        rw [expressionList, expressionList]
        exact inStep_list (ih n).expression (ih n).list
      exact ⟨(ih n).expression_succ, (ih n).chain_succ, (ih n).step_succ, (ih n).function_succ,
        hlist⟩

theorem inStep_declaration : InStep e SameNode (declaration m) (declaration n) := by
  refine (inStep_expect _).bind fun _ _ _ => inStep_takeComment.bind fun _ _ _ => ?_
  refine inStep_identifier.bind fun i j hij => (inStep_locate _ _).bind fun _ _ _ => ?_
  refine inStep_peek.bind fun u v huv => ?_
  rw [← huv.kind]
  refine .ite (fun _ => ?_) fun _ => ?_
  · refine (inStep_expect _).bind fun _ _ _ => ?_
    refine (expressionsInStep e m n).expression.bind fun x y hxy => inStep_pure ?_
    have hvalue : x.same y = true := hxy
    simp [SameNode, Node.same, hij, hvalue]
  · refine inStep_identifier.bind fun k l hkl => inStep_pure ?_
    simp [SameNode, Node.same, hij, hkl]

theorem inStep_statement [PatternEngine] : InStep e SameNode (statement m) (statement n) := by
  refine inStep_peek.bind fun u v huv => ?_
  rw [← huv.kind]
  exact .ite (fun _ => inStep_declaration) fun _ => (expressionsInStep e m n).expression

end

/-! ## Whole scripts -/

/-- A node that holds comments behind the last statement. -/
def Node.isRemark : Node → Bool
  | .comment _ => true
  | _ => false

/-- A program without the comments behind its last statement. -/
def Node.withoutRemarks : Node → Node
  | .program position statements => .program position (statements.rdropWhile isRemark)
  | n => n

/-- Two lists of statements that have the same meaning but for comments at their ends. -/
def SameStatements (ms ns : List Node) : Prop :=
  ∃ (ps qs : List Node) (cs ds : List Comment),
    ms = ps ++ cs.map .comment ∧ ns = qs ++ ds.map .comment ∧ SameNodes ps qs

/-- Two programs that have the same meaning but for comments at their ends. -/
inductive SameProgram : Node → Node → Prop where
  | intro {position position' : Position} {ms ns : List Node} (h : SameStatements ms ns) :
      SameProgram (.program position ms) (.program position' ns)

section

variable {m n : Node} {ms ns : List Node}

theorem SameStatements.cons (h : SameNode m n) (hs : SameStatements ms ns) :
    SameStatements (m :: ms) (n :: ns) := by
  obtain ⟨ps, qs, cs, ds, rfl, rfl, hpq⟩ := hs
  exact ⟨m :: ps, n :: qs, cs, ds, rfl, rfl, .cons h hpq⟩

theorem SameNode.isRemark_eq (h : SameNode m n) : m.isRemark = n.isRemark := by
  cases m <;> cases n <;> first | rfl | cases h

theorem sameNodes_iff : SameNodes ms ns ↔ List.Forall₂ SameNode ms ns := by
  induction ms generalizing ns with
  | nil => cases ns <;> simp [SameNodes, Node.sameAll]
  | cons m ms ih =>
    cases ns with
    | nil => simp [SameNodes, Node.sameAll]
    | cons n ns =>
      rw [List.forall₂_cons, ← ih]
      simp [SameNodes, SameNode, Node.sameAll]

theorem SameNodes.rdropWhile (h : SameNodes ms ns) :
    SameNodes (ms.rdropWhile Node.isRemark) (ns.rdropWhile Node.isRemark) := by
  rw [sameNodes_iff] at h ⊢
  -- From the end: the comments that are dropped stand at the same places of both lists.
  rw [← List.forall₂_reverse_iff] at h
  rw [List.rdropWhile, List.rdropWhile, List.forall₂_reverse_iff]
  generalize ms.reverse = ms at h ⊢
  generalize ns.reverse = ns at h ⊢
  induction h with
  | nil => exact .nil
  | @cons p q ps qs hpq hrest ih =>
    by_cases hp : p.isRemark = true
    · rw [List.dropWhile_cons_of_pos hp, List.dropWhile_cons_of_pos (hpq.isRemark_eq ▸ hp)]
      exact ih
    · rw [List.dropWhile_cons_of_neg hp, List.dropWhile_cons_of_neg (hpq.isRemark_eq ▸ hp)]
      exact .cons hpq hrest

theorem rdropWhile_remarks (ns : List Node) (cs : List Comment) :
    (ns ++ cs.map Node.comment).rdropWhile Node.isRemark = ns.rdropWhile Node.isRemark := by
  induction cs using List.reverseRecOn with
  | nil => simp
  | append_singleton cs c ih =>
    rw [List.map_append, ← List.append_assoc, List.map_singleton,
      List.rdropWhile_concat_pos _ _ _ rfl, ih]

theorem SameProgram.same (h : SameProgram m n) :
    m.withoutRemarks.same n.withoutRemarks = true := by
  obtain ⟨ps, qs, cs, ds, rfl, rfl, hpq⟩ := h
  rw [Node.withoutRemarks, Node.withoutRemarks, Node.same, rdropWhile_remarks, rdropWhile_remarks]
  exact hpq.rdropWhile

end

section

open PipelineScript.Parser

variable {e : Ends} {m n : Nat}

theorem inStep_trailingComments : InStep e SameStatements trailingComments trailingComments :=
  fun _ _ h => .ok ⟨[], [], _, _, rfl, rfl, rfl⟩
    ⟨h.left, h.right, h.held, h.newest, h.older, h.pending⟩

theorem inStep_statements : InStep e SameStatements (statements m) (statements n) := by
  induction m generalizing n with
  | zero => exact inStep_exhausted_left
  | succ m ih =>
    cases n with
    | zero => exact inStep_exhausted_right
    | succ n =>
      rw [statements, statements]
      refine inStep_peek.bind fun u v huv => ?_
      rw [← huv.kind]
      refine .ite (fun _ => inStep_trailingComments) fun _ => ?_
      refine inStep_statement.bind fun p q hpq => ih.bind fun ps qs hrest => ?_
      exact inStep_pure (hrest.cons hpq)

theorem inStep_program [PatternEngine] : InStep e SameProgram program program := by
  have hdepth : InStep e Whatever depth depth := fun _ _ h => .ok trivial h
  refine (inStep_locate 0 0).bind fun _ _ _ => hdepth.bind fun _ _ _ => ?_
  refine inStep_statements.bind fun ms ns hmn => (inStep_expect _).bind fun _ _ _ => ?_
  exact inStep_pure (.intro hmn)

end

end PipelineScript

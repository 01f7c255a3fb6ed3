import PipelineScript.Proofs.Fuel

/-!
The parser makes progress.

Where the tokens of a script come to an end, a parser comes to a tree or a rejection, and its steps
are linear in the tokens (`ParserCall.exists_tour_within`). Each function of the grammar takes what
its rule says at least (`Rule.least`), since it keeps to a price that says so.
-/
namespace PipelineScript

section

variable {engine : PatternEngine}

/-! ## The functions of the grammar -/

/-- The functions of the grammar. -/
inductive Rule [PatternEngine] : Type → Type where
  | statements : Rule (List Node)
  | statement : Rule Node
  | declaration : Rule Node
  | expression : Rule Node
  | chain (left : Node) : Rule Node
  | step (op : ChainOp) : Rule Node
  | function (kind : CallKind) : Rule Node
  | expressionList : Rule (List Node)
  | list : Rule Node
  | itemList : Rule (List Node)
  | item : Rule Node
  | lambda : Rule Node
  | operation : Rule Node
  | climb (left : Node) (least : Nat) : Rule Node
  | climbRight (op : BinaryOp) (right : Node) : Rule Node
  | operand : Rule Node
  | application : Rule Node
  | operationList : Rule (List Node)
  | identifier : Rule Identifier
  | string : Rule Node
  | star : Rule Node

namespace Rule

variable {α : Type}

def parser [PatternEngine] {σ : Type} [TokenReader σ] (fuel : Nat) : Rule α → ParserOn σ α
  | .statements => Parser.statements fuel
  | .statement => Parser.statement fuel
  | .declaration => Parser.declaration fuel
  | .expression => Parser.expression fuel
  | .chain left => Parser.chain fuel left
  | .step op => Parser.step fuel op
  | .function kind => Parser.function fuel kind
  | .expressionList => Parser.expressionList fuel
  | .list => Parser.list fuel
  | .itemList => Parser.itemList fuel
  | .item => Parser.item
  | .lambda => Parser.lambda fuel
  | .operation => Parser.operation fuel
  | .climb left least => Parser.climb fuel left least
  | .climbRight op right => Parser.climbRight fuel op right
  | .operand => Parser.operand fuel
  | .application => Parser.application fuel
  | .operationList => Parser.operationList fuel
  | .identifier => Parser.identifier
  | .string => Parser.string
  | .star => Parser.star

/-- So many tokens does a success take at least. Only what may be empty takes none: a run of
statements, the elements of a list, and what may follow an operand or a chain. -/
def least : Rule α → Nat
  | .statements | .chain _ | .expressionList | .itemList | .climb _ _ | .climbRight _ _
  | .operationList => 0
  | .statement | .expression | .step _ | .item | .operation | .operand | .identifier | .string
  | .star => 1
  | .list | .lambda => 2
  | .declaration | .function _ | .application => 3

/-- Every function keeps to a price, and takes what the price says. -/
theorem exists_price (start : Lookahead) (fuel : Nat) (rule : Rule α) :
    ∃ p, p.tokens = rule.least ∧ Advances start p (rule.parser fuel) := by
  have operations := operationsAdvance start fuel
  have expressions := expressionsAdvance start fuel
  cases rule with
  | statements => exact ⟨_, rfl, advances_statements fuel⟩
  | statement => exact ⟨_, rfl, advances_statement fuel⟩
  | declaration => exact ⟨_, rfl, advances_declaration fuel⟩
  | expression => exact ⟨_, rfl, expressions.expression⟩
  | chain left => exact ⟨_, rfl, expressions.chain left⟩
  | step op => exact ⟨_, rfl, expressions.step op⟩
  | function kind => exact ⟨_, rfl, expressions.function kind⟩
  | expressionList => exact ⟨_, rfl, expressions.list⟩
  | list => exact ⟨_, rfl, advances_listOfItems fuel⟩
  | itemList => exact ⟨_, rfl, advances_itemList fuel⟩
  | item => exact ⟨_, rfl, advances_item⟩
  | lambda => exact ⟨_, rfl, advances_lambda fuel⟩
  | operation => exact ⟨_, rfl, operations.operation⟩
  | climb left least => exact ⟨_, rfl, operations.climb left least⟩
  | climbRight op right => exact ⟨_, rfl, operations.climbRight op right⟩
  | operand => exact ⟨_, rfl, operations.operand⟩
  | application => exact ⟨_, rfl, operations.application⟩
  | operationList => exact ⟨_, rfl, operations.list⟩
  | identifier => exact ⟨_, rfl, advances_identifier⟩
  | string => exact ⟨_, rfl, advances_string⟩
  | star => exact ⟨_, rfl, advances_star⟩

end Rule

/-- Where a parser succeeds from a reader at place `k`, it does so with its steps noted too, and they
lead on by `gain` tokens at least, and not beyond the tokens of the script. -/
def TakesAtLeast (start : Lookahead) (k : Nat) (s : Lookahead) (gain : Nat) {α : Type}
    (x : {σ : Type} → [TokenReader σ] → ParserOn σ α) : Prop :=
  ∀ a s', x s = .ok a s' → ∀ past, ∃ more k',
    x (⟨s, past⟩ : Watch) = .ok a ⟨s', past ++ more⟩ ∧ Tour start k s more k' s' ∧
      k + gain ≤ k' ∧ k' ≤ max k start.limit

theorem AdvancesFrom.takesAtLeast {start s : Lookahead} {k : Nat} {p : Price} {α : Type}
    {P : Nat → Lookahead → Prop} {x : {σ : Type} → [TokenReader σ] → ParserOn σ α}
    (hx : AdvancesFrom start P p x) (hs : P k s) : TakesAtLeast start k s p.tokens x := by
  intro a s' hok past
  have h : Fared start p k s past (x (⟨s, past⟩ : Watch)) (x s) := hx hs past
  generalize hw : x (⟨s, past⟩ : Watch) = r at h
  rw [show x s = .ok a s' from hok] at h
  cases h with
  | ok tour tracks takes stays paid => exact ⟨_, _, hw, tour, takes, stays⟩

/-! ## Streams that come to an end -/

namespace Scanner

theorem behaves_of_next_ended {s : Scanner} (hs : s.next = .ended) : s.Behaves [] .ends := by
  intro n
  induction n with
  | zero => simp [steps]
  | succ n ih =>
    simp only [steps, hs, ih]
    simp [Fate.results, List.replicate_succ]

/-- What is read to its end is the whole stream. -/
theorem behaves_of_run {s : Scanner} {limit : Nat} {ts : List Token}
    (h : run limit s = ⟨ts, .ended⟩) : s.Behaves ts .ends := by
  -- A run that was cut off at its limit would not be at its end.
  induction limit generalizing s ts with
  | zero =>
    cases hs : s.next with
    | ended =>
      rw [run, hs] at h
      cases h
      exact behaves_of_next_ended hs
    | lost => rw [run, hs] at h; cases h
    | token t after => rw [run, hs] at h; cases h
  | succ limit ih =>
    cases hs : s.next with
    | ended =>
      rw [run, hs] at h
      cases h
      exact behaves_of_next_ended hs
    | lost => rw [run, hs] at h; cases h
    | token t after =>
      rw [run_succ hs, TokenStream.mk.injEq] at h
      obtain ⟨rfl, hended⟩ := h
      exact .cons hs (ih (by rw [← hended]))

/-- A stream that comes to an end is read to its end. -/
theorem behaves_ends_iff {source : String} {ts : List Token} :
    (ofSource source.toList).Behaves ts .ends ↔ tokenize source = ⟨ts, .ended⟩ := by
  refine ⟨fun h => ?_, behaves_of_run⟩
  have hk := Text.suffixAt_size_append [] source.toList
  have hlimit : Text.size source.toList < Text.size source.toList + 1 := Nat.lt_succ_self _
  have hlong {n : Nat} (hn : ts.length ≤ n) : run n (ofSource source.toList) = ⟨ts, .ended⟩ :=
    h.run_eq hk hn
  have hends : (tokenize source).ending ≠ .endless := by
    intro hendless
    obtain ⟨us, u, hstands, -⟩ := exists_stands hk hlimit hendless
    have hrun := (hlong (Nat.le_add_left _ _)).symm.trans (hstands.run_eq ts.length)
    cases congrArg TokenStream.ending hrun
  have hmore := run_eq_of_le (ofSource source.toList)
    (Nat.le_max_left (Text.size source.toList + 1) ts.length) hends
  exact hmore.symm.trans (hlong (Nat.le_max_right _ _))

end Scanner

/-! ## Progress -/

namespace ParserCall

variable {source : String} {ts : List Token}

/-- With four for each token and four on top a call ends as the parser does, and its steps are a
tour that the tokens pay for. -/
theorem exists_tour_within (call : ParserCall) (hts : tokenize source = ⟨ts, .ended⟩) {fuel : Nat}
    (hfuel : 4 * ts.length + 4 ≤ fuel) :
    let start := Lookahead.ofSource source.toList
    ∃ past k s,
      runAll (fun _ => fuel) [call] start = ([call.parser.runOn start], s) ∧
      runAll (fun _ => fuel) [call] (⟨start, []⟩ : Watch) =
        ([call.parser.runOn start], ⟨s, past⟩) ∧
      Tour start 0 start past k s ∧ past.length ≤ 13 * ts.length + 11 := by
  intro start
  have htokens : (TokenStream.ofSource source.toList).tokens = ts := congrArg (·.tokens) hts
  have hslots : (slotsIn source.toList).length ≤ ts.length :=
    htokens ▸ length_slotsBehind_le _ [] _
  -- Comments are no slots of their own, so there are at most as many as tokens.
  have hlimit : start.limit ≤ ts.length := htokens ▸ List.length_filter_le ..
  have hwithin : call.within (fun _ => fuel) start = call.parser start :=
    call.within_of_enough (by omega)
  have hspent : Spent start 11 0 start [] (call.within (fun _ => fuel) (⟨start, []⟩ : Watch))
      (call.within (fun _ => fuel) start) := spends_call call _ (tracks_start rfl) []
  simp only [runAll, Parser.runOn, ← hwithin]
  generalize call.within (fun _ => fuel) (⟨start, []⟩ : Watch) = r at hspent ⊢
  generalize call.within (fun _ => fuel) start = r' at hspent ⊢
  cases hspent with
  | @ok _ _ _ more tour _ paid => exact ⟨more, _, _, rfl, rfl, tour, by omega⟩
  | @error _ _ _ more tour _ paid => exact ⟨more, _, _, rfl, rfl, tour, by omega⟩

end ParserCall

/-- **The parser comes to an end and makes progress.** Let the tokens of a script come to an end.
Then a program and the body of a lambda are parsed or rejected. They are so with any bound on the
nested calls and rounds of loops that leaves four for each token and four on top, and the steps of
the buffer are thirteen for each token at most and eleven on top. Wherever in the script a function
of the grammar is called, with whatever bound: where it succeeds, it has taken the least number of
tokens that its rule says, and at least two where it was to join what an operator that binds
tightly enough stands before. -/
theorem parser_makes_progress (source : String) (ts : List Token)
    (hts : (Scanner.ofSource source.toList).Behaves ts .ends) :
    let start := Lookahead.ofSource source.toList
    ((∃ n, parse source = .ok n) ∨ ∃ e, parse source = .error (.rejected e)) ∧
      ((∃ n, parseLambda source = .ok n) ∨ ∃ e, parseLambda source = .error (.rejected e)) ∧
      (∀ (call : ParserCall) (fuel : Nat), 4 * ts.length + 4 ≤ fuel → ∃ past k s,
        ParserCall.runAll (fun _ => fuel) [call] start = ([call.parser.runOn start], s) ∧
        ParserCall.runAll (fun _ => fuel) [call] (⟨start, []⟩ : Watch) =
          ([call.parser.runOn start], ⟨s, past⟩) ∧
        Tour start 0 start past k s ∧ past.length ≤ 13 * ts.length + 11) ∧
      ∀ k s, Tracks start k s → ∀ fuel,
        (∀ (α : Type) (rule : Rule α),
          TakesAtLeast start k s rule.least (rule.parser fuel)) ∧
        ∀ left least token op, start.unread k = some token → token.kind = .binary op →
          least ≤ op.precedence →
          TakesAtLeast start k s 2 (Parser.climb fuel left least) := by
  intro start
  have htokenize := Scanner.behaves_ends_iff.1 hts
  have hended : (tokenize source).ending = .ended := congrArg (·.ending) htokenize
  refine ⟨ParserCall.program.runOn_cases_of_ended hended,
    ParserCall.lambda.runOn_cases_of_ended hended,
    fun call fuel hfuel => call.exists_tour_within htokenize hfuel, fun k s hs fuel => ⟨?_, ?_⟩⟩
  · intro α rule
    obtain ⟨p, hleast, hadvances⟩ := rule.exists_price start fuel
    exact hleast ▸ hadvances.takesAtLeast hs
  · intro left least token op htoken hkind hp
    -- An operator that binds tightly enough is taken, and its right operand behind it.
    have hjoins : token.kind.joining? least = some op := by
      rw [hkind, TokenKind.joining?_binary hp]
    exact ((operationsAdvance start fuel).joined left least hjoins).takesAtLeast ⟨hs, htoken⟩

end

open scoped PatternEngine

/-- A sum with a product in it: behind the first number an operator stands, and joining succeeds
there. -/
theorem parser_makes_progress_sum :
    let source := "1 + 2 * 3"
    let start := Lookahead.ofSource source.toList
    let one : Token := ⟨.number, 0, "1"⟩
    let plus : Token := ⟨.binary .add, 2, "+"⟩
    let behind : List Token :=
      [plus, ⟨.number, 4, "2"⟩, ⟨.binary .multiply, 6, "*"⟩, ⟨.number, 8, "3"⟩, ⟨.eof, 9, ""⟩]
    let s := { start with pending := behind, newest := ⟨one, none⟩ }
    let left : Node := .number ⟨⟨0, 1, 1⟩, none⟩ (.int 1 10)
    (Scanner.ofSource source.toList).Behaves (one :: behind) .ends ∧
      ((∃ n, parse source = .ok n) ∨ ∃ e, parse source = .error (.rejected e)) ∧
      (4 * (one :: behind).length + 4 ≤ 28 ∧ ∃ past k s',
        ParserCall.runAll (fun _ => 28) [.program] (⟨start, []⟩ : Watch) =
          ([parse source], ⟨s', past⟩) ∧
        Tour start 0 start past k s' ∧ past.length ≤ 89) ∧
      Tracks start 1 s ∧ start.unread 1 = some plus ∧ 0 ≤ BinaryOp.add.precedence ∧
      TakesAtLeast start 1 s 2 (Parser.climb 9 left 0) ∧
      (Parser.runOn (Parser.climb 9 left 0) s).toBool = true := by
  intro source start one plus behind s left
  have hts : (Scanner.ofSource source.toList).Behaves (one :: behind) .ends :=
    Scanner.behaves_ends_iff.2 (by decide +kernel)
  obtain ⟨hparse, -, hwithin, hgains⟩ := parser_makes_progress source (one :: behind) hts
  obtain ⟨past, k, s', -, hwatch, htour, hlen⟩ := hwithin .program 28 (by decide)
  -- Behind the first number the buffer has given out one token, and the plus is next.
  have hnext : start.next = .ok (one, s) := by decide +kernel
  have hs : Tracks start 1 s := ((tracks_start rfl).next hnext).1
  have hplus : start.unread 1 = some plus := by decide +kernel
  exact ⟨hts, hparse, ⟨by decide, past, k, s', hwatch, htour, hlen⟩, hs, hplus, Nat.zero_le _,
    (hgains 1 s hs 9).2 left 0 plus .add hplus rfl (Nat.zero_le _), by decide +kernel⟩

end PipelineScript

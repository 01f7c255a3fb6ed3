import PipelineScript.Proofs.Price

/-!
Calls of one parser.

A parser may be called again where it has got to, also after a failure. Whatever it is called for,
its steps are a tour of the script, and noting them changes nothing (`tour_of_calls`). The steps of
one call are linear in the tokens of the script (`spends_call`).
-/
namespace PipelineScript

/-- What a parser can be called for. -/
inductive ParserCall where
  | program
  | lambda
deriving DecidableEq, Repr

section

variable [PatternEngine] {σ : Type} [TokenReader σ]

/-- A whole program, with a bound on the depth of the grammar. -/
def Parser.programWithin (fuel : Nat) : ParserOn σ Node := do
  let position ← locate 0
  let statements ← statements fuel
  let _ ← expect .eof
  return .program position statements

/-- The body of a lambda, with a bound on the depth of the grammar. -/
def Parser.lambdaBodyWithin (fuel : Nat) : ParserOn σ Node := do
  let body ← operation fuel
  let position ← locate 0
  let _ ← expect .eof
  return .lambda ⟨position, none⟩ body

namespace ParserCall

def parser : ParserCall → Parser Node
  | .program => Parser.program
  | .lambda => Parser.lambdaBody

/-- A call with a bound of its own on the depth of the grammar. -/
def within (bound : Lookahead → Nat) : ParserCall → ParserOn σ Node
  | .program => fun s => Parser.programWithin (bound (TokenReader.buffer s)) s
  | .lambda => fun s => Parser.lambdaBodyWithin (bound (TokenReader.buffer s)) s

/-- The results of calls, one after the other. A call begins where the one before it ended, also if
that one failed. -/
def runAll (bound : Lookahead → Nat) : List ParserCall → σ → List (Except ParseFailure Node) × σ
  | [], s => ([], s)
  | call :: calls, s =>
    match call.within bound s with
    | .ok node s' =>
      let (results, s'') := runAll bound calls s'
      (.ok node :: results, s'')
    | .error e s' =>
      let (results, s'') := runAll bound calls s'
      (.error e :: results, s'')

end ParserCall

end

section

variable {engine : PatternEngine}

theorem ParserCall.within_fuel (call : ParserCall) :
    call.within Lookahead.fuel = call.parser := by
  have hlocate (s : Lookahead) : Parser.locate 0 s = .ok (.locate s.bytes 0) s := rfl
  funext s
  cases call with
  | program =>
    simp only [within, parser, Parser.programWithin, Parser.program, Parser.bind_ok (hlocate s),
      Parser.depth_bind, TokenReader.buffer_lookahead]
  | lambda =>
    simp only [within, parser, Parser.lambdaBodyWithin, Parser.lambdaBody, Parser.depth_bind,
      TokenReader.buffer_lookahead]

/-! ### Steps of a call -/

/-- What a parser comes to from a reader at place `k`, with its steps noted and without, if it makes
so many steps at most beyond thirteen for each token. -/
inductive Spent (start : Lookahead) (c : Int) (k : Nat) (s : Lookahead)
    (past : List (BufferStep × Lookahead)) {α : Type} :
    EStateM.Result ParseFailure Watch α → EStateM.Result ParseFailure Lookahead α → Prop
  | ok {a : α} {k' : Nat} {s' : Lookahead} {more : List (BufferStep × Lookahead)}
      (tour : Tour start k s more k' s') (tracks : Tracks start k' s')
      (paid : (more.length : Int) + 13 * k ≤ 13 * max k start.limit + c) :
      Spent start c k s past (.ok a ⟨s', past ++ more⟩) (.ok a s')
  | error {e : ParseFailure} {k' : Nat} {s' : Lookahead} {more : List (BufferStep × Lookahead)}
      (tour : Tour start k s more k' s') (tracks : Tracks start k' s')
      (paid : (more.length : Int) + 13 * k ≤ 13 * max k start.limit + c) :
      Spent start c k s past (.error e ⟨s', past ++ more⟩) (.error e s')

/-- However a parser ends, it makes so many steps at most beyond thirteen for each token. -/
def Spends (start : Lookahead) (c : Int) {α : Type}
    (x : {σ : Type} → [TokenReader σ] → ParserOn σ α) : Prop :=
  ∀ ⦃k s⦄, Tracks start k s → ∀ past, Spent start c k s past (x (⟨s, past⟩ : Watch)) (x s)

section

open PipelineScript.Parser

variable {start s s₁ : Lookahead} {p : Price} {c d : Int} {α β : Type} {k k₁ : Nat}
  {past more : List (BufferStep × Lookahead)}
  {x : {σ : Type} → [TokenReader σ] → ParserOn σ α}
  {f : {σ : Type} → [TokenReader σ] → α → ParserOn σ β}
  {r : EStateM.Result ParseFailure Watch α} {r' : EStateM.Result ParseFailure Lookahead α}

/-- What follows a part that is paid for. -/
theorem Spent.prepend (tour : Tour start k s more k₁ s₁) (stays : k₁ ≤ max k start.limit)
    (paid : (more.length : Int) + 13 * k + c ≤ 13 * k₁ + d)
    (h : Spent start c k₁ s₁ (past ++ more) r r') : Spent start d k s past r r' := by
  cases h with
  | ok tour' tracks' paid' =>
    rw [List.append_assoc]
    refine .ok (tour.append tour') tracks' ?_
    rw [List.length_append]
    omega
  | error tour' tracks' paid' =>
    rw [List.append_assoc]
    refine .error (tour.append tour') tracks' ?_
    rw [List.length_append]
    omega

theorem AdvancesFrom.spends_bind (hx : Advances start p x) (hf : ∀ a, Spends start c (f a))
    (hfailing : p.failing ≤ d) (hsteps : p.steps + c ≤ d) : Spends start d (x >>= f) := by
  intro k s hs past
  have h : Fared start p k s past (x (⟨s, past⟩ : Watch)) (x s) := hx hs past
  generalize hw : x (⟨s, past⟩ : Watch) = r at h
  generalize hl : x s = r' at h
  cases h with
  | ok tour tracks takes stays paid =>
    exact both_bind_ok hw hl (.prepend tour stays (by omega) (hf _ tracks _))
  | error tour tracks paid => exact both_bind_error hw hl (.error tour tracks (by omega))

/-- What is done with a result makes no step. -/
theorem Spends.and_return (hx : Spends start c x) (g : α → β) :
    Spends start c (do return g (← x)) := by
  intro k s hs past
  have h : Spent start c k s past (x (⟨s, past⟩ : Watch)) (x s) := hx hs past
  generalize hw : x (⟨s, past⟩ : Watch) = r at h
  generalize hl : x s = r' at h
  cases h with
  | ok tour tracks paid => exact both_bind_ok hw hl (.ok tour tracks paid)
  | error tour tracks paid => exact both_bind_error hw hl (.error tour tracks paid)

/-- One more token is asked for, which may be the end of the text. -/
theorem spends_expect (kind : TokenKind) : Spends start 1 (expect kind) := by
  intro k s hs past
  have hpaid (entry : BufferStep × Lookahead) :
      (([entry].length : Nat) : Int) + 13 * k ≤ 13 * max k start.limit + 1 := by
    rw [List.length_singleton]
    omega
  rcases next_cases hs past with ⟨token, s₁, hw, hl, htour, htracks, -, -⟩ | ⟨e, hw, hl, htour, -⟩
  · refine both_bind_ok hw hl ?_
    split
    · exact .ok htour htracks (hpaid _)
    · exact .error htour htracks (hpaid _)
  · exact both_bind_error hw hl (.error htour hs (hpaid _))

/-- Where a script is parsed as a whole, eleven steps are paid for by no token. -/
theorem spends_call (call : ParserCall) (bound : Lookahead → Nat) :
    Spends start 11 (call.within bound) := by
  intro k s hs past
  cases call with
  | program =>
    have h : Spends start 11 (programWithin (bound s)) :=
      (advances_locate _).spends_bind (fun _ => (advances_statements _).spends_bind
        (fun _ => (spends_expect _).and_return _) (by decide) (d := 11) (by decide)) (by decide)
        (by decide)
    exact h hs past
  | lambda =>
    have h : Spends start 11 (lambdaBodyWithin (bound s)) :=
      (operationsAdvance start _).operation.spends_bind (fun _ => (advances_locate _).spends_bind
        (fun _ => (spends_expect _).and_return _) (by decide) (d := 1) (by decide)) (by decide)
        (by decide)
    exact h hs past

end

/-! ### One call after the other -/

/-- A reader before some tokens of a script. -/
def Lookahead.ofStream (source : List Char) (stream : TokenStream) : Lookahead where
  bytes := Text.bytes source
  pending := stream.tokens
  ending := stream.ending
  newest := Lookahead.emptySlot
  older := Lookahead.emptySlot
  held := 0

/-- One call behind the other, also behind calls that failed. -/
theorem exists_tour_of_calls {start s : Lookahead} {k : Nat} (bound : Lookahead → Nat)
    (calls : List ParserCall) (hs : Tracks start k s) (past : List (BufferStep × Lookahead)) :
    ∃ k' s' results more, ParserCall.runAll bound calls s = (results, s') ∧
      ParserCall.runAll bound calls (⟨s, past⟩ : Watch) = (results, ⟨s', past ++ more⟩) ∧
      Tour start k s more k' s' := by
  induction calls generalizing k s past with
  | nil => exact ⟨k, s, [], [], rfl, by simp [ParserCall.runAll], .stop hs.standing⟩
  | cons call calls ih =>
    have hcall : Spent start 11 k s past (call.within bound (⟨s, past⟩ : Watch))
        (call.within bound s) := spends_call call bound hs past
    simp only [ParserCall.runAll]
    generalize call.within bound (⟨s, past⟩ : Watch) = r at hcall ⊢
    generalize call.within bound s = r' at hcall ⊢
    cases hcall with
    | @ok node _ _ more tour tracks =>
      obtain ⟨k', s', results, more', hrun, hwatch, htour⟩ := ih tracks (past ++ more)
      exact ⟨k', s', .ok node :: results, more ++ more', by simp [hrun],
        by simp [hwatch, List.append_assoc], tour.append htour⟩
    | @error e _ _ more tour tracks =>
      obtain ⟨k', s', results, more', hrun, hwatch, htour⟩ := ih tracks (past ++ more)
      exact ⟨k', s', .error e :: results, more ++ more', by simp [hrun],
        by simp [hwatch, List.append_assoc], tour.append htour⟩

/-- **The look-ahead buffer is a plain cursor**: however often a parser is called, whatever has
failed before, its steps are a tour of the tokens of the script. The statement holds for any number
of tokens that are read of the script and for any bound on the depth of the grammar, so it
reaches every step of a parser that never comes to an end. The bound of the parser itself is
`Lookahead.fuel`. -/
theorem tour_of_calls (source : String) (limit : Nat) (bound : Lookahead → Nat)
    (calls : List ParserCall) :
    let stream := Scanner.run limit (.ofSource source.toList)
    let start := Lookahead.ofStream source.toList stream
    ∃ k s results past, ParserCall.runAll bound calls start = (results, s) ∧
      ParserCall.runAll bound calls (⟨start, []⟩ : Watch) = (results, ⟨s, past⟩) ∧
      Tour start 0 start past k s ∧
      (stream.ending = .ended → ∀ entry ∈ past, entry.1 ≠ .stuck) ∧
      ∀ call : ParserCall, call.within Lookahead.fuel = call.parser := by
  intro stream start
  obtain ⟨k, s, results, past, hrun, hwatch, htour⟩ :=
    exists_tour_of_calls bound calls (tracks_start (rfl : start.held = 0)) []
  exact ⟨k, s, results, past, hrun, hwatch, htour, fun he => htour.ne_stuck he,
    ParserCall.within_fuel⟩

end

end PipelineScript

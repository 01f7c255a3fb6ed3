import PipelineScript.Proofs.Tour

/-!
What the functions of the grammar take and cost.

The steps of every function are a tour of the script, and noting them changes nothing
(`AdvancesFrom`). Each function has a price: so many tokens does a success take at least, and so
many steps of the buffer does a call cost beyond those that the tokens pay for. A token pays for
thirteen, which are as many as it takes to read a statement that is a single name. Prices add up
along a computation (`AdvancesFrom.bind`), and no round of a loop costs more than its tokens pay
for.
-/
namespace PipelineScript

section

variable {engine : PatternEngine}

/-! ## Prices -/

/-- What a parser takes and what it costs. -/
structure Price where
  /-- So many tokens are taken at least, where the parser succeeds. -/
  tokens : Nat
  /-- So many steps are made at most where it succeeds, beyond thirteen for each token taken. -/
  steps : Int
  /-- So many steps are made at most where it fails, beyond thirteen for each token left. -/
  failing : Int
deriving DecidableEq, Repr

namespace Price

/-- No step at all. -/
def free : Price := ⟨0, 0, 0⟩

/-- A step that stays before the token. -/
def look : Price := ⟨0, 1, 1⟩

/-- A step that takes a token. -/
def take : Price := ⟨1, -12, 1⟩

/-- One parser and then another. -/
def andThen (p q : Price) : Price :=
  ⟨p.tokens + q.tokens, p.steps + q.steps, max p.failing (p.steps + q.failing)⟩

/-- The second price promises no more than the first one. -/
instance : LE Price := ⟨fun p q => q.tokens ≤ p.tokens ∧ p.steps ≤ q.steps ∧ p.failing ≤ q.failing⟩

instance (p q : Price) : Decidable (p ≤ q) :=
  inferInstanceAs (Decidable (q.tokens ≤ p.tokens ∧ p.steps ≤ q.steps ∧ p.failing ≤ q.failing))

end Price

/-- The number of tokens that reach the grammar from here on, ends of text apart. -/
def Lookahead.limit (s : Lookahead) : Nat := (grammarTokens s.pending).length

/-- A token that does not end the text is one of the script. -/
theorem Lookahead.lt_limit {start : Lookahead} {k : Nat} {t : Token}
    (h : start.unread k = some t) (ht : t.kind.isLast = false) : k < start.limit := by
  rw [unread, tokenAt] at h
  cases hg : (grammarTokens start.pending)[k]? with
  | some u => exact (List.getElem?_eq_some_iff.1 hg).1
  | none =>
    simp only [hg, Option.ite_none_right_eq_some, Option.some.injEq] at h
    obtain ⟨-, rfl⟩ := h
    cases ht

/-- What a parser comes to from a reader at place `k`, at a price: first where its steps are noted,
then where they are not. -/
inductive Fared (start : Lookahead) (p : Price) (k : Nat) (s : Lookahead)
    (past : List (BufferStep × Lookahead)) {α : Type} :
    EStateM.Result ParseFailure Watch α → EStateM.Result ParseFailure Lookahead α → Prop
  | ok {a : α} {k' : Nat} {s' : Lookahead} {more : List (BufferStep × Lookahead)}
      (tour : Tour start k s more k' s') (tracks : Tracks start k' s')
      (takes : k + p.tokens ≤ k') (stays : k' ≤ max k start.limit)
      (paid : (more.length : Int) + 13 * k ≤ 13 * k' + p.steps) :
      Fared start p k s past (.ok a ⟨s', past ++ more⟩) (.ok a s')
  | error {e : ParseFailure} {k' : Nat} {s' : Lookahead} {more : List (BufferStep × Lookahead)}
      (tour : Tour start k s more k' s') (tracks : Tracks start k' s')
      (paid : (more.length : Int) + 13 * k ≤ 13 * max k start.limit + p.failing) :
      Fared start p k s past (.error e ⟨s', past ++ more⟩) (.error e s')

/-- From a reader of which `P` holds, a parser does the same whether its steps are noted or not,
and it keeps to a price. -/
def AdvancesFrom (start : Lookahead) (P : Nat → Lookahead → Prop) (p : Price) {α : Type}
    (x : {σ : Type} → [TokenReader σ] → ParserOn σ α) : Prop :=
  ∀ ⦃k s⦄, P k s → ∀ past, Fared start p k s past (x (⟨s, past⟩ : Watch)) (x s)

/-- From any reader, a parser keeps to a price. -/
abbrev Advances (start : Lookahead) (p : Price) {α : Type}
    (x : {σ : Type} → [TokenReader σ] → ParserOn σ α) : Prop :=
  AdvancesFrom start (Tracks start) p x

/-- The reader stands before a given token. -/
def Facing (start : Lookahead) (t : Token) (k : Nat) (s : Lookahead) : Prop :=
  Tracks start k s ∧ start.unread k = some t

section

open PipelineScript.Parser

variable {start s s₁ : Lookahead} {P : Nat → Lookahead → Prop} {p q : Price} {α β : Type}
  {k k₁ : Nat} {past more : List (BufferStep × Lookahead)} {t : Token}
  {x : {σ : Type} → [TokenReader σ] → ParserOn σ α}
  {f : {σ : Type} → [TokenReader σ] → α → ParserOn σ β}
  {r : EStateM.Result ParseFailure Watch α} {r' : EStateM.Result ParseFailure Lookahead α}

/-! ### Prices along a computation -/

theorem Fared.of_le (h : Fared start p k s past r r') (hle : p ≤ q) :
    Fared start q k s past r r' := by
  obtain ⟨htokens, hsteps, hfailing⟩ := hle
  cases h with
  | ok tour tracks takes stays paid => exact .ok tour tracks (by omega) stays (by omega)
  | error tour tracks paid => exact .error tour tracks (by omega)

/-- A success behind some more steps. -/
theorem Fared.ok_behind {a : α} {more' : List (BufferStep × Lookahead)} {k' : Nat} {s' : Lookahead}
    (before : Tour start k s more k₁ s₁) (tour : Tour start k₁ s₁ more' k' s')
    (tracks : Tracks start k' s') (takes : k + p.tokens ≤ k') (stays : k' ≤ max k start.limit)
    (paid : (more.length : Int) + more'.length + 13 * k ≤ 13 * k' + p.steps) :
    Fared start p k s past (.ok a ⟨s', past ++ more ++ more'⟩) (.ok a s') := by
  rw [List.append_assoc]
  refine .ok (before.append tour) tracks takes stays ?_
  rwa [List.length_append, Int.natCast_add]

/-- A failure behind some more steps. -/
theorem Fared.error_behind {e : ParseFailure} {more' : List (BufferStep × Lookahead)} {k' : Nat}
    {s' : Lookahead} (before : Tour start k s more k₁ s₁) (tour : Tour start k₁ s₁ more' k' s')
    (tracks : Tracks start k' s')
    (paid : (more.length : Int) + more'.length + 13 * k ≤ 13 * max k start.limit + p.failing) :
    Fared start p k s past (α := α) (.error e ⟨s', past ++ more ++ more'⟩) (.error e s') := by
  rw [List.append_assoc]
  refine .error (before.append tour) tracks ?_
  rwa [List.length_append, Int.natCast_add]

/-- What follows a part that is paid for. -/
theorem Fared.prepend (tour : Tour start k s more k₁ s₁) (takes : k + p.tokens ≤ k₁)
    (stays : k₁ ≤ max k start.limit) (paid : (more.length : Int) + 13 * k ≤ 13 * k₁ + p.steps)
    (h : Fared start q k₁ s₁ (past ++ more) r r') : Fared start (p.andThen q) k s past r r' := by
  cases h with
  | ok tour' tracks' takes' stays' paid' =>
    refine .ok_behind tour tour' tracks' ?_ (by omega) ?_
    · simp only [Price.andThen]
      omega
    · simp only [Price.andThen]
      omega
  | error tour' tracks' paid' =>
    refine .error_behind tour tour' tracks' ?_
    simp only [Price.andThen]
    omega

section

variable {R : EStateM.Result ParseFailure Watch β → EStateM.Result ParseFailure Lookahead β → Prop}
  {y : ParserOn Watch α} {z : Parser α} {g : α → ParserOn Watch β} {h : α → Parser β}
  {w w' : Watch} {s₁ s₂ : Lookahead}

/-- Two computations whose first parts succeed alike. -/
theorem both_bind_ok {a : α} (hy : y w = .ok a w') (hz : z s₁ = .ok a s₂)
    (hrest : R (g a w') (h a s₂)) : R ((y >>= g) w) ((z >>= h) s₁) := by
  rwa [Parser.bind_ok hy, Parser.bind_ok hz]

/-- Two computations whose first parts fail alike. -/
theorem both_bind_error {e : ParseFailure} (hy : y w = .error e w') (hz : z s₁ = .error e s₂)
    (hfails : R (.error e w') (.error e s₂)) : R ((y >>= g) w) ((z >>= h) s₁) := by
  rwa [Parser.bind_error hy, Parser.bind_error hz]

/-- Two computations that begin with a token put back. -/
theorem both_backup_bind {y : ParserOn Watch β} {z : Parser β}
    (hrest : R (y ⟨s₁.backup, past ++ [(.backup, s₁.backup)]⟩) (z s₁.backup)) :
    R ((backup >>= fun _ => y) ⟨s₁, past⟩) ((backup >>= fun _ => z) s₁) := hrest

end

/-- A price is met by what is cheaper. The prices below are numbers, so this is decided. -/
theorem AdvancesFrom.of_le (h : AdvancesFrom start P p x) (hle : p ≤ q) :
    AdvancesFrom start P q x :=
  fun _ _ hs past => (h hs past).of_le hle

theorem AdvancesFrom.of_tracks (h : Advances start p x) : AdvancesFrom start (Facing start t) p x :=
  fun _ _ hs past => h hs.1 past

theorem AdvancesFrom.bind (hx : AdvancesFrom start P p x) (hf : ∀ a, Advances start q (f a)) :
    AdvancesFrom start P (p.andThen q) (x >>= f) := by
  intro k s hs past
  have h : Fared start p k s past (x (⟨s, past⟩ : Watch)) (x s) := hx hs past
  generalize hw : x (⟨s, past⟩ : Watch) = r at h
  generalize hl : x s = r' at h
  cases h with
  | ok tour tracks takes stays paid =>
    exact both_bind_ok hw hl (.prepend tour takes stays paid (hf _ tracks _))
  | error tour tracks paid =>
    refine both_bind_error hw hl (.error tour tracks ?_)
    simp only [Price.andThen]
    omega

/-! ### Steps -/

theorem advances_pure (a : α) : Advances start .free (pure a) := by
  intro k s hs past
  have h : Fared start .free k s past (.ok a ⟨s, past ++ []⟩) (.ok a s) :=
    .ok (.stop hs.standing) hs (Nat.le_refl k) (by omega) (by simp [Price.free])
  rwa [List.append_nil] at h

/-- What fails may promise anything. -/
theorem advances_throw (e : ParseFailure) (h : 0 ≤ p.failing) :
    Advances start p (α := α) (throw e) := by
  intro k s hs past
  have h : Fared start p k s past (α := α) (.error e ⟨s, past ++ []⟩) (.error e s) :=
    .error (.stop hs.standing) hs (by simp only [List.length_nil]; omega)
  rwa [List.append_nil] at h

theorem advances_reject (token : Token) (cause : ParseCause) (h : 0 ≤ p.failing) :
    Advances start p (α := α) (reject token cause) :=
  fun _ _ hs past => advances_throw _ h hs past

theorem advances_unexpected (token : Token) (kinds : List TokenKind) (h : 0 ≤ p.failing) :
    Advances start p (α := α) (unexpected token kinds) := advances_reject _ _ h

theorem advances_literal (token : Token) (value : Except NodeError α) :
    Advances start .free (literal token value) := by
  cases value with
  | ok a => exact advances_pure a
  | error e => exact advances_reject _ _ (Int.le_refl 0)

theorem advances_locate (offset : Nat) : Advances start .free (locate offset) :=
  fun _ _ hs past => advances_pure _ hs past

theorem advances_breaksBetween (first last : Nat) :
    Advances start .free (breaksBetween first last) :=
  fun _ _ hs past => advances_pure _ hs past

theorem advances_call (token : Token) (kind : CallKind) (comment : Option Comment)
    (args : List Node) : Advances start .free (call token kind comment args) := by
  have hrest (broken : Bool) : Advances start .free
      (do return Node.func ⟨← locate token.offset, comment⟩ kind token.text args broken) :=
    ((advances_locate _).bind fun _ => advances_pure _).of_le (by decide)
  simp only [call]
  cases args.getLast? with
  | some last => exact ((advances_breaksBetween _ _).bind hrest).of_le (by decide)
  | none => exact ((advances_pure false).bind hrest).of_le (by decide)

/-- A step that stays before the token. -/
theorem Fared.look {a : α} {entry : BufferStep × Lookahead} (tour : Tour start k s [entry] k s₁)
    (tracks : Tracks start k s₁) :
    Fared start .look k s past (.ok a ⟨s₁, past ++ [entry]⟩) (.ok a s₁) := by
  refine .ok tour tracks (Nat.le_refl k) (by omega) ?_
  simp only [Price.look, List.length_singleton]
  omega

/-- A step that takes a token of the script. -/
theorem Fared.taken {a : α} {entry : BufferStep × Lookahead}
    (tour : Tour start k s [entry] (k + 1) s₁) (tracks : Tracks start (k + 1) s₁)
    (hlt : k < start.limit) :
    Fared start .take k s past (.ok a ⟨s₁, past ++ [entry]⟩) (.ok a s₁) := by
  refine .ok tour tracks (Nat.le_refl _) (by omega) ?_
  simp only [Price.take, List.length_singleton]
  omega

/-- A failure behind a single step. -/
theorem Fared.failed {e : ParseFailure} {entry : BufferStep × Lookahead}
    (tour : Tour start k s [entry] k₁ s₁) (tracks : Tracks start k₁ s₁) (h : 1 ≤ p.failing) :
    Fared start p k s past (α := α) (.error e ⟨s₁, past ++ [entry]⟩) (.error e s₁) := by
  refine .error tour tracks ?_
  simp only [List.length_singleton]
  omega

theorem advances_takeComment : Advances start .look takeComment := by
  intro k s hs past
  have htracks := s.fades_takeComment.tracks hs
  exact .look (.takeComment hs.standing (.stop htracks.standing)) htracks

theorem advances_trailingComments : Advances start .look trailingComments := by
  intro k s hs past
  have htracks := s.fades_takeRest.tracks hs
  exact .look (.takeRest hs.standing (.stop htracks.standing)) htracks

/-- A token is seen, and is still to come, or there is none. -/
theorem peek_cases (hs : Tracks start k s) (past : List (BufferStep × Lookahead)) :
    (∃ token s₁, peek (⟨s, past⟩ : Watch) = .ok token ⟨s₁, past ++ [(.peek token, s₁)]⟩ ∧
      peek s = .ok token s₁ ∧ Tour start k s [(.peek token, s₁)] k s₁ ∧ Tracks start k s₁ ∧
      start.unread k = some token) ∨
    ∃ e, peek (⟨s, past⟩ : Watch) = .error e ⟨s, past ++ [(.stuck, s)]⟩ ∧ peek s = .error e s ∧
      Tour start k s [(.stuck, s)] k s ∧ start.unread k = none := by
  cases hn : s.peek with
  | ok r =>
    obtain ⟨token, s₁⟩ := r
    obtain ⟨htracks, htoken⟩ := hs.peek hn
    exact .inl ⟨token, s₁, ofStep_ok hn, ofStep_ok hn,
      .peek hs.standing hn htoken (.stop htracks.standing), htracks, htoken⟩
  | error e =>
    have hnone := hs.peek_error hn
    exact .inr ⟨_, ofStep_error hn, ofStep_error hn, .stuck hs.standing hnone (.stop hs.standing),
      hnone⟩

/-- A token is taken and may be put back, or there is none. -/
theorem next_cases (hs : Tracks start k s) (past : List (BufferStep × Lookahead)) :
    (∃ token s₁, next (⟨s, past⟩ : Watch) = .ok token ⟨s₁, past ++ [(.next token, s₁)]⟩ ∧
      next s = .ok token s₁ ∧ Tour start k s [(.next token, s₁)] (k + 1) s₁ ∧
      Tracks start (k + 1) s₁ ∧ Retains start (k + 1) s₁ ∧ start.unread k = some token) ∨
    ∃ e, next (⟨s, past⟩ : Watch) = .error e ⟨s, past ++ [(.stuck, s)]⟩ ∧ next s = .error e s ∧
      Tour start k s [(.stuck, s)] k s ∧ start.unread k = none := by
  cases hn : s.next with
  | ok r =>
    obtain ⟨token, s₁⟩ := r
    obtain ⟨htracks, hback, hbounds, hslot, htoken⟩ := hs.next hn
    exact .inl ⟨token, s₁, ofStep_ok hn, ofStep_ok hn,
      .next hs.standing hn htoken hbounds hslot (.stop htracks.standing), htracks,
      ⟨k, rfl, htracks, hback⟩, htoken⟩
  | error e =>
    have hnone := hs.next_error hn
    exact .inr ⟨_, ofStep_error hn, ofStep_error hn, .stuck hs.standing hnone (.stop hs.standing),
      hnone⟩

/-- Looking at the token that the reader faces. -/
theorem AdvancesFrom.peek_bind {g : {σ : Type} → [TokenReader σ] → Token → ParserOn σ β}
    (h : AdvancesFrom start (Facing start t) q (g t)) :
    AdvancesFrom start (Facing start t) (Price.look.andThen q) (peek >>= g) := by
  rintro k s ⟨hs, hk⟩ past
  rcases peek_cases hs past with
    ⟨token, s₁, hw, hl, htour, htracks, htoken⟩ | ⟨e, -, -, -, hnone⟩
  · obtain rfl : token = t := by rwa [hk, Option.some.injEq, eq_comm] at htoken
    refine both_bind_ok hw hl (.prepend htour (Nat.le_refl k) (by omega) ?_ (h ⟨htracks, hk⟩ _))
    simp only [Price.look, List.length_singleton]
    omega
  · rw [hk] at hnone
    cases hnone

/-- Looking at the token that comes next, whatever it is. -/
theorem advances_peek_bind {g : {σ : Type} → [TokenReader σ] → Token → ParserOn σ β}
    (h : ∀ t, AdvancesFrom start (Facing start t) q (g t)) :
    Advances start (Price.look.andThen q) (peek >>= g) := by
  intro k s hs past
  cases hk : start.unread k with
  | some t => exact (h t).peek_bind ⟨hs, hk⟩ past
  | none =>
    rcases peek_cases hs past with ⟨token, s₁, -, -, -, -, htoken⟩ | ⟨e, hw, hl, htour, -⟩
    · rw [hk] at htoken
      cases htoken
    · exact both_bind_error hw hl (.failed htour hs (Int.le_max_left _ _))

/-- A token that does not end the text is taken. -/
theorem AdvancesFrom.next (ht : t.kind.isLast = false) :
    AdvancesFrom start (Facing start t) .take Parser.next := by
  rintro k s ⟨hs, hk⟩ past
  have hlt := Lookahead.lt_limit hk ht
  rcases next_cases hs past with ⟨token, s₁, hw, hl, htour, htracks, -, -⟩ | ⟨e, -, -, -, hnone⟩
  · have h : Fared start .take k s past (.ok token ⟨s₁, past ++ [(.next token, s₁)]⟩)
        (.ok token s₁) := .taken htour htracks hlt
    rwa [← hw, ← hl] at h
  · rw [hk] at hnone
    cases hnone

/-- Any token is taken, but the end of the text is none that anything could succeed behind. -/
theorem advances_next_bind {g : {σ : Type} → [TokenReader σ] → Token → ParserOn σ β}
    (hg : ∀ t, Advances start q (g t)) (hq : 1 ≤ q.tokens) :
    Advances start ⟨q.tokens + 1, q.steps - 12, max 1 (q.failing + 1)⟩ (Parser.next >>= g) := by
  intro k s hs past
  rcases next_cases hs past with ⟨token, s₁, hw, hl, htour, htracks, -, -⟩ | ⟨e, hw, hl, htour, -⟩
  · refine both_bind_ok hw hl ?_
    have h : Fared start q (k + 1) s₁ (past ++ [(.next token, s₁)])
        (g token (⟨s₁, past ++ [(.next token, s₁)]⟩ : Watch)) (g token s₁) := hg token htracks _
    generalize g token (⟨s₁, past ++ [(.next token, s₁)]⟩ : Watch) = r at h ⊢
    generalize g token s₁ = r' at h ⊢
    cases h with
    | ok tour tracks takes stays paid =>
      -- What succeeds behind the token takes at least one more, so this one was not the last.
      refine .ok_behind htour tour tracks ?_ (by omega) ?_
      · dsimp only
        omega
      · simp only [List.length_singleton]
        omega
    | error tour tracks paid =>
      refine .error_behind htour tour tracks ?_
      simp only [List.length_singleton]
      omega
  · exact both_bind_error hw hl (.failed htour hs (Int.le_max_left _ _))

/-- A token of a kind is taken. -/
theorem advances_expect {kind : TokenKind} (hkind : kind.isLast = false) :
    Advances start .take (expect kind) := by
  intro k s hs past
  rcases next_cases hs past with ⟨token, s₁, hw, hl, htour, htracks, -, hk⟩ | ⟨e, hw, hl, htour, -⟩
  · refine both_bind_ok hw hl ?_
    split
    · rename_i heq
      exact .taken htour htracks (Lookahead.lt_limit hk (heq ▸ hkind))
    · exact .failed htour htracks (Int.le_refl 1)
  · exact both_bind_error hw hl (.failed htour hs (Int.le_refl 1))

/-! ### Tokens that are put back -/

/-- Where a token may be put back, a parser makes one step at most, and leaves it so. -/
def Glances (start : Lookahead) (x : {σ : Type} → [TokenReader σ] → ParserOn σ α) : Prop :=
  ∀ ⦃k s⦄, Retains start k s → ∀ past,
    (∃ a s' more, x (⟨s, past⟩ : Watch) = .ok a ⟨s', past ++ more⟩ ∧ x s = .ok a s' ∧
      Tour start k s more k s' ∧ Retains start k s' ∧ more.length ≤ 1) ∨
    ∃ e s' more, x (⟨s, past⟩ : Watch) = .error e ⟨s', past ++ more⟩ ∧ x s = .error e s' ∧
      Tour start k s more k s' ∧ Tracks start k s' ∧ more.length ≤ 1

theorem glances_pure (a : α) : Glances start (pure a) :=
  fun _ s hs past => .inl ⟨a, s, [], by rw [List.append_nil]; rfl, rfl, .stop hs.tracks.standing,
    hs, Nat.zero_le 1⟩

theorem glances_peek : Glances start peek := by
  intro k s hs past
  cases hn : s.peek with
  | ok r =>
    obtain ⟨token, s₁⟩ := r
    obtain ⟨htracks, htoken⟩ := hs.tracks.peek hn
    exact .inl ⟨token, s₁, _, ofStep_ok hn, ofStep_ok hn,
      .peek hs.tracks.standing hn htoken (.stop htracks.standing), hs.peek hn, Nat.le_refl 1⟩
  | error e =>
    exact .inr ⟨_, s, _, ofStep_error hn, ofStep_error hn,
      .stuck hs.tracks.standing (hs.tracks.peek_error hn) (.stop hs.tracks.standing), hs.tracks,
      Nat.le_refl 1⟩

/-- A token is taken and, after a look at the next one, put back. -/
theorem advances_putBack {g : {σ : Type} → [TokenReader σ] → Token → α → ParserOn σ β}
    (hx : Glances start x) (hg : ∀ t a, Advances start q (g t a)) :
    Advances start (Price.andThen ⟨0, 3, 2⟩ q)
      (do
        let token ← Parser.next
        let a ← x
        backup
        g token a) := by
  intro k s hs past
  rcases next_cases hs past with
    ⟨token, s₁, hw, hl, htour, htracks, hback, -⟩ | ⟨e, hw, hl, htour, -⟩
  · refine both_bind_ok hw hl ?_
    rcases hx hback (past ++ [(.next token, s₁)]) with
      ⟨a, s₂, more, hw', hl', htour', ⟨j, hj, htracks', hback'⟩, hlen⟩ |
      ⟨e, s₂, more, hw', hl', htour', htracks', hlen⟩
    · obtain rfl : k = j := by omega
      -- The token is given out, looked behind and put back: the tour is back where it began.
      have hwhole := htour.append (htour'.append (.backup htracks'.standing
        (.stop hback'.standing)))
      refine both_bind_ok hw' hl' (both_backup_bind ?_)
      rw [List.append_assoc, List.append_assoc]
      refine .prepend hwhole (Nat.le_refl k) (by omega) ?_ (hg token a hback' _)
      simp only [List.length_cons, List.length_append, List.length_nil]
      omega
    · refine both_bind_error hw' hl' ?_
      refine .error_behind htour htour' htracks' ?_
      simp only [Price.andThen, List.length_singleton]
      omega
  · refine both_bind_error hw hl (.failed htour hs ?_)
    simp only [Price.andThen]
    omega

/-- Behind an item of a list a comma is taken, and anything else is put back. -/
theorem advances_comma {p' : Price} {y : {σ : Type} → [TokenReader σ] → ParserOn σ α}
    (hx : Advances start p x) (hy : Advances start p' y) (hxq : Price.take.andThen p ≤ q)
    (hyq : Price.andThen ⟨0, 2, 1⟩ p' ≤ q) :
    Advances start q
      (do
        if (← Parser.next).kind = .comma then x
        else
          backup
          y) := by
  intro k s hs past
  rcases next_cases hs past with
    ⟨token, s₁, hw, hl, htour, htracks, hback, hk⟩ | ⟨e, hw, hl, htour, -⟩
  · refine both_bind_ok hw hl ?_
    split
    · rename_i hcomma
      -- A comma is not the last token, so what is taken is paid for.
      have hlt := Lookahead.lt_limit hk (by rw [hcomma]; rfl)
      refine .of_le (.prepend htour (Nat.le_refl _) (by omega) ?_ (hx htracks _)) hxq
      simp only [Price.take, List.length_singleton]
      omega
    · obtain ⟨j, hj, -, hback'⟩ := hback
      obtain rfl : k = j := by omega
      have htour' := htour.append (.backup htracks.standing (.stop hback'.standing))
      refine both_backup_bind ?_
      rw [List.append_assoc]
      refine .of_le (.prepend (p := ⟨0, 2, 1⟩) htour' (Nat.le_refl k) (by omega) ?_
        (hy hback' _)) hyq
      simp only [List.cons_append, List.nil_append, List.length_cons, List.length_nil]
      omega
  · refine both_bind_error hw hl (.failed htour hs ?_)
    have hfailing := hxq.2.2
    simp only [Price.andThen, Price.take] at hfailing
    omega

end

/-! ## The grammar -/

/-- The call of a function in an operation. -/
def Parser.application [PatternEngine] {σ : Type} [TokenReader σ] (fuel : Nat) :
    ParserOn σ Node := do
  let name ← expect .ident
  let _ ← expect .lparen
  let args ← operationList fuel
  let _ ← expect .rparen
  call name .global none args

/-- An operand that begins with a name and a parenthesis is such a call. -/
theorem Parser.operand_eq_application {fuel : Nat} {s s₁ s₂ : Lookahead} {token : Token}
    (hpeek : peek s = .ok token s₁) (hident : token.kind = .ident)
    (hcalled : isCall s₁ = .ok true s₂) : operand (fuel + 1) s = application fuel s₂ := by
  rw [operand, bind_ok hpeek, hident]
  exact bind_ok hcalled

namespace Price

/-! The prices of the functions, from the tokens up. -/

/-- A name, a string or a star with its place. -/
def word : Price := ⟨1, -11, 1⟩

def operand : Price := ⟨1, -7, 5⟩

def operation : Price := ⟨1, -6, 5⟩

def climb : Price := ⟨0, 1, 2⟩

/-- Where an operator comes that joins, it is taken, and so is an operand behind it. -/
def joined : Price := ⟨2, -15, 2⟩

def climbRight : Price := ⟨0, 1, 3⟩

def operationList : Price := ⟨0, 1, 6⟩

def application : Price := ⟨3, -35, 1⟩

def item : Price := ⟨1, -10, 2⟩

def itemList : Price := ⟨0, 1, 3⟩

def list : Price := ⟨2, -22, 1⟩

def lambda : Price := ⟨2, -17, 7⟩

def chain : Price := ⟨0, 1, 2⟩

def step : Price := ⟨1, -8, 4⟩

def function : Price := ⟨3, -34, 1⟩

def expressionList : Price := ⟨0, 1, 10⟩

def expression : Price := ⟨1, -2, 9⟩

def declaration : Price := ⟨3, -32, 1⟩

def statement : Price := ⟨1, -1, 10⟩

def statements : Price := ⟨0, 2, 11⟩

end Price

section

open PipelineScript.Parser

variable {start : Lookahead} {fuel : Nat} {t : Token} {p q : Price} {α β : Type}

/-! ### Tokens -/

theorem advances_infoOf (token : Token) : Advances start .look (infoOf token) :=
  (advances_takeComment.bind fun _ => (advances_locate _).bind fun _ => advances_pure _).of_le
    (by decide)

theorem advances_identifier : Advances start .word identifier :=
  ((advances_expect rfl).bind fun _ => (advances_infoOf _).bind fun _ => advances_pure _).of_le
    (by decide)

theorem advances_name (f : Identifier → β) :
    Advances start .word (do return f (← identifier)) :=
  (advances_identifier.bind fun _ => advances_pure _).of_le (by decide)

theorem advances_string : Advances start .word string := by
  refine AdvancesFrom.of_le (p := Price.take.andThen (Price.look.andThen .free)) ?_ (by decide)
  refine (advances_expect rfl).bind fun token => (advances_infoOf _).bind fun info => ?_
  cases Node.stringOfText? info token.text with
  | some node => exact advances_pure node
  | none => exact advances_throw _ (by decide)

theorem advances_star : Advances start .word star :=
  ((advances_expect rfl).bind fun _ => (advances_infoOf _).bind fun _ => advances_pure _).of_le
    (by decide)

theorem advances_isCall : Advances start ⟨0, 3, 3⟩ isCall :=
  (advances_putBack glances_peek fun _ _ => advances_pure _).of_le (by decide)

theorem Parser.peekOperator_bind {σ : Type} [TokenReader σ] (least : Nat)
    (f : Option BinaryOp → ParserOn σ β) :
    peekOperator least >>= f = peek >>= fun token => f (token.kind.joining? least) := by
  simp only [peekOperator, bind_assoc, pure_bind, TokenKind.joining?]

section

variable {least : Nat} {g : {σ : Type} → [TokenReader σ] → Option BinaryOp → ParserOn σ β}

/-- Looking for an operator where the token is known. -/
theorem AdvancesFrom.peekOperator_bind
    (h : AdvancesFrom start (Facing start t) q (g (t.kind.joining? least))) :
    AdvancesFrom start (Facing start t) (Price.look.andThen q) (peekOperator least >>= g) := by
  simp only [Parser.peekOperator_bind]
  exact AdvancesFrom.peek_bind h

/-- Looking for an operator. -/
theorem advances_peekOperator_bind
    (h : ∀ t, AdvancesFrom start (Facing start t) q (g (t.kind.joining? least))) :
    Advances start (Price.look.andThen q) (peekOperator least >>= g) := by
  simp only [Parser.peekOperator_bind]
  exact advances_peek_bind h

end

/-- A list, whatever its elements are: each of them pays for the look at what stands behind it. -/
theorem advances_list {close : TokenKind} {r : Price}
    {x : {σ : Type} → [TokenReader σ] → ParserOn σ β}
    {xs : {σ : Type} → [TokenReader σ] → ParserOn σ (List β)}
    (hx : Advances start p x) (hxs : Advances start q xs) (hend : .free ≤ r)
    (hitem : p.andThen ⟨0, 2, 2⟩ ≤ r)
    (hmore : Price.take.andThen (q.andThen .free) ≤ ⟨0, 2, 2⟩) :
    Advances start (Price.look.andThen r)
      (do
        if (← peek).kind = close then return []
        let first ← x
        if (← Parser.next).kind = .comma then return first :: (← xs)
        else
          backup
          return [first]) := by
  refine advances_peek_bind fun token => .of_tracks ?_
  split
  · exact (advances_pure []).of_le hend
  · refine (hx.bind fun first => ?_).of_le hitem
    exact advances_comma (hxs.bind fun _ => advances_pure _) (advances_pure [first]) hmore
      (by decide)

/-! ### Operands and operations -/

/-- With this fuel the operations keep to their prices. -/
structure OperationsAdvance [PatternEngine] (start : Lookahead) (fuel : Nat) : Prop where
  operand : Advances start .operand (Parser.operand fuel)
  operation : Advances start .operation (Parser.operation fuel)
  climb : ∀ left least, Advances start .climb (Parser.climb fuel left least)
  joined : ∀ {t op} left least, t.kind.joining? least = some op →
    AdvancesFrom start (Facing start t) .joined (Parser.climb fuel left least)
  climbRight : ∀ op right, Advances start .climbRight (Parser.climbRight fuel op right)
  list : Advances start .operationList (Parser.operationList fuel)

theorem OperationsAdvance.application (ih : OperationsAdvance start fuel) :
    Advances start .application (Parser.application fuel) :=
  ((advances_expect rfl).bind fun _ => (advances_expect rfl).bind fun _ => ih.list.bind fun _ =>
    (advances_expect rfl).bind fun _ => advances_call _ _ _ _).of_le (by decide)

theorem OperationsAdvance.unary (ih : OperationsAdvance start fuel) (op : UnaryOp)
    (ht : t.kind.isLast = false) :
    AdvancesFrom start (Facing start t) ⟨2, -18, 1⟩
      (do
        let _ ← Parser.next
        let inner ← Parser.operand fuel
        return Node.unary (← infoOf t) op inner) :=
  ((AdvancesFrom.next ht).bind fun _ => ih.operand.bind fun _ => (advances_infoOf _).bind fun _ =>
    advances_pure _).of_le (by decide)

theorem OperationsAdvance.operand_succ (ih : OperationsAdvance start fuel) :
    Advances start .operand (Parser.operand (fuel + 1)) := by
  simp only [Parser.operand]
  refine (advances_peek_bind (q := ⟨1, -8, 4⟩) fun token => ?_).of_le (by decide)
  -- Each kind of token that begins an operand has a branch of its own; the price of a branch is
  -- computed and compared with that of an operand.
  cases hk : token.kind with
  | lparen =>
    exact ((AdvancesFrom.next (by rw [hk]; rfl)).bind fun _ => advances_takeComment.bind fun _ =>
      ih.operation.bind fun _ => (advances_expect rfl).bind fun _ => advances_pure _).of_le
      (by decide)
  | number =>
    exact ((advances_expect rfl).bind fun _ => (advances_infoOf _).bind fun _ =>
      (advances_literal _ _).bind fun _ => advances_pure _).of_tracks.of_le (by decide)
  | string => exact advances_string.of_tracks.of_le (by decide)
  | bool value =>
    exact ((AdvancesFrom.next (by rw [hk]; rfl)).bind fun _ => (advances_infoOf _).bind fun _ =>
      advances_pure _).of_le (by decide)
  | duration =>
    exact ((advances_expect rfl).bind fun _ => (advances_infoOf _).bind fun _ =>
      advances_literal _ _).of_tracks.of_le (by decide)
  | regex =>
    exact ((advances_expect rfl).bind fun _ => (advances_infoOf _).bind fun _ =>
      advances_literal _ _).of_tracks.of_le (by decide)
  | star => exact advances_star.of_tracks.of_le (by decide)
  | reference =>
    exact ((advances_expect rfl).bind fun _ => (advances_infoOf _).bind fun _ =>
      advances_pure _).of_tracks.of_le (by decide)
  | ident =>
    refine ((advances_isCall.bind (q := .word) fun called => ?_).of_le (by decide)).of_tracks
    cases called with
    | false => exact advances_name _
    | true => exact ih.application.of_le (by decide)
  | binary op =>
    cases op with
    | subtract => exact (ih.unary .negate (by rw [hk]; rfl)).of_le (by decide)
    | _ => exact (advances_unexpected _ _ (by decide)).of_tracks
  | not => exact (ih.unary .not (by rw [hk]; rfl)).of_le (by decide)
  | _ => exact (advances_unexpected _ _ (by decide)).of_tracks

theorem OperationsAdvance.operation_succ (ih : OperationsAdvance start fuel) :
    Advances start .operation (Parser.operation (fuel + 1)) := by
  simp only [Parser.operation]
  exact (ih.operand.bind fun _ => ih.climb _ _).of_le (by decide)

/-- What stands behind an operator. -/
theorem OperationsAdvance.join (ih : OperationsAdvance start fuel) {op : BinaryOp} (left : Node)
    {least : Nat} (h : t.kind.joining? least = some op) :
    AdvancesFrom start (Facing start t) ⟨2, -16, 1⟩
      (do
        let token ← Parser.next
        let comment ← takeComment
        let right ← Parser.operand fuel
        let right ← Parser.climbRight fuel op right
        let broken ← breaksBetween left.position.offset right.position.offset
        let info : Info := ⟨← locate token.offset, comment⟩
        Parser.climb fuel (.binary info op left right false broken) least) := by
  obtain ⟨hk, -⟩ := TokenKind.joining?_eq_some h
  exact ((AdvancesFrom.next (by rw [hk]; rfl)).bind fun _ => advances_takeComment.bind fun _ =>
    ih.operand.bind fun _ => (ih.climbRight _ _).bind fun _ =>
    (advances_breaksBetween _ _).bind fun _ => (advances_locate _).bind fun _ =>
    ih.climb _ _).of_le (by decide)

theorem OperationsAdvance.climb_succ (ih : OperationsAdvance start fuel) (left : Node)
    (least : Nat) : Advances start .climb (Parser.climb (fuel + 1) left least) := by
  simp only [Parser.climb]
  refine (advances_peekOperator_bind (q := ⟨0, 0, 1⟩) fun token => ?_).of_le (by decide)
  cases hj : token.kind.joining? least with
  | none => exact (advances_pure left).of_tracks.of_le (by decide)
  | some op => exact (ih.join left hj).of_le (by decide)

theorem OperationsAdvance.joined_succ (ih : OperationsAdvance start fuel) {op : BinaryOp}
    (left : Node) (least : Nat) (h : t.kind.joining? least = some op) :
    AdvancesFrom start (Facing start t) .joined (Parser.climb (fuel + 1) left least) := by
  simp only [Parser.climb]
  refine (AdvancesFrom.peekOperator_bind (q := ⟨2, -16, 1⟩) ?_).of_le (by decide)
  rw [h]
  exact ih.join left h

theorem OperationsAdvance.climbRight_succ (ih : OperationsAdvance start fuel) (op : BinaryOp)
    (right : Node) : Advances start .climbRight (Parser.climbRight (fuel + 1) op right) := by
  simp only [Parser.climbRight]
  refine (advances_peekOperator_bind (q := ⟨0, 0, 2⟩) fun token => ?_).of_le (by decide)
  cases hj : token.kind.joining? (op.precedence + 1) with
  | none => exact (advances_pure right).of_tracks.of_le (by decide)
  | some tighter =>
    -- the operator that was found joins at its own strength
    obtain ⟨hk, -⟩ := TokenKind.joining?_eq_some hj
    have hown : token.kind.joining? tighter.precedence = some tighter := by
      rw [hk, TokenKind.joining?_binary (Nat.le_refl _)]
    exact ((ih.joined right _ hown).bind fun _ => ih.climbRight _ _).of_le (by decide)

theorem OperationsAdvance.list_succ (ih : OperationsAdvance start fuel) :
    Advances start .operationList (Parser.operationList (fuel + 1)) := by
  simp only [Parser.operationList]
  exact (advances_list (r := ⟨0, 0, 5⟩) ih.operation ih.list (by decide) (by decide)
    (by decide)).of_le (by decide)

theorem operationsAdvance [PatternEngine] (start : Lookahead) (fuel : Nat) :
    OperationsAdvance start fuel := by
  induction fuel with
  | zero =>
    exact ⟨advances_throw _ (by decide), advances_throw _ (by decide),
      fun _ _ => advances_throw _ (by decide),
      fun _ _ _ => (advances_throw _ (by decide)).of_tracks,
      fun _ _ => advances_throw _ (by decide), advances_throw _ (by decide)⟩
  | succ fuel ih =>
    exact ⟨ih.operand_succ, ih.operation_succ, ih.climb_succ, ih.joined_succ, ih.climbRight_succ,
      ih.list_succ⟩

/-! ### Expressions -/

theorem advances_item : Advances start .item item := by
  refine (advances_peek_bind (q := .word) fun token => .of_tracks ?_).of_le (by decide)
  cases token.kind with
  | ident => exact advances_name _
  | string => exact advances_string
  | star => exact advances_star
  | _ => exact advances_unexpected _ _ (by decide)

theorem advances_itemList (fuel : Nat) : Advances start .itemList (itemList fuel) := by
  induction fuel with
  | zero => exact advances_throw _ (by decide)
  | succ fuel ih =>
    simp only [Parser.itemList]
    exact (advances_list (r := ⟨0, 0, 2⟩) advances_item ih (by decide) (by decide)
      (by decide)).of_le (by decide)

theorem advances_listOfItems (fuel : Nat) : Advances start .list (list fuel) :=
  ((advances_expect rfl).bind fun _ => (advances_infoOf _).bind fun _ =>
    (advances_itemList fuel).bind fun _ => (advances_expect rfl).bind fun _ =>
    advances_pure _).of_le (by decide)

theorem advances_lambda (fuel : Nat) : Advances start .lambda (lambda fuel) := by
  have hbehind (token : Token) : Advances start ⟨1, -5, 6⟩
      (do
        let info ← infoOf token
        return Node.lambda info (← Parser.operation fuel)) :=
    ((advances_infoOf token).bind fun _ => (operationsAdvance start fuel).operation.bind fun _ =>
      advances_pure _).of_le (by decide)
  exact (advances_next_bind hbehind (by decide)).of_le (by decide)

/-- With this fuel the expressions keep to their prices. -/
structure ExpressionsAdvance [PatternEngine] (start : Lookahead) (fuel : Nat) : Prop where
  expression : Advances start .expression (Parser.expression fuel)
  chain : ∀ left, Advances start .chain (Parser.chain fuel left)
  step : ∀ op, Advances start .step (Parser.step fuel op)
  function : ∀ kind, Advances start .function (Parser.function fuel kind)
  list : Advances start .expressionList (Parser.expressionList fuel)

theorem ExpressionsAdvance.expression_succ (ih : ExpressionsAdvance start fuel) :
    Advances start .expression (Parser.expression (fuel + 1)) := by
  simp only [Parser.expression]
  have operations := operationsAdvance start fuel
  refine (advances_peek_bind (q := ⟨1, -3, 8⟩) fun token => .of_tracks ?_).of_le (by decide)
  cases token.kind with
  | ident =>
    refine (advances_putBack (q := ⟨1, -6, 5⟩) glances_peek fun _ behind => ?_).of_le (by decide)
    split
    · refine ((ih.function _).bind (q := ⟨0, 2, 3⟩) fun first => ?_).of_le (by decide)
      refine (advances_peek_bind (q := ⟨0, 1, 2⟩) fun after => .of_tracks ?_).of_le (by decide)
      split
      · exact ih.chain first
      · exact operations.climb first 0
    · split
      · exact (advances_identifier.bind fun _ => ih.chain _).of_le (by decide)
      · exact operations.operation
  | lambda => exact (advances_lambda fuel).of_le (by decide)
  | lbracket => exact (advances_listOfItems fuel).of_le (by decide)
  | _ => exact operations.operation.of_le (by decide)

theorem ExpressionsAdvance.chain_succ (ih : ExpressionsAdvance start fuel) (left : Node) :
    Advances start .chain (Parser.chain (fuel + 1) left) := by
  simp only [Parser.chain]
  refine (advances_peek_bind (q := ⟨0, 0, 1⟩) fun token => ?_).of_le (by decide)
  cases hk : token.kind with
  | chain op =>
    exact ((AdvancesFrom.next (by rw [hk]; rfl)).bind fun _ => advances_takeComment.bind fun _ =>
      (ih.step op).bind fun _ => (advances_locate _).bind fun _ => ih.chain _).of_le (by decide)
  | _ => exact (advances_pure left).of_tracks.of_le (by decide)

theorem ExpressionsAdvance.step_succ (ih : ExpressionsAdvance start fuel) (op : ChainOp) :
    Advances start .step (Parser.step (fuel + 1) op) := by
  simp only [Parser.step]
  have hstep (called : Bool) : Advances start .word
      (if called then Parser.function fuel (CallKind.ofChain op)
      else do return .identifier (← identifier)) := by
    cases called with
    | false => exact advances_name _
    | true => exact (ih.function _).of_le (by decide)
  -- a pipe is not looked behind
  by_cases hp : op = .pipe
  · simp only [if_pos hp]
    exact (advances_putBack (glances_pure true) fun _ called => hstep called).of_le (by decide)
  · simp only [if_neg hp, pure_bind]
    exact (advances_putBack glances_peek fun _ behind => hstep (behind.kind == .lparen)).of_le
      (by decide)

theorem ExpressionsAdvance.function_succ (ih : ExpressionsAdvance start fuel) (kind : CallKind) :
    Advances start .function (Parser.function (fuel + 1) kind) := by
  simp only [Parser.function]
  exact ((advances_expect rfl).bind fun _ => advances_takeComment.bind fun _ =>
    (advances_expect rfl).bind fun _ => ih.list.bind fun _ => (advances_expect rfl).bind fun _ =>
    advances_call _ _ _ _).of_le (by decide)

theorem ExpressionsAdvance.list_succ (ih : ExpressionsAdvance start fuel) :
    Advances start .expressionList (Parser.expressionList (fuel + 1)) := by
  simp only [Parser.expressionList]
  exact (advances_list (r := ⟨0, 0, 9⟩) ih.expression ih.list (by decide) (by decide)
    (by decide)).of_le (by decide)

theorem expressionsAdvance [PatternEngine] (start : Lookahead) (fuel : Nat) :
    ExpressionsAdvance start fuel := by
  induction fuel with
  | zero =>
    exact ⟨advances_throw _ (by decide), fun _ => advances_throw _ (by decide),
      fun _ => advances_throw _ (by decide), fun _ => advances_throw _ (by decide),
      advances_throw _ (by decide)⟩
  | succ fuel ih =>
    exact ⟨ih.expression_succ, ih.chain_succ, ih.step_succ, ih.function_succ, ih.list_succ⟩

/-! ### Programs -/

theorem advances_declaration (fuel : Nat) :
    Advances start .declaration (declaration fuel) := by
  simp only [Parser.declaration]
  have hexpression := (expressionsAdvance start fuel).expression
  refine ((advances_expect rfl).bind fun _ => advances_takeComment.bind fun _ =>
    advances_identifier.bind fun name => (advances_locate _).bind fun _ =>
    advances_peek_bind (q := .word) fun token => .of_tracks ?_).of_le (by decide)
  split
  · exact ((advances_expect rfl).bind fun _ => hexpression.bind fun _ => advances_pure _).of_le
      (by decide)
  · exact advances_name _

theorem advances_statement (fuel : Nat) : Advances start .statement (statement fuel) := by
  refine (advances_peek_bind (q := .expression) fun token => .of_tracks ?_).of_le (by decide)
  split
  · exact (advances_declaration fuel).of_le (by decide)
  · exact (expressionsAdvance start fuel).expression

theorem advances_statements (fuel : Nat) :
    Advances start .statements (statements fuel) := by
  induction fuel with
  | zero => exact advances_throw _ (by decide)
  | succ fuel ih =>
    simp only [Parser.statements]
    refine (advances_peek_bind (q := ⟨0, 1, 10⟩) fun token => .of_tracks ?_).of_le (by decide)
    split
    · exact advances_trailingComments.of_le (by decide)
    · exact ((advances_statement fuel).bind fun _ => ih.bind fun _ => advances_pure _).of_le
        (by decide)

end

end

end PipelineScript

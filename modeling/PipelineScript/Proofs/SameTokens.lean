import PipelineScript.Proofs.Agreement
import PipelineScript.Proofs.Streams

/-!
Layout and comments never change what a script means.

`parse_agrees` compares two scripts that have the same tokens: both are parsed, to the same program
but for comments at its end, or both are rejected for the same cause, or the tokens of neither come
to an end.

Where two streams have been cut off at different places, one run may come to the end of its stream
before the other. No statement does, because three idle tokens stand at the end; so both runs are
between two statements then, with nothing but idle tokens ahead, and both go on taking them until
none is left.
-/
namespace PipelineScript

section

variable {engine : PatternEngine}

/-! ## From the tokens of scripts to readers -/

theorem Token.Alike.symm {t u : Token} (h : t.Alike u) : u.Alike t := by
  refine ⟨h.kind.symm, h.text.symm, ?_⟩
  have hformed := h.formed
  rw [Token.Formed, h.kind, h.text] at hformed
  exact hformed

theorem Token.Alike.isIdle {t u : Token} (h : t.Alike u) (ht : t.IsIdle) : u.IsIdle :=
  ⟨h.kind.symm.trans ht.kind, h.text.symm.trans ht.text⟩

section

variable {cut : Prop} {ts us : List Token}

theorem Along.symm (h : Along cut ts us) : Along cut us ts := by
  induction h with
  | nil => exact .nil
  | cons h _ ih => exact .cons h.symm ih
  | outLeft hcut hidle => exact .outRight hcut hidle
  | outRight hcut hidle => exact .outLeft hcut hidle

/-- Where the tokens of one list are idle, those of the other list are. -/
theorem Along.isIdle (h : Along cut ts us) (hts : ∀ t ∈ ts, t.IsIdle) : ∀ u ∈ us, u.IsIdle := by
  induction h with
  | nil => exact hts
  | cons h _ ih =>
    rw [List.forall_mem_cons] at hts ⊢
    exact ⟨h.isIdle hts.1, ih hts.2⟩
  | outLeft _ hidle => exact hidle
  | outRight _ _ =>
    intro u hu
    cases hu

theorem along_of_signs {i : Nat} (hts : ∀ t ∈ ts, t.Formed) (hcut : i ≠ 0 → cut)
    (h : ts.map Token.sign ++ List.replicate i idleSign = us.map Token.sign) : Along cut ts us := by
  induction ts generalizing us with
  | nil =>
    rw [List.map_nil, List.nil_append] at h
    by_cases hi : i = 0
    · subst hi
      rw [List.replicate_zero, eq_comm, List.map_eq_nil_iff] at h
      subst h
      exact .nil
    -- What is left over on the right has the sign of an idle token.
    · refine .outLeft (hcut hi) fun u hu => Token.isIdle_iff.2 ?_
      have hmem : u.sign ∈ List.replicate i idleSign := h ▸ List.mem_map_of_mem hu
      exact List.eq_of_mem_replicate hmem
  | cons t ts ih =>
    rw [List.forall_mem_cons] at hts
    cases us with
    | nil => simp at h
    | cons u us =>
      rw [List.map_cons, List.map_cons, List.cons_append, List.cons.injEq] at h
      exact .cons (Token.alike_of_sign h.1 hts.1) (ih hts.2 h.2)

end

theorem TokenStream.signs_eq_map (stream : TokenStream) :
    stream.signs = (grammarTokens stream.tokens).map Token.sign := by
  rw [signs, List.filter_map]
  rfl

section

variable {source source' : String}

theorem formed_of_mem_grammarTokens :
    ∀ t ∈ grammarTokens (tokenize source).tokens, t.Formed := by
  intro t ht
  exact (TokenStream.ofSource_yields source.toList).1 t (List.mem_filter.1 ht).1

/-- A stream comes to an end if it holds the same as one that does. -/
theorem ended_of_signs_eq (h : (tokenize source).signs = (tokenize source').signs)
    (he : (tokenize source).ending = .ended) : (tokenize source').ending = .ended := by
  obtain ⟨t, ht, hlast⟩ := (TokenStream.ofSource_yields source.toList).2 he
  have hkeep : (t.sign.kind != .comment) = true := by
    show (t.kind != .comment) = true
    cases hk : t.kind <;> first | rfl | (rw [hk] at hlast; cases hlast)
  have hmem : t.sign ∈ (tokenize source').signs := by
    rw [← h]
    exact List.mem_filter.2 ⟨List.mem_map_of_mem ht, hkeep⟩
  obtain ⟨u, hu, hsign⟩ := List.mem_map.1 (List.mem_filter.1 hmem).1
  have hkind : u.kind.isLast = true := by
    rw [show u.kind = t.kind from congrArg Sign.kind hsign]
    exact hlast
  obtain ⟨start, behind, htokens⟩ := List.append_of_mem hu
  exact (Scanner.run_of_isLast _ (Text.suffixAt_size_append [] source'.toList) htokens hkind).2

theorem SameTokens.refl (source : String) : SameTokens source source :=
  ⟨fun n => ⟨n, List.prefix_rfl⟩, fun n => ⟨n, List.prefix_rfl⟩⟩

theorem SameTokens.ending_eq (h : SameTokens source source') :
    (tokenize source).ending = (tokenize source').ending := by
  by_cases he : (tokenize source').ending = .endless
  · by_contra hne
    exact h.left.ne_endless (fun h' => hne (h'.trans he.symm)) he
  · have hne := h.right.ne_endless he
    have hsigns := h.signs_eq hne he
    cases hl : (tokenize source).ending with
    | ended => rw [ended_of_signs_eq hsigns hl]
    | endless => exact absurd hl hne
    | lost =>
      cases hr : (tokenize source').ending with
      | lost => rfl
      | endless => exact absurd hr he
      | ended =>
        rw [ended_of_signs_eq hsigns.symm hr] at hl
        cases hl

/-- How the stream of a script stops, and that of another one with the same tokens. -/
def Ends.ofSource (source : String) : Ends where
  ending := (tokenize source).ending
  cut := (tokenize source).ending = .endless
  endless_of_cut := id

theorem SameTokens.along (h : SameTokens source source') :
    Along (Ends.ofSource source).cut (grammarTokens (tokenize source).tokens)
      (grammarTokens (tokenize source').tokens) := by
  by_cases he : (tokenize source).ending = .endless
  · rcases h.signs_idle he (h.ending_eq.symm.trans he) with ⟨i, hi⟩ | ⟨i, hi⟩
    · rw [TokenStream.signs_eq_map, TokenStream.signs_eq_map] at hi
      exact along_of_signs formed_of_mem_grammarTokens (fun _ => he) hi
    · rw [TokenStream.signs_eq_map, TokenStream.signs_eq_map] at hi
      exact (along_of_signs formed_of_mem_grammarTokens (fun _ => he) hi).symm
  · have hi := h.signs_eq he fun he' => he (h.ending_eq.trans he')
    rw [TokenStream.signs_eq_map, TokenStream.signs_eq_map, ← List.append_nil (List.map _ _)] at hi
    exact along_of_signs (i := 0) formed_of_mem_grammarTokens (fun h0 => absurd rfl h0) hi

/-- At the beginning of two scripts with the same tokens. -/
theorem SameTokens.twins (h : SameTokens source source') :
    Twins (.ofSource source) (.ofSource source.toList) (.ofSource source'.toList) := by
  have hempty : Lookahead.emptySlot.token.Alike Lookahead.emptySlot.token := ⟨rfl, rfl, trivial⟩
  exact ⟨rfl, h.ending_eq.symm, rfl, hempty, hempty, h.along⟩

end

/-! ## Nothing but idle tokens -/

section

open PipelineScript.Parser

variable {bytes : List UInt8} {fuel : Nat} {s : Lookahead} {last a b : Slot} {as : List Slot}

/-- A stream that does not end: no slot has to end the text. -/
theorem sealed_endless (as : List Slot) : Sealed .endless as := by
  intro h
  cases h

theorem Parser.peek_out (hs : s.At bytes .endless last []) :
    peek s = .error (.interrupted .endless) s := by
  obtain ⟨hheld, hfetch⟩ := hs.fetch_eq_error (sealed_endless [])
  exact ofStep_error (by simp only [TokenReader.buffer_lookahead, Lookahead.peek, hheld, hfetch])

/-- An engine that takes the empty text. -/
theorem Node.exists_regexOfText_empty (hempty : PatternEngine.fault? "" = none) (info : Info) :
    ∃ n, Node.regexOfText info "" = .ok n :=
  ⟨.regex info ⟨"", hempty⟩ "", Node.regexOfText_eq_ok_iff.2
    ⟨⟨"", hempty⟩, Pattern.ofText_eq_ok_iff.2 rfl, rfl⟩⟩

/-- An idle token is an operand. -/
theorem Reads.operand_idle (hempty : PatternEngine.fault? "" = none) (bytes : List UInt8)
    (ha : a.token.IsIdle) (as : List Slot) : ∃ n, Reads bytes (.operand n) (a :: as) as none := by
  obtain ⟨n, hn⟩ := Node.exists_regexOfText_empty hempty (a.info bytes)
  rw [← ha.text] at hn
  exact ⟨n, .regex ha.kind hn⟩

/-- An idle token is a statement if another one is behind it. -/
theorem Reads.statement_idle (hempty : PatternEngine.fault? "" = none) (bytes : List UInt8)
    (ha : a.token.IsIdle) (hb : b.token.IsIdle) (as : List Slot) :
    ∃ n, Reads bytes (.statement n) (a :: b :: as) (b :: as) none := by
  obtain ⟨n, hn⟩ := Reads.operand_idle hempty bytes ha (b :: as)
  have hjoin : b.token.kind.joining? 0 = none := by rw [hb.kind]; rfl
  have hne (kind : TokenKind) (hk : kind ≠ .regex) : a.token.kind ≠ kind := by
    rw [ha.kind]
    exact hk.symm
  exact ⟨n, .express (hne _ (by decide))
    (.unnamed (hne _ (by decide)) (hne _ (by decide)) (hne _ (by decide))
      (.operation hn (.stop hjoin)))⟩

/-- Behind the last idle token the parser looks for an operator. -/
theorem statement_last_idle (hempty : PatternEngine.fault? "" = none)
    (hs : s.At bytes .endless last [a]) (ha : a.token.IsIdle) :
    ∃ s', statement (fuel + 5) s = .error (.interrupted .endless) s' := by
  obtain ⟨s₁, hp₁, hs₁, -⟩ := peek_at hs
  obtain ⟨s₂, hp₂, hs₂, -⟩ := peek_at hs₁
  obtain ⟨n, hn⟩ := Reads.operand_idle hempty bytes ha []
  obtain ⟨s₃, last₃, hrun, hs₃, -⟩ :=
    (follows bytes (fuel + 3)).1 hn (by simp [Phrase.slack]) hs₂ trivial
  have hrun : operand (fuel + 3) s₂ = .ok n s₃ := hrun
  refine ⟨s₃, ?_⟩
  rw [statement, bind_ok hp₁, ha.kind, if_neg (by decide), expression, bind_ok hp₂, ha.kind]
  simp only
  rw [operation, bind_ok hrun, climb, peekOperator]
  exact bind_error (bind_error (peek_out hs₃))

/-- Nothing but idle tokens is taken, one by one, until none is left. -/
theorem statements_idle (hempty : PatternEngine.fault? "" = none)
    (hs : s.At bytes .endless last as) (hidle : ∀ a ∈ as, a.token.IsIdle)
    (hf : 4 * as.length + 4 ≤ fuel) :
    ∃ s', statements fuel s = .error (.interrupted .endless) s' := by
  induction as generalizing s last fuel with
  | nil =>
    obtain ⟨fuel, rfl⟩ : ∃ k, fuel = k + 1 := ⟨fuel - 1, by omega⟩
    rw [statements]
    exact ⟨s, bind_error (peek_out hs)⟩
  | cons a as ih =>
    rw [List.forall_mem_cons] at hidle
    rw [List.length_cons] at hf
    obtain ⟨fuel, rfl⟩ : ∃ k, fuel = k + 6 := ⟨fuel - 6, by omega⟩
    obtain ⟨s₁, hp, hs₁, -⟩ := peek_at hs
    rw [statements, bind_ok hp, hidle.1.kind, if_neg (by decide)]
    cases as with
    | nil =>
      obtain ⟨s₂, hlast⟩ := statement_last_idle hempty hs₁ hidle.1
      exact ⟨s₂, bind_error hlast⟩
    | cons b bs =>
      -- An idle token with another behind it is a statement of its own.
      obtain ⟨n, hn⟩ := Reads.statement_idle hempty bytes hidle.1 (hidle.2 b List.mem_cons_self) bs
      obtain ⟨s₂, last₂, hrun, hs₂, -⟩ :=
        (follows bytes (fuel + 5)).1 hn (by simp only [Phrase.slack, List.length_cons]; omega) hs₁
          trivial
      obtain ⟨s₃, hrest⟩ : ∃ s', statements (fuel + 5) s₂ = .error (.interrupted .endless) s' :=
        ih hs₂ hidle.2 (by omega)
      exact ⟨s₃, by rw [bind_ok hrun]; exact bind_error hrest⟩

end

/-! ## Both runs or neither -/

/-- A run that has come to where an endless stream was cut off. -/
def IsCut {α : Type} (r : EStateM.Result ParseFailure Lookahead α) : Prop :=
  ∃ s, r = .error (.interrupted .endless) s

section

open PipelineScript.Parser

variable {e : Ends} {bytes bytes' : List UInt8} {m n : Nat} {s t : Lookahead} {last last' : Slot}
  {as bs : List Slot}

@[simp] theorem not_isCut_ok {α : Type} {r : α} :
    ¬IsCut (.ok r s : EStateM.Result ParseFailure Lookahead α) := by
  rintro ⟨_, h⟩
  cases h

@[simp] theorem isCut_error_iff {α : Type} {f : ParseFailure} :
    IsCut (.error f s : EStateM.Result ParseFailure Lookahead α) ↔ f = .interrupted .endless := by
  simp [IsCut]

theorem isCut_bind_pure {α β : Type} {x : Parser α} {f : α → β} :
    IsCut ((do return f (← x)) s) ↔ IsCut (x s) := by
  cases h : x s with
  | ok r s' =>
    rw [bind_ok h]
    exact iff_of_false not_isCut_ok not_isCut_ok
  | error f s' => rw [bind_error h, isCut_error_iff, isCut_error_iff]

theorem Ample.not_isCut {α : Type} {r : EStateM.Result ParseFailure Lookahead α}
    (h : Ample True r) : ¬IsCut r := by
  rintro ⟨s', hr⟩
  exact (h _ s' hr).ne_endless trivial rfl

/-- Two outcomes that agree and are not cut off are both results, or both rejections. -/
theorem Agrees.cases_of_ample {α β : Type} {R : α → β → Prop}
    {r : EStateM.Result ParseFailure Lookahead α} {r' : EStateM.Result ParseFailure Lookahead β}
    (h : Agrees e R r r') (he : e.ending = .endless) (hr : Ample True r) (hr' : Ample True r') :
    (∃ x y s t, r = .ok x s ∧ r' = .ok y t ∧ Twins e s t) ∨
      ∃ f g s t, r = .error (.rejected f) s ∧ r' = .error (.rejected g) t := by
  have hcut {α : Type} {r : EStateM.Result ParseFailure Lookahead α} {s : Lookahead}
      (hr : Ample True r) (hcut : r = .error (.interrupted e.ending) s) : False :=
    hr.not_isCut ⟨s, by rw [hcut, he]⟩
  cases h with
  | ok _ hs => exact .inl ⟨_, _, _, _, rfl, rfl, hs⟩
  | rejected _ => exact .inr ⟨_, _, _, _, rfl, rfl⟩
  | interrupted _ => exact (hcut hr rfl).elim
  | cutLeft _ => exact (hcut hr rfl).elim
  | cutRight _ => exact (hcut hr' rfl).elim
  | exhaustedLeft => exact absurd rfl (hr _ _ rfl).ne_exhausted
  | exhaustedRight => exact absurd rfl (hr' _ _ rfl).ne_exhausted

/-- The tokens ahead of two readers of the same tokens. -/
theorem Twins.along {ending : StreamEnd} (h : Twins e s t) (hs : s.At bytes ending last as)
    (ht : t.At bytes' ending last' bs) :
    Along e.cut (as.map (·.token)) (bs.map (·.token)) := by
  have hslots (l : Lookahead) :
      (slotsOf l.bytes l.pending).map (·.token) = grammarTokens l.pending :=
    map_token_slotsBehind _ _ _
  rw [← hs.ahead_eq, ← ht.ahead_eq]
  match hheld : s.held with
  | 0 =>
    have hheld' : t.held = 0 := h.held ▸ hheld
    simp only [Lookahead.ahead, hheld, hheld', hslots]
    exact h.pending
  | 1 =>
    have hheld' : t.held = 1 := h.held ▸ hheld
    simp only [Lookahead.ahead, hheld, hheld', List.map_cons, hslots]
    exact .cons h.newest h.pending
  | k + 2 =>
    have hheld' : t.held = k + 2 := h.held ▸ hheld
    simp only [Lookahead.ahead, hheld, hheld', List.map_cons, hslots]
    exact .cons h.older (.cons h.newest h.pending)

/-- Where only idle tokens are ahead of one reader, only such tokens are ahead of the other. -/
theorem Twins.isIdle (h : Twins e s t) (hs : s.At bytes .endless last as)
    (ht : t.At bytes' .endless last' bs) :
    (∀ a ∈ as, a.token.IsIdle) ↔ ∀ b ∈ bs, b.token.IsIdle := by
  have halong := h.along hs ht
  constructor
  · intro hidle
    exact List.forall_mem_map.1 (halong.isIdle (List.forall_mem_map.2 hidle))
  · intro hidle
    exact List.forall_mem_map.1 (halong.symm.isIdle (List.forall_mem_map.2 hidle))

/-- A statement does not come to where an endless stream was cut off, and leaves two idle tokens. -/
theorem ample_statement [PatternEngine] (hs : s.At bytes .endless last as)
    (hf : 4 * as.length + 4 ≤ m + 1) (hi : EndsIdle 3 as) : Ample True (statement m s) :=
  (suffices_fuel True bytes m).1 (.statement default) hs trivial (sealed_endless as) hf fun _ => hi

/-- Behind a statement two idle tokens at least are ahead. -/
theorem idling_of_statement {p : Node} {s' : Lookahead} (h : statement m s = .ok p s')
    (hs : s.At bytes .endless last as) (hi : EndsIdle 3 as) :
    ∃ mid last', s'.At bytes .endless last' mid ∧ mid.length < as.length ∧ Idling mid := by
  obtain ⟨mid, left, last', hreads, hs', -⟩ :=
    (keeps bytes m).1 (.statement p) h hs trivial (sealed_endless as)
  exact ⟨mid, last', hs', hreads.length_lt rfl, hreads.idling hi⟩

/-- **Of two runs that see the same tokens both come to where their streams were cut off, or
neither does.** -/
theorem isCut_statements (hempty : PatternEngine.fault? "" = none) (he : e.ending = .endless)
    (h : Twins e s t) (hs : s.At bytes .endless last as)
    (ht : t.At bytes' .endless last' bs) (hi : EndsIdle 3 as) (hi' : EndsIdle 3 bs)
    (hf : 4 * as.length + 4 ≤ m) (hf' : 4 * bs.length + 4 ≤ n) :
    IsCut (statements m s) ↔ IsCut (statements n t) := by
  induction m generalizing n s t last last' as bs with
  | zero => omega
  | succ m ih =>
    obtain ⟨n, rfl⟩ : ∃ k, n = k + 1 := ⟨n - 1, by omega⟩
    obtain ⟨a, as, rfl⟩ := List.exists_cons_of_ne_nil hi.ne_nil
    obtain ⟨b, bs, rfl⟩ := List.exists_cons_of_ne_nil hi'.ne_nil
    obtain ⟨s₁, hp, hs₁, -⟩ := peek_at hs
    obtain ⟨t₁, hq, ht₁, -⟩ := peek_at ht
    have hpeek := inStep_peek h
    rw [hp, hq] at hpeek
    cases hpeek with
    | ok hab h₁ =>
      rw [statements, statements, bind_ok hp, bind_ok hq, ← hab.kind]
      by_cases heof : a.token.kind = .eof
      · rw [if_pos heof, if_pos heof]
        exact iff_of_false not_isCut_ok not_isCut_ok
      · rw [if_neg heof, if_neg heof]
        have hample := ample_statement (m := m) hs₁ (by omega) hi
        have hample' := ample_statement (m := n) ht₁ (by omega) hi'
        have hstep := inStep_statement (m := m) (n := n) h₁
        rcases hstep.cases_of_ample he hample hample' with
          ⟨p, q, s₂, t₂, hx, hy, h₂⟩ | ⟨f, g, s₂, t₂, hx, hy⟩
        · rw [bind_ok hx, bind_ok hy, isCut_bind_pure, isCut_bind_pure]
          obtain ⟨mid, last₂, hs₂, hlen, hmid⟩ := idling_of_statement hx hs₁ hi
          obtain ⟨mid', last₂', ht₂, hlen', hmid'⟩ := idling_of_statement hy ht₁ hi'
          -- If one of the two is among the last idle tokens, so is the other.
          by_cases hidle : ∀ a ∈ mid, a.token.IsIdle
          · have hidle' := (h₂.isIdle hs₂ ht₂).1 hidle
            have hcut : IsCut (statements m s₂) := statements_idle hempty hs₂ hidle (by omega)
            have hcut' : IsCut (statements n t₂) := statements_idle hempty ht₂ hidle' (by omega)
            exact iff_of_true hcut hcut'
          · have hidle' := fun h' => hidle ((h₂.isIdle hs₂ ht₂).2 h')
            exact ih h₂ hs₂ ht₂ (hmid.resolve_right fun h' => hidle h'.2)
              (hmid'.resolve_right fun h' => hidle' h'.2) (by omega) (by omega)
        · simp [bind_error hx, bind_error hy]

end

/-! ## Whole scripts -/

section

variable {source source' : String}

/-- Three idle tokens stand at the end of what an endless script holds. -/
theorem endsIdle_slotsIn (h : (tokenize source).ending = .endless) :
    EndsIdle 3 (slotsIn source.toList) := by
  obtain ⟨ts, t, hstands, hlen⟩ := exists_stands_of_endless h
  obtain ⟨i, hi⟩ : ∃ i, Text.size source.toList + 1 = ts.length + i :=
    Nat.exists_eq_add_of_le (by omega)
  have hheld : (TokenStream.ofSource source.toList).tokens = ts ++ List.replicate i t := by
    rw [TokenStream.ofSource, hi, hstands.run_eq]
  have hkeep : (!Lookahead.isComment t) = true := by
    rw [Lookahead.isComment, hstands.idle.kind]
    rfl
  have hslots := map_token_slotsBehind (Text.bytes source.toList) []
    (TokenStream.ofSource source.toList).tokens
  rw [hheld, List.filter_append, List.filter_replicate, if_pos hkeep,
    List.map_eq_append_iff] at hslots
  obtain ⟨start, idle, hsplit, -, hidle⟩ := hslots
  have hlength : idle.length = i := by
    rw [← List.length_map, hidle, List.length_replicate]
  refine ⟨idle, ⟨start, ?_⟩, by omega, fun a ha => ?_⟩
  · rw [slotsIn, slotsOf, hheld]
    exact hsplit.symm
  · have hmem : a.token ∈ List.replicate i t := hidle ▸ List.mem_map_of_mem ha
    rw [List.eq_of_mem_replicate hmem]
    exact hstands.idle

/-- Behind the statements of a program the end of the text is taken, and nothing more is read. -/
theorem isCut_program (source : String) :
    IsCut (Parser.program (.ofSource source.toList)) ↔
      IsCut (Parser.statements (Lookahead.ofSource source.toList).fuel
        (.ofSource source.toList)) := by
  have hs := Lookahead.ofSource_at source.toList
  rw [Parser.program, Parser.bind_ok (Parser.locate_at hs 0), Parser.depth_bind]
  cases hx : Parser.statements (Lookahead.ofSource source.toList).fuel
      (Lookahead.ofSource source.toList) with
  | ok ns s₁ =>
    obtain ⟨after, left, last, hreads, hs₁, -⟩ := (keeps _ _).1 (.statements none ns) hx hs
      ⟨rfl, Nat.zero_le _⟩ (sealed_slotsIn source.toList)
    obtain ⟨t, rest, rfl, ht⟩ := hreads.statements_end
    obtain ⟨s₂, heof, -, -⟩ := Parser.expect_at hs₁ ht
    rw [Parser.bind_ok hx, Parser.bind_ok heof, Parser.pure_ok]
    exact iff_of_false not_isCut_ok not_isCut_ok
  | error f s₁ =>
    rw [Parser.bind_error hx, isCut_error_iff, isCut_error_iff]

theorem SameTokens.isCut_program (hempty : PatternEngine.fault? "" = none)
    (h : SameTokens source source')
    (he : (tokenize source).ending = .endless) :
    IsCut (Parser.program (.ofSource source.toList)) ↔
      IsCut (Parser.program (.ofSource source'.toList)) := by
  have he' : (tokenize source').ending = .endless := h.ending_eq.symm.trans he
  have hs := Lookahead.ofSource_at source.toList
  have ht := Lookahead.ofSource_at source'.toList
  have hlen := Lookahead.length_slotsIn_le source.toList
  have hlen' := Lookahead.length_slotsIn_le source'.toList
  rw [show (TokenStream.ofSource source.toList).ending = .endless from he] at hs
  rw [show (TokenStream.ofSource source'.toList).ending = .endless from he'] at ht
  rw [PipelineScript.isCut_program, PipelineScript.isCut_program]
  exact isCut_statements hempty he h.twins hs ht (endsIdle_slotsIn he) (endsIdle_slotsIn he')
    (by omega) (by omega)

theorem Parser.runOn_ok {α : Type} {x : Parser α} {r : α} {s s' : Lookahead}
    (h : x s = .ok r s') : x.runOn s = .ok r := by
  rw [runOn, h]

theorem Parser.runOn_error {α : Type} {x : Parser α} {f : ParseFailure} {s s' : Lookahead}
    (h : x s = .error f s') : x.runOn s = .error f := by
  rw [runOn, h]

/-- **Layout and comments never change what a script means.** Of two scripts whose tokens have the
same kinds and texts, one after the other, apart from comments, both are parsed, to programs with
the same meaning up to the comments behind the last statement, or both are rejected for the same
cause. There is a third way only where the tokens of neither come to an end: that neither run does,
because the scanner is lost or stands still. Of the engine for patterns it is used that it takes the
empty text, which is what a scanner that stands still gives. -/
theorem parse_agrees (hempty : PatternEngine.fault? "" = none)
    (h : SameTokens source source') :
    (∃ p q, parse source = .ok p ∧ parse source' = .ok q ∧
        p.withoutRemarks.same q.withoutRemarks = true) ∨
      (∃ f g : ParseError, parse source = .error (.rejected f) ∧
        parse source' = .error (.rejected g) ∧ f.cause = g.cause) ∨
      ∃ ending, ending ≠ .ended ∧ (tokenize source).ending = ending ∧
        (tokenize source').ending = ending ∧ parse source = .error (.interrupted ending) ∧
        parse source' = .error (.interrupted ending) := by
  have hagree := inStep_program h.twins
  have hending : (Ends.ofSource source).ending = (tokenize source).ending := rfl
  generalize hx : Parser.program (Lookahead.ofSource source.toList) = r at hagree
  generalize hy : Parser.program (Lookahead.ofSource source'.toList) = r' at hagree
  cases hagree with
  | ok hpq _ => exact .inl ⟨_, _, Parser.runOn_ok hx, Parser.runOn_ok hy, hpq.same⟩
  | rejected hcause =>
    exact .inr (.inl ⟨_, _, Parser.runOn_error hx, Parser.runOn_error hy, hcause⟩)
  | interrupted hne =>
    exact .inr (.inr ⟨_, hne, rfl, h.ending_eq.symm, Parser.runOn_error hx, Parser.runOn_error hy⟩)
  | cutLeft hcut =>
    obtain ⟨t, ht⟩ := (h.isCut_program hempty hcut).1 ⟨_, by rw [hx, hending, hcut]⟩
    rw [hending, hcut] at hx
    exact .inr (.inr ⟨.endless, by simp, hcut, h.ending_eq.symm.trans hcut, Parser.runOn_error hx,
      Parser.runOn_error ht⟩)
  | cutRight hcut =>
    obtain ⟨s, hs⟩ := (h.isCut_program hempty hcut).2 ⟨_, by rw [hy, hending, hcut]⟩
    rw [hending, hcut] at hy
    exact .inr (.inr ⟨.endless, by simp, hcut, h.ending_eq.symm.trans hcut, Parser.runOn_error hs,
      Parser.runOn_error hy⟩)
  | exhaustedLeft => exact absurd (Parser.runOn_error hx) (parse_ne_exhausted source)
  | exhaustedRight => exact absurd (Parser.runOn_error hy) (parse_ne_exhausted source')

/-- Scripts that hold the same signs up to the end have the same tokens. -/
theorem sameTokens_of_signs_eq (he : (tokenize source).ending = .ended)
    (h : (tokenize source).signs = (tokenize source').signs) : SameTokens source source' := by
  have hopen {source : String} (he : (tokenize source).ending = .ended) :
      (tokenize source).ending ≠ .endless := by
    rw [he]
    simp
  refine ⟨fun n => ⟨Text.size source'.toList + 1, ?_⟩, fun n => ⟨Text.size source.toList + 1, ?_⟩⟩
  · have hprefix := signsWithin_prefix_signs (hopen he) n
    rw [h] at hprefix
    exact hprefix
  · have hprefix := signsWithin_prefix_signs (hopen (ended_of_signs_eq h he)) n
    rw [← h] at hprefix
    exact hprefix

end

end

open scoped PatternEngine

/-- Comments and line breaks between the tokens of two statements, and behind the last one. -/
theorem parse_agrees_comments :
    SameTokens "var x = -(a + 2) * b\nx|f(['s', *]) // mean\n.g"
        "// first\nvar // the sum\nx\n= - ( a+2 ) *b // then\n\nx | f (\n [ 's' ,* ] ) .g\n// end" ∧
      ∃ p q, parse "var x = -(a + 2) * b\nx|f(['s', *]) // mean\n.g" = .ok p ∧
        parse
          "// first\nvar // the sum\nx\n= - ( a+2 ) *b // then\n\nx | f (\n [ 's' ,* ] ) .g\n// end"
            = .ok q ∧
        p.withoutRemarks.same q.withoutRemarks = true := by
  have hsame : SameTokens "var x = -(a + 2) * b\nx|f(['s', *]) // mean\n.g"
      "// first\nvar // the sum\nx\n= - ( a+2 ) *b // then\n\nx | f (\n [ 's' ,* ] ) .g\n// end" :=
    sameTokens_of_signs_eq (by decide +kernel) (by decide +kernel)
  obtain ⟨p, hp, -⟩ := exists_ok_of_any (x := parse
    "var x = -(a + 2) * b\nx|f(['s', *]) // mean\n.g") (P := fun _ => true) (by decide +kernel)
  refine ⟨hsame, ?_⟩
  rcases parse_agrees rfl hsame with hok | ⟨f, g, hf, -⟩ | ⟨ending, -, -, -, hlost, -⟩
  · exact hok
  · rw [hp] at hf
    cases hf
  · rw [hp] at hlost
    cases hlost

end PipelineScript

import PipelineScript.Proofs.Halting

/-!
Reading a token again.

What a scanner reads depends on the text where it stands, and on little of that: on the text of the
token, and on the character behind it. So the same token is read again when the text behind it is
replaced by one that begins with the same character, or, unless the token is a comment, with a blank
(`Scanner.read_again`), and when the same text stands elsewhere (`Scanner.read_moved`). The one
exception is the slash before a character of more than one byte, which sends the scanner back.
-/
namespace PipelineScript

/-- What may replace the text behind a token: one that begins with the same character, or with a
blank. Only a comment goes on behind a blank. -/
def Alike (kind : TokenKind) (rest rest' : List Char) : Prop :=
  rest'.head? = rest.head? ∨ kind ≠ .comment ∧ rest'.head? = some ' '

namespace Alike

variable {kind : TokenKind} {l rest rest' : List Char} {p : Char → Bool}

/-- A class of characters that has no blank and does not go on behind the token. -/
theorem head_eq_false (h : Alike kind rest rest') (hp : p ' ' = false)
    (hr : ∀ d, rest.head? = some d → p d = false) {d : Char} (hd : rest'.head? = some d) :
    p d = false := by
  rcases h with h | ⟨-, h⟩
  · exact hr d (h ▸ hd)
  · obtain rfl : ' ' = d := by simpa [h] using hd
    exact hp

theorem head_ne {c : Char} (h : Alike kind rest rest') (hc : c ≠ ' ')
    (hr : rest.head? ≠ some c) : rest'.head? ≠ some c := by
  rcases h with h | ⟨-, h⟩
  · rwa [h]
  · rw [h]
    simpa using hc.symm

/-- What was read as far as a class of characters goes is read again. -/
theorem span (h : Alike kind rest rest') (hp : p ' ' = false)
    (hl : (l ++ rest).takeWhile p = l) :
    (l ++ rest').takeWhile p = l ∧ (l ++ rest').dropWhile p = rest' := by
  have hall : ∀ c ∈ l, p c = true := by
    intro c hc
    rw [← hl] at hc
    exact List.all_eq_true.1 List.all_takeWhile c hc
  rw [List.takeWhile_append_of_pos hall, List.append_right_eq_self] at hl
  have hrest : ∀ d, rest.head? = some d → p d = false := by
    intro d hd
    obtain ⟨ds, rfl⟩ := List.head?_eq_some_iff.1 hd
    cases hpd : p d with
    | false => rfl
    | true => simp [hpd] at hl
  rw [List.takeWhile_append_of_pos hall, List.dropWhile_append_of_pos hall]
  cases rest' with
  | nil => simp
  | cons d ds => simp [h.head_eq_false hp hrest (d := d) rfl]

end Alike

namespace Lexeme

variable {l rest rest' : List Char}

/-- A comment is read again before the same character. -/
theorem comment_again {margin : Bool} {text : List Char} (hr : rest'.head? = rest.head?)
    (h : comment margin text = (l, rest)) : comment margin (l ++ rest') = (l, rest') := by
  induction text generalizing margin l with
  | nil =>
    cases h
    obtain rfl : rest' = [] := by simpa using hr
    rfl
  | cons c cs ih =>
    -- A character that is kept is read again, and the rest by the induction hypothesis.
    have hkeep : ∀ {m : Bool} {l : List Char}, keep c (comment m cs) = (l, rest) →
        ∃ l', l = c :: l' ∧ comment m (l' ++ rest') = (l', rest') := by
      intro m l hl
      obtain ⟨hl, hrest⟩ := Prod.mk.inj hl
      exact ⟨_, hl.symm, ih (Prod.ext rfl hrest)⟩
    rw [comment] at h
    split at h
    · rename_i hm
      subst hm
      split at h
      · rename_i hc
        obtain ⟨l', rfl, hl'⟩ := hkeep h
        simp [comment, hc, hl', keep]
      · rename_i hc
        split at h
        · rename_i hb
          obtain ⟨l', rfl, hl'⟩ := hkeep h
          simp [comment, hc, hb, hl', keep]
        · rename_i hb
          cases h
          obtain ⟨ds, rfl⟩ := List.head?_eq_some_iff.1 hr
          rw [List.nil_append, comment, if_pos rfl, if_neg hc, if_neg hb]
    · rename_i hm
      obtain ⟨l', rfl, hl'⟩ := hkeep h
      rw [List.cons_append, comment, if_neg hm, hl']
      rfl

end Lexeme

namespace Scan

variable {source rest rest' lexeme l cs : List Char} {kind : TokenKind} {offset : Nat} {c : Char}
  {mode : ScanMode}

theorem emit_eq_emit {kind' : TokenKind} {offset' : Nat} {lexeme' : List Char} {mode' : ScanMode} :
    emit kind offset lexeme rest mode = emit kind' offset' lexeme' rest' mode' ↔
      kind = kind' ∧ offset = offset' ∧ lexeme = lexeme' ∧ rest = rest' ∧ mode = mode' := by
  constructor
  · intro h
    simp only [emit, Scan.token.injEq, Token.mk.injEq, Option.some.injEq, Cursor.mk.injEq] at h
    obtain ⟨⟨rfl, rfl, htext⟩, rfl, -, rfl⟩ := h
    exact ⟨rfl, rfl, String.ofList_injective htext, rfl, rfl⟩
  · rintro ⟨rfl, rfl, rfl, rfl, rfl⟩
    rfl

theorem fail_ne_emit {message : String} :
    fail offset message ≠ emit kind offset lexeme rest mode := by
  simp [fail, emit]

/-! ## Each token again -/

theorem word_again (hr : Alike kind rest rest')
    (h : word offset c (l ++ rest) = emit kind offset (c :: l) rest mode) :
    word offset c (l ++ rest') = emit kind offset (c :: l) rest' mode := by
  generalize hname : Lexeme.name (l ++ rest) = p at h
  obtain ⟨n, r⟩ := p
  have hn : (l ++ rest).takeWhile Text.isNamePart = n := congrArg Prod.fst hname
  have hagain : n = l → Lexeme.name (l ++ rest') = (l, rest') := by
    rintro rfl
    obtain ⟨h₁, h₂⟩ := hr.span (by decide) hn
    rw [Lexeme.name, h₁, h₂]
  -- The word `lambda` is a name where no colon follows.
  have hident : TokenKind.keyword? (String.ofList (c :: n)) = some .lambda → r.head? ≠ some ':' →
      emit .ident offset (c :: n) r .operator = emit kind offset (c :: l) rest mode →
      word offset c (l ++ rest') = emit kind offset (c :: l) rest' mode := by
    intro hk hcolon he
    obtain ⟨rfl, -, hl, rfl, rfl⟩ := emit_eq_emit.1 he
    obtain rfl : n = l := (List.cons.inj hl).2
    have hcolon' := hr.head_ne (by decide) hcolon
    rw [word, hagain rfl]
    simp only [hk]
    cases rest' with
    | nil => rfl
    | cons d ds => exact if_neg (by simpa using hcolon')
  rw [word, hname] at h
  dsimp only at h
  split at h
  · rename_i hk
    split at h
    · rename_i d ds
      split at h
      · rename_i hd
        subst hd
        obtain ⟨rfl, -, hl, rfl, rfl⟩ := emit_eq_emit.1 h
        obtain rfl : l = n ++ [':'] := by simpa using hl.symm
        have hsplit : Lexeme.name (n ++ [':'] ++ rest') = (n, ':' :: rest') := by
          have hcolon : Alike .lambda (':' :: ds) (':' :: rest') := .inl rfl
          rw [List.append_assoc, List.singleton_append] at hn ⊢
          obtain ⟨h₁, h₂⟩ := hcolon.span (by decide) hn
          rw [Lexeme.name, h₁, h₂]
        rw [word, hsplit]
        simp only [hk, if_true]
        rfl
      · rename_i hd
        exact hident hk (by simpa using hd) h
    · exact hident hk (by simp) h
  · rename_i k hk hlambda
    obtain ⟨rfl, -, hl, rfl, rfl⟩ := emit_eq_emit.1 h
    obtain rfl : n = l := (List.cons.inj hl).2
    rw [word, hagain rfl]
    simp only [hlambda]
  · rename_i hk
    obtain ⟨rfl, -, hl, rfl, rfl⟩ := emit_eq_emit.1 h
    obtain rfl : n = l := (List.cons.inj hl).2
    rw [word, hagain rfl]
    simp only [hk]

theorem fraction_again {whole : List Char} (hr : Alike kind rest rest')
    (h : fraction offset whole (l ++ rest) = emit kind offset (whole ++ '.' :: l) rest mode) :
    fraction offset whole (l ++ rest') = emit kind offset (whole ++ '.' :: l) rest' mode := by
  generalize hdigits : Lexeme.digits (l ++ rest) = p at h
  obtain ⟨n, r⟩ := p
  have hn : (l ++ rest).takeWhile Text.isDigit = n := congrArg Prod.fst hdigits
  -- The digits end in both texts where no digit and no other point follows.
  have hagain : r.head? ≠ some '.' →
      emit .number offset (whole ++ '.' :: n) r .operator =
        emit kind offset (whole ++ '.' :: l) rest mode →
      fraction offset whole (l ++ rest') = emit kind offset (whole ++ '.' :: l) rest' mode := by
    intro hpoint he
    obtain ⟨rfl, -, hl, rfl, rfl⟩ := emit_eq_emit.1 he
    obtain rfl : n = l := by simpa using hl
    obtain ⟨h₁, h₂⟩ := hr.span (by decide) hn
    have hpoint' := hr.head_ne (by decide) hpoint
    rw [fraction, Lexeme.digits, h₁, h₂]
    cases rest' with
    | nil => rfl
    | cons d ds => exact if_neg (by simpa using hpoint')
  rw [fraction, hdigits] at h
  dsimp only at h
  split at h
  · split at h
    · exact absurd h fail_ne_emit
    · rename_i hd
      exact hagain (by simpa using hd) h
  · exact hagain (by simp) h

theorem of_fraction {whole : List Char}
    (h : fraction offset whole cs = emit kind offset lexeme rest mode) :
    lexeme = whole ++ '.' :: (Lexeme.digits cs).1 ∧ rest = (Lexeme.digits cs).2 := by
  have hemit : ∀ {r}, (Lexeme.digits cs).2 = r →
      emit .number offset (whole ++ '.' :: (Lexeme.digits cs).1) r .operator =
        emit kind offset lexeme rest mode →
      lexeme = whole ++ '.' :: (Lexeme.digits cs).1 ∧ rest = (Lexeme.digits cs).2 := by
    rintro r rfl he
    obtain ⟨-, -, rfl, rfl, -⟩ := emit_eq_emit.1 he
    exact ⟨rfl, rfl⟩
  rw [fraction] at h
  dsimp only at h
  split at h
  · split at h
    · exact absurd h fail_ne_emit
    · exact hemit ‹_› h
  · exact hemit ‹_› h

theorem number_again (hr : Alike kind rest rest')
    (h : number offset (lexeme ++ rest) = emit kind offset lexeme rest mode) :
    number offset (lexeme ++ rest') = emit kind offset lexeme rest' mode := by
  generalize hdigits : Lexeme.digits (lexeme ++ rest) = p at h
  obtain ⟨whole, r⟩ := p
  have hwhole : (lexeme ++ rest).takeWhile Text.isDigit = whole := congrArg Prod.fst hdigits
  have hr' : (lexeme ++ rest).dropWhile Text.isDigit = r := congrArg Prod.snd hdigits
  have hall : whole.all Text.isDigit = true := hwhole ▸ List.all_takeWhile
  have hhead : ∀ {d ds}, r = d :: ds → Text.isDigit d = false := by
    rintro d ds rfl
    simpa [hr'] using List.head?_dropWhile_not Text.isDigit (lexeme ++ rest)
  -- A whole number ends before anything that does not go on with it.
  have hnumber : (∀ d, r.head? = some d → d ≠ '.' ∧ isUnit d = false) →
      emit .number offset whole r .operator = emit kind offset lexeme rest mode →
      number offset (lexeme ++ rest') = emit kind offset lexeme rest' mode := by
    intro hd he
    obtain ⟨rfl, -, rfl, rfl, rfl⟩ := emit_eq_emit.1 he
    obtain ⟨h₁, h₂⟩ := hr.span (by decide) hwhole
    have hpoint := hr.head_ne (c := '.') (by decide) fun hc => (hd _ hc).1 rfl
    have hunit : ∀ {d}, rest'.head? = some d → isUnit d = false :=
      hr.head_eq_false (by decide) fun d hc => (hd d hc).2
    rw [number, Lexeme.digits, h₁, h₂]
    cases rest' with
    | nil => rfl
    | cons d ds =>
      have hd' : d ≠ '.' := by simpa using hpoint
      simp [hd', hunit rfl]
  -- A unit of one character ends there, unless it is the first one of `ms`.
  have hunit : ∀ {d ds}, r = d :: ds → d ≠ '.' → isUnit d = true →
      (d = 'm' → ds.head? ≠ some 's') →
      emit .duration offset (whole ++ [d]) ds .operator = emit kind offset lexeme rest mode →
      number offset (lexeme ++ rest') = emit kind offset lexeme rest' mode := by
    intro d ds hds hd hu hms he
    obtain ⟨rfl, -, rfl, rfl, rfl⟩ := emit_eq_emit.1 he
    rw [List.append_assoc, List.singleton_append, number, Sign.digits_append_cons hall (hhead hds)]
    simp only [hd, hu, if_false, if_true]
    cases rest' with
    | nil => rfl
    | cons e es =>
      have hne : ¬(d = 'm' ∧ e = 's') := by
        rintro ⟨hm, rfl⟩
        exact hr.head_ne (by decide) (hms hm) rfl
      exact if_neg hne
  rw [number, hdigits] at h
  dsimp only at h
  split at h
  · rename_i d ds
    split at h
    · rename_i hd
      subst hd
      obtain ⟨rfl, rfl⟩ := of_fraction h
      rw [List.append_assoc, List.cons_append, number, Sign.digits_append_cons hall (hhead rfl)]
      simpa using fraction_again hr (by rw [Lexeme.digits_append]; exact h)
    · rename_i hd
      split at h
      · rename_i hu
        split at h
        · rename_i e es
          split at h
          · rename_i hms
            obtain ⟨rfl, -, rfl, rfl, rfl⟩ := emit_eq_emit.1 h
            obtain ⟨rfl, rfl⟩ := hms
            rw [List.append_assoc, List.cons_append, number,
              Sign.digits_append_cons hall (hhead rfl)]
            rfl
          · rename_i hms
            exact hunit rfl hd hu (fun hm => by simpa [hm] using hms) h
        · exact hunit rfl hd hu (by simp) h
      · rename_i hu
        exact hnumber (by simpa using And.intro hd hu) h
  · exact hnumber (by simp) h

theorem point_again (hr : Alike kind rest rest')
    (h : point offset (l ++ rest) = emit kind offset ('.' :: l) rest mode) :
    point offset (l ++ rest') = emit kind offset ('.' :: l) rest' mode := by
  have hdot : l = [] → (∀ d, rest.head? = some d → Text.isDigit d = false) →
      kind = .chain .dot → mode = .operand →
      point offset (l ++ rest') = emit kind offset ('.' :: l) rest' mode := by
    rintro rfl hd rfl rfl
    have hdigit : ∀ {d}, rest'.head? = some d → Text.isDigit d = false :=
      hr.head_eq_false (by decide) hd
    cases rest' with
    | nil => rfl
    | cons d ds => simp [point, hdigit rfl]
  rw [point.eq_def] at h
  split at h
  · rename_i d ds hds
    split at h
    · rename_i hd
      -- The digit behind the point is a part of the token.
      have hl : l = (Lexeme.digits (d :: ds)).1 := by simpa using (of_fraction h).1
      rw [Lexeme.digits, List.takeWhile_cons_of_pos hd] at hl
      subst hl
      rw [← hds] at h
      rw [List.cons_append, point, if_pos hd, ← List.cons_append]
      exact fraction_again hr h
    · rename_i hd
      obtain ⟨hk, -, hl, hrest, hm⟩ := emit_eq_emit.1 h
      refine hdot (List.cons.inj hl).2.symm ?_ hk.symm hm.symm
      rw [← hrest]
      simpa using hd
  · obtain ⟨hk, -, hl, hrest, hm⟩ := emit_eq_emit.1 h
    refine hdot (List.cons.inj hl).2.symm ?_ hk.symm hm.symm
    rw [← hrest]
    simp

theorem reference_again (rest' : List Char)
    (h : reference offset (l ++ rest) = emit kind offset ('"' :: l) rest mode) :
    reference offset (l ++ rest') = emit kind offset ('"' :: l) rest' mode := by
  rw [reference] at h
  split at h
  · rename_i lexeme r hclosing
    obtain ⟨rfl, -, hl, rfl, rfl⟩ := emit_eq_emit.1 h
    obtain rfl : lexeme = l := (List.cons.inj hl).2
    rw [reference, Lexeme.closing_again rest' hclosing]
  · exact absurd h fail_ne_emit

theorem quoted_again {opening : List Char} (rest' : List Char)
    (h : quoted offset opening (l ++ rest) = emit kind offset (opening ++ l) rest mode) :
    quoted offset opening (l ++ rest') = emit kind offset (opening ++ l) rest' mode := by
  rw [quoted] at h
  split at h
  · rename_i lexeme r hclosing
    obtain ⟨rfl, -, hl, rfl, rfl⟩ := emit_eq_emit.1 h
    obtain rfl : lexeme = l := List.append_cancel_left hl
    rw [quoted, Lexeme.closingQuotes_again rest' hclosing]
  · exact absurd h fail_ne_emit

/-- What is read behind opening quotes is the text up to the closing ones. -/
theorem of_quoted {opening : List Char}
    (h : quoted offset opening cs = emit kind offset lexeme rest mode) :
    ∃ l, lexeme = opening ++ l ∧ cs = l ++ rest ∧ l ≠ [] := by
  rw [quoted] at h
  split at h
  · rename_i l r hclosing
    obtain ⟨-, -, rfl, rfl, -⟩ := emit_eq_emit.1 h
    obtain ⟨happ, hclosed⟩ := Lexeme.closingQuotes_eq_some_iff.1 hclosing
    obtain ⟨c, cs, rfl⟩ := hclosed.exists_cons
    exact ⟨c :: cs, rfl, happ, List.cons_ne_nil c cs⟩
  · exact absurd h fail_ne_emit

theorem string_again (hr : Alike kind rest rest')
    (h : string offset (l ++ rest) = emit kind offset ('\'' :: l) rest mode) :
    string offset (l ++ rest') = emit kind offset ('\'' :: l) rest' mode := by
  -- An empty string, which no third quote follows.
  have hempty : l = ['\''] → kind = .string → mode = .operator → rest.head? ≠ some '\'' →
      string offset (l ++ rest') = emit kind offset ('\'' :: l) rest' mode := by
    rintro rfl rfl rfl hq
    have hq' := hr.head_ne (by decide) hq
    cases rest' with
    | nil => rfl
    | cons d ds =>
      have hd : d ≠ '\'' := by simpa using hq'
      simp [string, hd]
  have hsingle : (l ++ rest).head? ≠ some '\'' →
      quoted offset ['\''] (l ++ rest) = emit kind offset ('\'' :: l) rest mode →
      string offset (l ++ rest') = emit kind offset ('\'' :: l) rest' mode := by
    intro hq he
    obtain ⟨l', hl, -, hne⟩ := of_quoted he
    obtain rfl : l = l' := (List.cons.inj hl).2
    obtain ⟨e, es, rfl⟩ := List.exists_cons_of_ne_nil hne
    have hd : e ≠ '\'' := by simpa using hq
    show (if e = '\'' then _ else quoted offset ['\''] (e :: es ++ rest')) = _
    rw [if_neg hd]
    exact quoted_again rest' he
  rw [string.eq_def] at h
  split at h
  · rename_i d ds hds
    split at h
    · rename_i hd
      subst hd
      split at h
      · rename_i e es
        split at h
        · rename_i he
          subst he
          obtain ⟨l', hl, rfl, -⟩ := of_quoted h
          obtain rfl : l = '\'' :: '\'' :: l' := by simpa using hl
          rw [List.cons_append, List.cons_append, string, if_pos rfl]
          simp only [if_true]
          exact quoted_again rest' h
        · rename_i he
          obtain ⟨hk, -, hl, hrest, hm⟩ := emit_eq_emit.1 h
          refine hempty (List.cons.inj hl).2.symm hk.symm hm.symm ?_
          rw [← hrest]
          simpa using he
      · obtain ⟨hk, -, hl, hrest, hm⟩ := emit_eq_emit.1 h
        refine hempty (List.cons.inj hl).2.symm hk.symm hm.symm ?_
        rw [← hrest]
        simp
    · rename_i hd
      exact hsingle (by rw [hds]; simpa using hd) (by rw [hds]; exact h)
  · rename_i hnil
    exact hsingle (by rw [hnil]; simp) (by rw [hnil]; exact h)

theorem of_comment (h : comment offset cs = emit kind offset ('/' :: l) rest mode) :
    ∃ l', l = '/' :: l' := by
  obtain ⟨-, -, hl, -, -⟩ := emit_eq_emit.1 h
  exact ⟨_, (List.cons.inj hl).2.symm⟩

theorem comment_again (hr : Alike kind rest rest')
    (h : comment offset (l ++ rest) = emit kind offset ('/' :: '/' :: l) rest mode) :
    comment offset (l ++ rest') = emit kind offset ('/' :: '/' :: l) rest' mode := by
  obtain ⟨rfl, -, hl, hrest, rfl⟩ := emit_eq_emit.1 h
  have hhead : rest'.head? = rest.head? := hr.resolve_right fun h => h.1 rfl
  have hl : (Lexeme.comment false (l ++ rest)).1 = l := by simpa using hl
  rw [comment, Lexeme.comment_again hhead (Prod.ext hl hrest)]

theorem regex_again (rest' : List Char)
    (h : regex offset 0 (lexeme ++ rest) = emit kind offset lexeme rest mode) :
    regex offset 0 (lexeme ++ rest') = emit kind offset lexeme rest' mode := by
  rw [regex.eq_def] at h
  split at h
  · exact absurd h fail_ne_emit
  · rename_i d ds hds
    split at h
    · rename_i hd
      subst hd
      split at h
      · rename_i l r hclosing
        have hsuffix : Text.suffixAt ('/' :: l) 0 = some ('/' :: l) := by simp [Text.suffixAt]
        rw [hsuffix] at h
        obtain ⟨rfl, -, rfl, rfl, rfl⟩ := emit_eq_emit.1 h
        obtain rfl : l ++ r = ds := Lexeme.closing_append hclosing
        rw [List.cons_append, regex, if_pos rfl, Lexeme.closing_again rest' hclosing]
        simp only [hsuffix]
      · exact absurd h fail_ne_emit
    · exact absurd h fail_ne_emit

/-- A regex takes more than the slash that opens it. -/
theorem ne_nil_of_regex (h : regex offset 0 ('/' :: cs) = emit kind offset ('/' :: l) rest mode) :
    l ≠ [] := by
  rw [regex, if_pos rfl] at h
  split at h
  · rename_i lexeme r hclosing
    have hsuffix : Text.suffixAt ('/' :: lexeme) 0 = some ('/' :: lexeme) := by simp [Text.suffixAt]
    rw [hsuffix] at h
    obtain ⟨-, -, hl, -, -⟩ := emit_eq_emit.1 h
    obtain ⟨body, hbody, -⟩ := Sign.closes_of_closing hclosing
    rw [← (List.cons.inj hl).2, hbody]
    simp
  · exact absurd h fail_ne_emit

variable {source' : List Char}

/-- A slash where an operand is expected is read again if the scanner does not go back. -/
theorem slash_again (hr : Alike kind rest rest')
    (hw : ∀ d, (l ++ rest).head? = some d → d.utf8Size = 1)
    (h : slash source offset (l ++ rest) = emit kind offset ('/' :: l) rest mode) :
    slash source' offset (l ++ rest') = emit kind offset ('/' :: l) rest' mode := by
  rw [slash.eq_def] at h
  split at h
  · exact absurd h fail_ne_emit
  · rename_i d ds hds
    -- The scanner goes back by one byte, so the regex begins at the slash.
    have hsize : d.utf8Size = 1 := hw d (by rw [hds]; rfl)
    split at h
    · rename_i hd
      subst hd
      obtain ⟨l', rfl⟩ := of_comment h
      obtain rfl : l' ++ rest = ds := (List.cons.inj hds).2
      exact comment_again hr h
    · rename_i hd
      rw [← hds] at h
      obtain ⟨e, es, rfl⟩ := List.exists_cons_of_ne_nil (ne_nil_of_regex h)
      obtain rfl : e = d := (List.cons.inj hds).1
      have hregex : regex offset 0 (('/' :: e :: es) ++ rest) =
          emit kind offset ('/' :: e :: es) rest mode := h
      rw [List.cons_append, slash, if_neg hd, if_pos hsize]
      exact regex_again rest' hregex

/-- A token of one character is read again whatever follows. -/
theorem mark_again {k : TokenKind} {m : ScanMode} (rest' : List Char)
    (h : emit k offset [c] (l ++ rest) m = emit kind offset (c :: l) rest mode) :
    emit k offset [c] (l ++ rest') m = emit kind offset (c :: l) rest' mode := by
  obtain ⟨rfl, -, hl, -, rfl⟩ := emit_eq_emit.1 h
  obtain rfl : [] = l := (List.cons.inj hl).2
  rfl

/-- A choice that does not look at the text behind the token. -/
theorem ite_again {p : Prop} [Decidable p] {x y x' y' e e' : Scan}
    (h : (if p then x else y) = e) (hx : p → x = e → x' = e') (hy : ¬p → y = e → y' = e') :
    (if p then x' else y') = e' := by
  split at h
  · rw [if_pos ‹p›]
    exact hx ‹p› h
  · rw [if_neg ‹¬p›]
    exact hy ‹¬p› h

theorem operand_again (hr : Alike kind rest rest')
    (hw : c = '/' → ∀ d, (l ++ rest).head? = some d → d.utf8Size = 1)
    (h : operand source offset c (l ++ rest) = emit kind offset (c :: l) rest mode) :
    operand source' offset c (l ++ rest') = emit kind offset (c :: l) rest' mode := by
  refine ite_again h (fun _ h => mark_again rest' h) fun _ h => ?_
  refine ite_again h (fun _ h => mark_again rest' h) fun _ h => ?_
  refine ite_again h (fun _ h => ?digit) fun _ h => ?_
  case digit =>
    rw [← List.cons_append] at h ⊢
    exact number_again hr h
  refine ite_again h (fun hc h => by subst hc; exact point_again hr h) fun _ h => ?_
  refine ite_again h (fun _ h => word_again hr h) fun _ h => ?_
  refine ite_again h (fun hc h => by subst hc; exact reference_again rest' h) fun _ h => ?_
  refine ite_again h (fun hc h => by subst hc; exact string_again hr h) fun _ h => ?_
  iterate 8 refine ite_again h (fun _ h => mark_again rest' h) fun _ h => ?_
  refine ite_again h (fun hc h => by subst hc; exact slash_again hr (hw rfl) h) fun _ h => ?_
  exact absurd h fail_ne_emit

theorem extended_again {longer : Char → Option (TokenKind × ScanMode)} {k : TokenKind}
    {m : ScanMode} (hr : Alike kind rest rest') (hl : longer ' ' = none)
    (h : extended offset c (l ++ rest) longer k m = emit kind offset (c :: l) rest mode) :
    extended offset c (l ++ rest') longer k m = emit kind offset (c :: l) rest' mode := by
  -- A mark that is not extended is not extended by a blank either.
  have hshort : (∀ d, rest.head? = some d → longer d = none) → l = [] → k = kind → m = mode →
      extended offset c (l ++ rest') longer k m = emit kind offset (c :: l) rest' mode := by
    rintro hd rfl rfl rfl
    have hnone : ∀ {d}, rest'.head? = some d → (longer d).isSome = false :=
      hr.head_eq_false (p := fun d => (longer d).isSome) (by rw [hl]; rfl)
        fun d hc => by rw [hd d hc]; rfl
    cases rest' with
    | nil => rfl
    | cons d ds =>
      have hd' : longer d = none := by simpa using hnone rfl
      simp [extended, hd']
  rw [extended.eq_def] at h
  split at h
  · rename_i d ds hds
    split at h
    · rename_i k' m' hlonger
      obtain ⟨rfl, -, hl, rfl, rfl⟩ := emit_eq_emit.1 h
      obtain rfl : [d] = l := (List.cons.inj hl).2
      rw [List.singleton_append, extended, hlonger]
    · rename_i hlonger
      obtain ⟨hk, -, hl, hrest, hm⟩ := emit_eq_emit.1 h
      refine hshort ?_ (List.cons.inj hl).2.symm hk hm
      rw [← hrest]
      simpa using hlonger
  · obtain ⟨hk, -, hl, hrest, hm⟩ := emit_eq_emit.1 h
    refine hshort ?_ (List.cons.inj hl).2.symm hk hm
    rw [← hrest]
    simp

theorem division_again (hr : Alike kind rest rest')
    (h : operator source offset '/' (l ++ rest) = emit kind offset ('/' :: l) rest mode) :
    operator source' offset '/' (l ++ rest') = emit kind offset ('/' :: l) rest' mode := by
  -- A single slash divides before anything but another slash.
  have hdivide : l = [] → kind = .binary .divide → mode = .operand → rest.head? ≠ some '/' →
      operator source' offset '/' (l ++ rest') = emit kind offset ('/' :: l) rest' mode := by
    rintro rfl rfl rfl hd
    have hd' := hr.head_ne (by decide) hd
    cases rest' with
    | nil => rfl
    | cons e es => exact if_neg (by simpa using hd')
  rw [operator.eq_def, if_neg (by decide), if_neg (by decide), if_neg (by decide),
    if_neg (by decide), if_pos rfl] at h
  split at h
  · rename_i d ds hds
    split at h
    · rename_i hd
      subst hd
      obtain ⟨l', rfl⟩ := of_comment h
      obtain rfl : l' ++ rest = ds := (List.cons.inj hds).2
      exact comment_again hr h
    · rename_i hd
      obtain ⟨hk, -, hl, hrest, hm⟩ := emit_eq_emit.1 h
      refine hdivide (List.cons.inj hl).2.symm hk.symm hm.symm ?_
      rw [← hrest]
      simpa using hd
  · obtain ⟨hk, -, hl, hrest, hm⟩ := emit_eq_emit.1 h
    refine hdivide (List.cons.inj hl).2.symm hk.symm hm.symm ?_
    rw [← hrest]
    simp

theorem operator_again (hr : Alike kind rest rest')
    (h : operator source offset c (l ++ rest) = emit kind offset (c :: l) rest mode) :
    operator source' offset c (l ++ rest') = emit kind offset (c :: l) rest' mode := by
  by_cases hslash : c = '/'
  · subst hslash
    exact division_again hr h
  iterate 4 refine ite_again h (fun _ h => mark_again rest' h) fun _ h => ?_
  refine ite_again h (fun hc => absurd hc hslash) fun _ h => ?_
  iterate 4 refine ite_again h (fun _ h => extended_again hr (by decide) h) fun _ h => ?_
  exact operand_again hr (fun hc => absurd hc hslash) h

/-! ## The same text elsewhere -/

/-- What a step gives when the token begins at another offset. -/
def moveTo (offset : Nat) : Scan → Scan
  | .token t next =>
    .token { t with offset }
      (next.map fun cursor => { cursor with offset := offset + Text.size t.text.toList })
  | .ended => .ended
  | .lost => .lost

variable {offset' : Nat}

theorem emit_moveTo :
    (emit kind offset lexeme rest mode).moveTo offset' = emit kind offset' lexeme rest mode := by
  simp [emit, moveTo]

theorem word_moveTo : (word offset c cs).moveTo offset' = word offset' c cs := by
  simp only [word]
  repeat' split
  all_goals exact emit_moveTo

theorem fraction_moveTo {whole : List Char} :
    (fraction offset whole cs).moveTo offset' = fraction offset' whole cs := by
  simp only [fraction]
  repeat' split
  all_goals first | exact emit_moveTo | rfl

theorem number_moveTo : (number offset cs).moveTo offset' = number offset' cs := by
  simp only [number]
  repeat' split
  all_goals first | exact emit_moveTo | exact fraction_moveTo

theorem point_moveTo : (point offset cs).moveTo offset' = point offset' cs := by
  simp only [point]
  repeat' split
  all_goals first | exact emit_moveTo | exact fraction_moveTo

theorem reference_moveTo : (reference offset cs).moveTo offset' = reference offset' cs := by
  simp only [reference]
  split <;> first | exact emit_moveTo | rfl

theorem quoted_moveTo {opening : List Char} :
    (quoted offset opening cs).moveTo offset' = quoted offset' opening cs := by
  simp only [quoted]
  split <;> first | exact emit_moveTo | rfl

theorem string_moveTo : (string offset cs).moveTo offset' = string offset' cs := by
  simp only [string]
  repeat' split
  all_goals first | exact emit_moveTo | exact quoted_moveTo

theorem comment_moveTo : (comment offset cs).moveTo offset' = comment offset' cs := emit_moveTo

theorem regex_moveTo {back : Nat} :
    (regex offset back cs).moveTo offset' = regex offset' back cs := by
  simp only [regex]
  repeat' split
  all_goals first | exact emit_moveTo | rfl

theorem slash_moveTo (hw : ∀ d, cs.head? = some d → d.utf8Size = 1) :
    (slash source offset cs).moveTo offset' = slash source' offset' cs := by
  cases cs with
  | nil => rfl
  | cons d ds =>
    simp only [slash, hw d rfl, if_true]
    split
    · exact comment_moveTo
    · exact regex_moveTo

theorem ite_moveTo {p : Prop} [Decidable p] {x y x' y' : Scan} (hx : p → x.moveTo offset' = x')
    (hy : ¬p → y.moveTo offset' = y') :
    (if p then x else y).moveTo offset' = if p then x' else y' := by
  split
  · exact hx ‹p›
  · exact hy ‹¬p›

theorem operand_moveTo (hw : c = '/' → ∀ d, cs.head? = some d → d.utf8Size = 1) :
    (operand source offset c cs).moveTo offset' = operand source' offset' c cs := by
  refine ite_moveTo (fun _ => emit_moveTo) fun _ => ?_
  refine ite_moveTo (fun _ => emit_moveTo) fun _ => ?_
  refine ite_moveTo (fun _ => number_moveTo) fun _ => ?_
  refine ite_moveTo (fun _ => point_moveTo) fun _ => ?_
  refine ite_moveTo (fun _ => word_moveTo) fun _ => ?_
  refine ite_moveTo (fun _ => reference_moveTo) fun _ => ?_
  refine ite_moveTo (fun _ => string_moveTo) fun _ => ?_
  iterate 8 refine ite_moveTo (fun _ => emit_moveTo) fun _ => ?_
  exact ite_moveTo (fun hc => slash_moveTo (hw hc)) fun _ => rfl

theorem extended_moveTo {longer : Char → Option (TokenKind × ScanMode)} :
    (extended offset c cs longer kind mode).moveTo offset' =
      extended offset' c cs longer kind mode := by
  simp only [extended]
  repeat' split
  all_goals exact emit_moveTo

theorem operator_moveTo :
    (operator source offset c cs).moveTo offset' = operator source' offset' c cs := by
  iterate 4 refine ite_moveTo (fun _ => emit_moveTo) fun _ => ?_
  refine ite_moveTo (fun _ => ?slash) fun hslash => ?_
  case slash =>
    split
    · exact ite_moveTo (fun _ => comment_moveTo) fun _ => emit_moveTo
    · exact emit_moveTo
  iterate 4 refine ite_moveTo (fun _ => extended_moveTo) fun _ => ?_
  exact operand_moveTo fun hc => absurd hc hslash

end Scan

/-! ## Operators where none is expected -/

/-- The kinds of token that are read only where a binary operator may stand. The sign `-` and the
words of logic are read everywhere. -/
def TokenKind.isInfix : TokenKind → Bool
  | .assign => true
  | .binary .subtract => false
  | .binary .and => false
  | .binary .or => false
  | .binary _ => true
  | _ => false

namespace Scan

variable {source whole cs : List Char} {offset : Nat} {c : Char}

/-- A step gives neither an operator that is read only where one may stand nor a comment. -/
def isPlain : Scan → Bool
  | .token t _ => !t.kind.isInfix && t.kind != .comment
  | _ => true

/-- A step gives a token that is the same wherever it is read: it is plain, and it is neither a
regex nor a star. -/
def isCommon : Scan → Bool
  | .token t _ => !t.kind.isInfix && t.kind != .comment && t.kind != .regex && t.kind != .star
  | _ => true

theorem isPlain_of_isCommon {s : Scan} (h : s.isCommon = true) : s.isPlain = true := by
  cases s with
  | token t next =>
    simp only [isCommon, Bool.and_eq_true] at h
    rw [isPlain, h.1.1.1, h.1.1.2]
    rfl
  | ended => rfl
  | lost => rfl

theorem isCommon_word : (word offset c cs).isCommon = true := by
  simp only [word]
  split
  · repeat' split
    all_goals rfl
  · rename_i kind _ hk
    simp only [TokenKind.keyword?] at hk
    split_ifs at hk <;> cases hk <;> rfl
  · rfl

theorem isCommon_fraction : (fraction offset whole cs).isCommon = true := by
  simp only [fraction]
  repeat' split
  all_goals rfl

theorem isCommon_number : (number offset cs).isCommon = true := by
  simp only [number]
  repeat' split
  all_goals first | exact isCommon_fraction | rfl

theorem isCommon_point : (point offset cs).isCommon = true := by
  simp only [point]
  repeat' split
  all_goals first | exact isCommon_fraction | rfl

theorem isCommon_reference : (reference offset cs).isCommon = true := by
  simp only [reference]
  split <;> rfl

theorem isCommon_quoted {opening : List Char} : (quoted offset opening cs).isCommon = true := by
  simp only [quoted]
  split <;> rfl

theorem isCommon_string : (string offset cs).isCommon = true := by
  simp only [string]
  repeat' split
  all_goals first | exact isCommon_quoted | rfl

theorem isCommon_ite {p : Prop} [Decidable p] {x y : Scan} (hx : x.isCommon = true)
    (hy : y.isCommon = true) : (if p then x else y).isCommon = true := by
  split
  · exact hx
  · exact hy

theorem isCommon_operand (hslash : c ≠ '/') (hstar : c ≠ '*') :
    (operand source offset c cs).isCommon = true := by
  iterate 2 refine isCommon_ite rfl ?_
  refine isCommon_ite isCommon_number (isCommon_ite isCommon_point (isCommon_ite isCommon_word ?_))
  refine isCommon_ite isCommon_reference (isCommon_ite isCommon_string ?_)
  iterate 7 refine isCommon_ite rfl ?_
  rw [if_neg hstar, if_neg hslash]
  rfl

/-- Where an operand is expected, no token is one of those operators. -/
theorem isPlain_operand (hslash : c ≠ '/') : (operand source offset c cs).isPlain = true := by
  by_cases hstar : c = '*'
  · subst hstar
    rfl
  · exact isPlain_of_isCommon (isCommon_operand hslash hstar)

/-- A step gives an operator that is read only where one may stand. -/
def isInfix : Scan → Bool
  | .token t _ => t.kind.isInfix
  | _ => false

theorem isPlain_of_isInfix {s : Scan} (h : s.isInfix = true) : s.isPlain = false := by
  cases s with
  | token t next =>
    have hkind : t.kind.isInfix = true := h
    rw [isPlain, hkind]
    rfl
  | ended => cases h
  | lost => cases h

theorem extended_eq {longer : Char → Option (TokenKind × ScanMode)} {kind : TokenKind}
    {mode : ScanMode} (hl : ∀ d p, longer d = some p → p.1.isInfix = true) :
    extended offset c cs longer kind mode = emit kind offset [c] cs mode ∨
      (extended offset c cs longer kind mode).isInfix = true := by
  rw [extended.eq_def]
  split
  · split
    · rename_i d _ k m hd
      exact .inr (hl _ _ hd)
    · exact .inl rfl
  · exact .inl rfl

theorem isInfix_extended {longer : Char → Option (TokenKind × ScanMode)} {kind : TokenKind}
    {mode : ScanMode} (hk : kind.isInfix = true)
    (hl : ∀ d p, longer d = some p → p.1.isInfix = true) :
    (extended offset c cs longer kind mode).isInfix = true :=
  (extended_eq hl).elim (fun h => by rw [h]; exact hk) fun h => h

/-- Where a binary operator may stand, a character other than a slash is read as where an operand is
expected, or as one of those operators. -/
theorem operator_eq (hslash : c ≠ '/') :
    operator source offset c cs = operand source offset c cs ∨
      (operator source offset c cs).isInfix = true := by
  rw [operator.eq_def]
  -- In the order in which the scanner asks. A minus is read alike in both modes.
  by_cases hc : c = '+'
  · rw [if_pos hc]; exact .inr rfl
  rw [if_neg hc]
  by_cases hc : c = '-'
  · rw [if_pos hc, operand, if_pos hc]; exact .inl rfl
  rw [if_neg hc]
  by_cases hc : c = '*'
  · rw [if_pos hc]; exact .inr rfl
  rw [if_neg hc]
  by_cases hc : c = '%'
  · rw [if_pos hc]; exact .inr rfl
  rw [if_neg hc, if_neg hslash]
  by_cases hc : c = '!'
  · subst hc
    refine (extended_eq fun d p hd => ?_).imp (fun h => h) (fun h => h)
    split_ifs at hd <;> cases hd <;> rfl
  rw [if_neg hc]
  by_cases hc : c = '>'
  · rw [if_pos hc]
    refine .inr (isInfix_extended rfl fun d p hd => ?_)
    split_ifs at hd
    cases hd
    rfl
  rw [if_neg hc]
  by_cases hc : c = '<'
  · rw [if_pos hc]
    refine .inr (isInfix_extended rfl fun d p hd => ?_)
    split_ifs at hd
    cases hd
    rfl
  rw [if_neg hc]
  by_cases hc : c = '='
  · rw [if_pos hc]
    refine .inr (isInfix_extended rfl fun d p hd => ?_)
    split_ifs at hd <;> cases hd <;> rfl
  rw [if_neg hc]
  exact .inl rfl

theorem Cut.eq_emit {t : Token} {cursor : Cursor} (h : Cut source offset t cursor)
    (rest : List Char) :
    Scan.token t (some { cursor with rest }) =
      emit t.kind offset t.text.toList rest cursor.mode := by
  have hoffset := h.offset_eq
  have hstop := h.stop_eq
  obtain ⟨kind, place, text⟩ := t
  cases cursor
  simp_all [emit]

end Scan

namespace Scanner

variable {source source' : List Char} {cursor cursor' : Cursor} {t : Token}

theorem isSpace_of_blank {cs rest : List Char} {c : Char} (h : (Lexeme.blank cs).2 = c :: rest) :
    Text.isSpace c = false := by
  have hhead := List.head?_dropWhile_not Text.isSpace cs
  rw [show cs.dropWhile Text.isSpace = c :: rest from h] at hhead
  simpa using hhead

theorem all_blank (cs : List Char) : ∀ c ∈ (Lexeme.blank cs).1, Text.isSpace c = true :=
  List.all_eq_true.1 List.all_takeWhile

/-- The scanner reads behind the white space where it stands. -/
theorem read_skip (source : List Char) (cursor : Cursor) :
    read source cursor =
      read source ⟨cursor.mode, cursor.offset + Text.size (Lexeme.blank cursor.rest).1,
        (Lexeme.blank cursor.rest).2⟩ := by
  have hskip : read source ⟨cursor.mode, cursor.offset,
      (Lexeme.blank cursor.rest).1 ++ (Lexeme.blank cursor.rest).2⟩ = _ :=
    read_blank _ (all_blank _)
  rwa [Lexeme.blank_append] at hskip

/-- **A token is read again** in any text that agrees with the old one up to the end of the token
and goes on alike, unless the scanner goes back. -/
theorem read_again (hk : Text.suffixAt source cursor.offset = some cursor.rest)
    (hread : read source cursor = .token t (some cursor')) (ht : t.text.toList ≠ [])
    (hw : cursor.mode = .operand → ¬Scan.WideSlash source t.offset) :
    ∃ b, cursor.rest = b ++ t.text.toList ++ cursor'.rest ∧
      cursor'.offset = cursor.offset + Text.size (b ++ t.text.toList) ∧
      ∀ {rest'}, Alike t.kind cursor'.rest rest' →
        read source' ⟨cursor.mode, cursor.offset, b ++ t.text.toList ++ rest'⟩ =
          .token t (some ⟨cursor'.mode, cursor'.offset, rest'⟩) := by
  have hcut := cut_of_read hk hread
  have hplace := hcut.place
  have hblank := Lexeme.blank_append cursor.rest
  rw [← hblank] at hk
  rw [Text.suffixAt_add hk, Option.some.injEq] at hplace
  refine ⟨(Lexeme.blank cursor.rest).1, by rw [List.append_assoc, ← hplace, hblank],
    by rw [hcut.stop_eq, Text.size_append, Nat.add_assoc], fun hr => ?_⟩
  rename_i rest'
  obtain ⟨c, l, htext⟩ := List.exists_cons_of_ne_nil ht
  rw [htext, List.cons_append] at hplace
  have hc := isSpace_of_blank hplace
  have hslash : cursor.mode = .operand → c = '/' →
      ∀ d, (l ++ cursor'.rest).head? = some d → d.utf8Size = 1 := by
    rintro hm rfl
    refine Scan.size_of_not_wideSlash (hw hm) ?_
    rw [hcut.offset_eq, Text.suffixAt_add hk, hplace]
  have hemit := hcut.eq_emit cursor'.rest
  rw [← hread, read_skip, hplace, read_cons hc, htext] at hemit
  rw [List.append_assoc, read_blank _ (all_blank _), hcut.eq_emit rest', htext, List.cons_append,
    read_cons hc]
  -- The mode says which marks are operators; a regex is looked for at a slash only.
  cases hm : cursor.mode with
  | operand =>
    rw [hm] at hemit
    exact Scan.operand_again hr (hslash hm) hemit
  | operator =>
    rw [hm] at hemit
    exact Scan.operator_again hr hemit
  | pattern =>
    rw [hm] at hemit
    refine Scan.ite_again hemit (fun _ h => ?_) fun hne h => ?_
    · rw [← List.cons_append] at h ⊢
      exact Scan.regex_again rest' h
    · exact Scan.operand_again hr (fun hc => absurd hc hne) h

/-- **A text is read alike elsewhere**, unless the scanner goes back. -/
theorem read_moved (offset' : Nat)
    (hw : cursor.mode = .operand →
      ¬Scan.WideSlash source (cursor.offset + Text.size (Lexeme.blank cursor.rest).1))
    (hk : Text.suffixAt source cursor.offset = some cursor.rest) :
    read source' { cursor with offset := offset' } =
      (read source cursor).moveTo (offset' + Text.size (Lexeme.blank cursor.rest).1) := by
  rw [read_skip source', read_skip source]
  rw [← Lexeme.blank_append cursor.rest] at hk
  have hplace := Text.suffixAt_add hk
  cases hrest : (Lexeme.blank cursor.rest).2 with
  | nil => rfl
  | cons c cs =>
    have hc := isSpace_of_blank hrest
    have hslash : cursor.mode = .operand → c = '/' →
        ∀ d, cs.head? = some d → d.utf8Size = 1 := by
      rintro hm rfl
      exact Scan.size_of_not_wideSlash (hw hm) (by rw [hplace, hrest])
    rw [read_cons hc, read_cons hc]
    cases hm : cursor.mode with
    | operand => exact (Scan.operand_moveTo (hslash hm)).symm
    | operator => exact Scan.operator_moveTo.symm
    | pattern =>
      refine (Scan.ite_moveTo (fun _ => Scan.regex_moveTo) fun hne => ?_).symm
      exact Scan.operand_moveTo fun hc => absurd hc hne

end Scanner

end PipelineScript

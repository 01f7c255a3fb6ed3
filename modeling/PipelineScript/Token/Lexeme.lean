import PipelineScript.Text.Class

/-!
How far a token reaches.

Each function here takes the text behind the character that opened a token and divides it into the
part that still belongs to the token and the rest; `none` says that the text ends before the token
does. The two parts always make up the text again. What a text closed by marks must look like is
said by `Closed`, without the text that follows: the scans take the beginning that is closed
(`closing_eq_some_iff`, `closingQuotes_eq_some_iff`).
-/
namespace PipelineScript.Lexeme

/-- Puts a character in front of the first part. -/
def keep (c : Char) : List Char × List Char → List Char × List Char
  | (lexeme, rest) => (c :: lexeme, rest)

/-- The leading white space and the rest. -/
def blank (cs : List Char) : List Char × List Char :=
  (cs.takeWhile Text.isSpace, cs.dropWhile Text.isSpace)

/-- The leading digits and the rest. -/
def digits (cs : List Char) : List Char × List Char :=
  (cs.takeWhile Text.isDigit, cs.dropWhile Text.isDigit)

/-- The characters that continue a name and the rest. -/
def name (cs : List Char) : List Char × List Char :=
  (cs.takeWhile Text.isNamePart, cs.dropWhile Text.isNamePart)

/-- Up to and with the first `mark` that no backslash precedes. -/
def closing (mark : Char) : List Char → Option (List Char × List Char)
  | [] => none
  | c :: cs =>
    if c = '\\' then
      match cs with
      | d :: ds =>
        if d = mark then ((closing mark ds).map (keep d)).map (keep c)
        else (closing mark (d :: ds)).map (keep c)
      | [] => none
    else if c = mark then some ([c], cs)
    else (closing mark cs).map (keep c)

/-- Up to and with the quote that ends a string opened by `total` quotes, of which `missing` are
still to come. Any other character starts the count again, except a backslash when one quote is
missing: it leaves the count and hides a quote behind it. -/
def closingQuotes (total : Nat) : Nat → List Char → Option (List Char × List Char)
  | _, [] => none
  | missing, c :: cs =>
    if c = '\\' ∧ missing = 1 then
      match cs with
      | d :: ds =>
        if d = '\'' then ((closingQuotes total 1 ds).map (keep d)).map (keep c)
        else (closingQuotes total 1 (d :: ds)).map (keep c)
      | [] => none
    else if c = '\'' then
      if missing = 1 then some ([c], cs) else (closingQuotes total (missing - 1) cs).map (keep c)
    else (closingQuotes total total cs).map (keep c)

/-- A comment: to the end of the line, its newline, the blanks that open the next line, and so on
as long as the next line goes on with a slash. `margin` says that the scan stands among the blanks
that open a line. -/
def comment (margin : Bool) : List Char → List Char × List Char
  | [] => ([], [])
  | c :: cs =>
    if margin then
      if c = '/' then keep c (comment false cs)
      else if c ≠ '\n' ∧ Text.isSpace c = true then keep c (comment true cs)
      else ([], c :: cs)
    else keep c (comment (c = '\n') cs)

/-! ## Nothing is lost -/

theorem blank_append (cs : List Char) : (blank cs).1 ++ (blank cs).2 = cs :=
  List.takeWhile_append_dropWhile

theorem digits_append (cs : List Char) : (digits cs).1 ++ (digits cs).2 = cs :=
  List.takeWhile_append_dropWhile

theorem name_append (cs : List Char) : (name cs).1 ++ (name cs).2 = cs :=
  List.takeWhile_append_dropWhile

@[simp] theorem keep_fst (c : Char) (p : List Char × List Char) : (keep c p).1 = c :: p.1 := rfl

@[simp] theorem keep_snd (c : Char) (p : List Char × List Char) : (keep c p).2 = p.2 := rfl

theorem comment_append (margin : Bool) (cs : List Char) :
    (comment margin cs).1 ++ (comment margin cs).2 = cs := by
  induction cs generalizing margin with
  | nil => rfl
  | cons c cs ih =>
    rw [comment]
    split
    · split
      · simp [ih]
      · split <;> simp [ih]
    · simp [ih]

/-! ## Where a text closes -/

theorem map_keep_eq_some_iff {c : Char} {lexeme rest : List Char}
    {found : Option (List Char × List Char)} :
    found.map (keep c) = some (lexeme, rest) ↔ ∃ l, lexeme = c :: l ∧ found = some (l, rest) := by
  constructor
  · intro h
    obtain ⟨⟨l, r⟩, rfl, he⟩ := Option.map_eq_some_iff.1 h
    cases he
    exact ⟨l, rfl, rfl⟩
  · rintro ⟨l, rfl, rfl⟩
    rfl

/-- The texts that close: `total` marks in a row are needed, `missing` of them are still to come,
and the text ends with the last one. Where one mark is missing, a backslash hides a mark behind it
and leaves the count alone. -/
inductive Closed (mark : Char) (total : Nat) : Nat → List Char → Prop where
  | hidden {l : List Char} (h : Closed mark total 1 l) : Closed mark total 1 ('\\' :: mark :: l)
  | backslash {d : Char} {l : List Char} (hd : d ≠ mark) (h : Closed mark total 1 (d :: l)) :
      Closed mark total 1 ('\\' :: d :: l)
  | last (hm : mark ≠ '\\') : Closed mark total 1 [mark]
  | counted {missing : Nat} {l : List Char} (hm : missing ≠ 1)
      (h : Closed mark total (missing - 1) l) : Closed mark total missing (mark :: l)
  | plain {missing : Nat} {c : Char} {l : List Char} (hc : c ≠ mark)
      (hb : ¬(c = '\\' ∧ missing = 1)) (h : Closed mark total total l) :
      Closed mark total missing (c :: l)

section

variable {mark c : Char} {total missing : Nat} {cs : List Char}

theorem Closed.exists_cons (h : Closed mark total missing cs) : ∃ d ds, cs = d :: ds := by
  cases h <;> exact ⟨_, _, rfl⟩

theorem Closed.exists_body (h : Closed mark total missing cs) : ∃ body, cs = body ++ [mark] := by
  induction h with
  | hidden _ ih =>
    obtain ⟨body, rfl⟩ := ih
    exact ⟨'\\' :: mark :: body, rfl⟩
  | backslash _ _ ih =>
    obtain ⟨body, hbody⟩ := ih
    exact ⟨'\\' :: body, by rw [hbody, List.cons_append]⟩
  | last _ => exact ⟨[], rfl⟩
  | counted _ _ ih =>
    obtain ⟨body, rfl⟩ := ih
    exact ⟨mark :: body, rfl⟩
  | plain _ _ _ ih =>
    obtain ⟨body, rfl⟩ := ih
    exact ⟨_ :: body, rfl⟩

/-- A text that closes has as many characters as marks were missing. -/
theorem Closed.le_length (h : Closed mark total missing cs) (hm : 1 ≤ missing)
    (ht : missing ≤ total) : missing ≤ cs.length := by
  induction h with
  | hidden _ _ | backslash _ _ _ | last _ => simp
  | counted _ _ ih =>
    have := ih (by omega) (by omega)
    rw [List.length_cons]
    omega
  | plain _ _ _ ih =>
    have := ih (by omega) (by omega)
    rw [List.length_cons]
    omega

theorem closed_hidden_iff :
    Closed mark total 1 ('\\' :: mark :: cs) ↔ Closed mark total 1 cs := by
  refine ⟨fun h => ?_, .hidden⟩
  cases h with
  | hidden h => exact h
  | backslash hd _ => exact absurd rfl hd
  | counted hm _ => exact absurd rfl hm
  | plain _ hb _ => exact absurd ⟨rfl, rfl⟩ hb

theorem closed_backslash_iff (hc : c ≠ mark) :
    Closed mark total 1 ('\\' :: c :: cs) ↔ Closed mark total 1 (c :: cs) := by
  refine ⟨fun h => ?_, .backslash hc⟩
  cases h with
  | hidden _ => exact absurd rfl hc
  | backslash _ h => exact h
  | counted hm _ => exact absurd rfl hm
  | plain _ hb _ => exact absurd ⟨rfl, rfl⟩ hb

theorem closed_last_iff (hm : mark ≠ '\\') : Closed mark total 1 (mark :: cs) ↔ cs = [] := by
  refine ⟨fun h => ?_, fun h => h ▸ .last hm⟩
  cases h with
  | hidden _ | backslash _ _ => exact absurd rfl hm
  | last _ => rfl
  | counted hne _ => exact absurd rfl hne
  | plain hc _ _ => exact absurd rfl hc

theorem closed_counted_iff (hm : missing ≠ 1) :
    Closed mark total missing (mark :: cs) ↔ Closed mark total (missing - 1) cs := by
  refine ⟨fun h => ?_, .counted hm⟩
  cases h with
  | hidden _ | backslash _ _ | last _ => exact absurd rfl hm
  | counted _ h => exact h
  | plain hc _ _ => exact absurd rfl hc

theorem closed_plain_iff (hc : c ≠ mark) (hb : ¬(c = '\\' ∧ missing = 1)) :
    Closed mark total missing (c :: cs) ↔ Closed mark total total cs := by
  refine ⟨fun h => ?_, .plain hc hb⟩
  cases h with
  | hidden _ | backslash _ _ => exact absurd ⟨rfl, rfl⟩ hb
  | last _ | counted _ _ => exact absurd rfl hc
  | plain _ _ h => exact h

/-! ## The scans for what closes -/

theorem closing_cons (hc : c ≠ '\\') :
    closing mark (c :: cs) =
      if c = mark then some ([c], cs) else (closing mark cs).map (keep c) := by
  cases cs <;> simp [closing, hc]

theorem closingQuotes_cons (hc : ¬(c = '\\' ∧ missing = 1)) :
    closingQuotes total missing (c :: cs) =
      if c = '\'' then
        if missing = 1 then some ([c], cs) else (closingQuotes total (missing - 1) cs).map (keep c)
      else (closingQuotes total total cs).map (keep c) := by
  cases cs <;> simp [closingQuotes, hc]

variable {text lexeme rest : List Char}

theorem Closed.closing (h : Closed mark 1 missing text) (hm : missing = 1) (rest : List Char) :
    Lexeme.closing mark (text ++ rest) = some (text, rest) := by
  induction h with
  | hidden _ ih => simp [Lexeme.closing, ih hm, keep]
  | backslash hd _ ih =>
    have ih := ih hm
    rw [List.cons_append] at ih
    simp [Lexeme.closing, hd, ih, keep]
  | last hmark => simp [closing_cons hmark]
  | counted hne => exact absurd hm hne
  | plain hc hb _ ih =>
    rw [List.cons_append, closing_cons fun he => hb ⟨he, hm⟩, if_neg hc, ih rfl]
    rfl

theorem Closed.closingQuotes (h : Closed '\'' total missing text) (rest : List Char) :
    Lexeme.closingQuotes total missing (text ++ rest) = some (text, rest) := by
  induction h with
  | hidden _ ih => simp [Lexeme.closingQuotes, ih, keep]
  | backslash hd _ ih =>
    rw [List.cons_append] at ih
    simp [Lexeme.closingQuotes, hd, ih, keep]
  | last _ => simp [closingQuotes_cons]
  | counted hm _ ih =>
    rw [List.cons_append, closingQuotes_cons (by simp), if_pos rfl, if_neg hm, ih]
    rfl
  | plain hc hb _ ih =>
    rw [List.cons_append, closingQuotes_cons hb, if_neg hc, ih]
    rfl

/-- **Up to and with the mark that closes.** The first part closes, and nothing is lost. -/
theorem closing_eq_some_iff :
    closing mark text = some (lexeme, rest) ↔ text = lexeme ++ rest ∧ Closed mark 1 1 lexeme := by
  refine ⟨fun h => ?_, fun h => h.1 ▸ h.2.closing rfl rest⟩
  fun_induction Lexeme.closing mark text generalizing lexeme with
  | case1 => cases h
  | case2 ds ih =>
    obtain ⟨l₁, rfl, h₁⟩ := map_keep_eq_some_iff.1 h
    obtain ⟨l₂, rfl, h₂⟩ := map_keep_eq_some_iff.1 h₁
    obtain ⟨rfl, hclosed⟩ := ih h₂
    exact ⟨rfl, .hidden hclosed⟩
  | case3 d ds hd ih =>
    obtain ⟨l, rfl, hl⟩ := map_keep_eq_some_iff.1 h
    obtain ⟨heq, hclosed⟩ := ih hl
    obtain ⟨e, es, rfl⟩ := hclosed.exists_cons
    cases heq
    exact ⟨rfl, .backslash hd hclosed⟩
  | case4 => cases h
  | case5 cs hne =>
    cases h
    exact ⟨rfl, .last hne⟩
  | case6 c cs hc hm ih =>
    obtain ⟨l, rfl, hl⟩ := map_keep_eq_some_iff.1 h
    obtain ⟨rfl, hclosed⟩ := ih hl
    exact ⟨rfl, .plain hm (fun he => hc he.1) hclosed⟩

/-- **Up to and with the quotes that close.** The first part closes, and nothing is lost. -/
theorem closingQuotes_eq_some_iff :
    closingQuotes total missing text = some (lexeme, rest) ↔
      text = lexeme ++ rest ∧ Closed '\'' total missing lexeme := by
  refine ⟨fun h => ?_, fun h => h.1 ▸ h.2.closingQuotes rest⟩
  fun_induction Lexeme.closingQuotes total missing text generalizing lexeme with
  | case1 => cases h
  | case2 missing c hc ds ih =>
    obtain ⟨l₁, rfl, h₁⟩ := map_keep_eq_some_iff.1 h
    obtain ⟨l₂, rfl, h₂⟩ := map_keep_eq_some_iff.1 h₁
    obtain ⟨rfl, hclosed⟩ := ih h₂
    obtain ⟨rfl, rfl⟩ := hc
    exact ⟨rfl, .hidden hclosed⟩
  | case3 missing c hc d ds hd ih =>
    obtain ⟨l, rfl, hl⟩ := map_keep_eq_some_iff.1 h
    obtain ⟨heq, hclosed⟩ := ih hl
    obtain ⟨e, es, rfl⟩ := hclosed.exists_cons
    cases heq
    obtain ⟨rfl, rfl⟩ := hc
    exact ⟨rfl, .backslash hd hclosed⟩
  | case4 => cases h
  | case5 cs hc =>
    cases h
    exact ⟨rfl, .last (by decide)⟩
  | case6 missing cs hm hc ih =>
    obtain ⟨l, rfl, hl⟩ := map_keep_eq_some_iff.1 h
    obtain ⟨rfl, hclosed⟩ := ih hl
    exact ⟨rfl, .counted hm hclosed⟩
  | case7 missing c cs hc hq ih =>
    obtain ⟨l, rfl, hl⟩ := map_keep_eq_some_iff.1 h
    obtain ⟨rfl, hclosed⟩ := ih hl
    exact ⟨rfl, .plain hq hc hclosed⟩

theorem closing_append {p : List Char × List Char} (h : closing mark text = some p) :
    p.1 ++ p.2 = text :=
  (closing_eq_some_iff.1 h).1.symm

theorem closingQuotes_append {p : List Char × List Char}
    (h : closingQuotes total missing text = some p) : p.1 ++ p.2 = text :=
  (closingQuotes_eq_some_iff.1 h).1.symm

/-- A text that was closed is closed at the same place whatever follows. -/
theorem closing_again (rest' : List Char) (h : closing mark text = some (lexeme, rest)) :
    closing mark (lexeme ++ rest') = some (lexeme, rest') :=
  closing_eq_some_iff.2 ⟨rfl, (closing_eq_some_iff.1 h).2⟩

theorem closingQuotes_again (rest' : List Char)
    (h : closingQuotes total missing text = some (lexeme, rest)) :
    closingQuotes total missing (lexeme ++ rest') = some (lexeme, rest') :=
  closingQuotes_eq_some_iff.2 ⟨rfl, (closingQuotes_eq_some_iff.1 h).2⟩

/-- One quote closes as any other mark does. -/
theorem closingQuotes_one (text : List Char) : closingQuotes 1 1 text = closing '\'' text := by
  ext ⟨lexeme, rest⟩
  exact closingQuotes_eq_some_iff.trans closing_eq_some_iff.symm

end

end PipelineScript.Lexeme

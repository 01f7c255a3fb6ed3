import PipelineScript.Proofs.Again

/-!
Comments between the tokens of a script.

A line comment that is written between two tokens should leave the other tokens as they are. It does
so in most places, and `TokenStream.signs_insert_comment_iff` says in which: not behind a sign
behind which a regex is looked for, where the two slashes are an empty regex, and not before an
operator that is read only where one may stand, because behind a comment the scanner expects an
operand. In all other places it makes no difference to the other tokens.

The tokens up to the place are read again because a blank follows them, those behind it because the
same text stands there. Both need a scanner that goes forward: a slash before a character of more
than one byte sends it back to what stands before the slash, and that can be the comment.
-/
namespace PipelineScript

/-- A token without its place. -/
def Token.sign (t : Token) : Sign := ⟨t.kind, t.text.toList⟩

/-- The tokens of a stream apart from the comments, without their places. -/
def TokenStream.signs (stream : TokenStream) : List Sign :=
  (stream.tokens.map Token.sign).filter (·.kind != .comment)

/-- Behind a scanner in some mode no token makes it go back: where an operand is expected, no slash
stands before a character of more than one byte. -/
def Scanner.Forward (source : List Char) : ScanMode → List Token → Prop
  | _, [] => True
  | mode, t :: ts =>
    (mode = .operand → ¬Scan.WideSlash source t.offset) ∧ Forward source t.kind.modeAfter ts

namespace Scanner

variable {source source' : List Char} {cursor cursor' : Cursor} {mode : ScanMode} {t : Token}
  {ts us : List Token}

theorem Forward.of_append (h : Forward source mode (ts ++ us)) : Forward source mode ts := by
  induction ts generalizing mode with
  | nil => trivial
  | cons t ts ih => exact ⟨h.1, ih h.2⟩

theorem Forward.behind (h : Forward source mode (ts ++ t :: us)) :
    Forward source t.kind.modeAfter us := by
  induction ts generalizing mode with
  | nil => exact h.2
  | cons u ts ih => exact ih h.2

/-- In a text of characters of one byte the scanner goes forward. -/
theorem forward_of_narrow (h : ∀ c ∈ source, c.utf8Size = 1) : Forward source mode ts := by
  induction ts generalizing mode with
  | nil => trivial
  | cons t ts ih =>
    refine ⟨?_, ih⟩
    rintro - ⟨d, ds, hplace, hwide⟩
    obtain ⟨start, rfl, -⟩ := Text.suffixAt_eq_some_iff.1 hplace
    have := h d (by simp)
    omega

/-! ## One token -/

theorem keeps_of_read (hk : Text.suffixAt source cursor.offset = some cursor.rest)
    (hread : read source cursor = .token t (some cursor')) :
    Text.suffixAt source cursor'.offset = some cursor'.rest := by
  exact (cut_of_read hk hread).keeps

/-- A stream that ends has a first token. -/
theorem exists_read_of_ended (limit : Nat)
    (hk : Text.suffixAt source cursor.offset = some cursor.rest)
    (he : (run limit ⟨source, some cursor⟩).ending = .ended) :
    ∃ n t after, limit = n + 1 ∧ read source cursor = .token t after ∧
      (run (n + 1) ⟨source, some cursor⟩).tokens = t :: (run n ⟨source, after⟩).tokens ∧
      (run n ⟨source, after⟩).ending = .ended := by
  have htoken : ∀ {t after}, next ⟨source, some cursor⟩ = .token t after →
      ∃ n t after, limit = n + 1 ∧ read source cursor = .token t after ∧
        (run (n + 1) ⟨source, some cursor⟩).tokens = t :: (run n ⟨source, after⟩).tokens ∧
        (run n ⟨source, after⟩).ending = .ended := by
    intro t after hnext
    cases limit with
    | zero => rw [run, hnext] at he; cases he
    | succ n =>
      have hrun := run_succ hnext n
      rw [hrun] at he
      exact ⟨n, t, after, rfl, hnext, by rw [hrun], he⟩
  rcases next_cases hk with ⟨t, hnext, -⟩ | ⟨t, cursor', hnext, -⟩ | ⟨hnext, -⟩
  · exact htoken hnext
  · exact htoken hnext
  · rw [run, hnext] at he
    cases he

/-! ## From one place to another -/

/-- The tokens that are read from one place up to another; none of them is empty. -/
inductive Path (source : List Char) : Cursor → List Token → Cursor → Prop where
  | stay (cursor : Cursor) : Path source cursor [] cursor
  | step {cursor cursor' cursor'' : Cursor} {t : Token} {ts : List Token}
      (hread : read source cursor = .token t (some cursor')) (ht : t.text.toList ≠ [])
      (h : Path source cursor' ts cursor'') : Path source cursor (t :: ts) cursor''

theorem Path.run_eq (h : Path source cursor ts cursor') (limit : Nat) :
    run (ts.length + limit) ⟨source, some cursor⟩ =
      ⟨ts ++ (run limit ⟨source, some cursor'⟩).tokens,
        (run limit ⟨source, some cursor'⟩).ending⟩ := by
  induction h with
  | stay => simp
  | @step cursor _ _ t ts hread _ _ ih =>
    have hnext : next ⟨source, some cursor⟩ = .token t (some _) := hread
    rw [List.length_cons, Nat.add_right_comm, run_succ hnext, ih]
    rfl

theorem Path.keeps (h : Path source cursor ts cursor')
    (hk : Text.suffixAt source cursor.offset = some cursor.rest) :
    Text.suffixAt source cursor'.offset = some cursor'.rest := by
  induction h with
  | stay => exact hk
  | step hread _ _ ih => exact ih (keeps_of_read hk hread)

/-- Where the scanner stands behind the last of some tokens. -/
theorem Path.last (h : Path source cursor (ts ++ [t]) cursor')
    (hk : Text.suffixAt source cursor.offset = some cursor.rest) :
    cursor'.mode = t.kind.modeAfter ∧ cursor'.offset = t.offset + Text.size t.text.toList := by
  induction ts generalizing cursor with
  | nil =>
    cases h with
    | step hread _ h =>
      cases h
      have hcut := cut_of_read hk hread
      exact ⟨hcut.mode_eq, by rw [hcut.stop_eq, hcut.offset_eq]⟩
  | cons u ts ih =>
    cases h with
    | step hread _ h => exact ih h (keeps_of_read hk hread)

/-- The way of a scanner to a token of a stream that ends. -/
theorem exists_path (limit : Nat) (hk : Text.suffixAt source cursor.offset = some cursor.rest)
    (he : (run limit ⟨source, some cursor⟩).ending = .ended)
    (h : (run limit ⟨source, some cursor⟩).tokens = ts ++ t :: us) :
    ∃ cursor' n, Path source cursor ts cursor' ∧ limit = ts.length + (n + 1) ∧
      (run (n + 1) ⟨source, some cursor'⟩).tokens = t :: us ∧
      (run (n + 1) ⟨source, some cursor'⟩).ending = .ended := by
  induction ts generalizing cursor limit with
  | nil =>
    obtain ⟨n, -, -, rfl, -⟩ := exists_read_of_ended limit hk he
    exact ⟨cursor, n, .stay cursor, by simp, h, he⟩
  | cons u ts ih =>
    obtain ⟨n, v, after, rfl, hread, htokens, hended⟩ := exists_read_of_ended limit hk he
    rw [htokens] at h
    obtain ⟨rfl, htail⟩ := List.cons.inj h
    cases after with
    | none => simp [run_over] at htail
    | some cursor₁ =>
      obtain ⟨cursor', m, hpath, rfl, hrun⟩ := ih n (keeps_of_read hk hread) hended htail
      refine ⟨cursor', m, .step hread (ne_nil_of_ended _ hk hread hended) hpath, ?_, hrun⟩
      rw [List.length_cons]
      omega

/-- The same way in another text: the tokens are read again if the texts agree up to the end of the
last one and go on alike. -/
theorem Path.again (source' : List Char) (h : Path source cursor ts cursor')
    (hk : Text.suffixAt source cursor.offset = some cursor.rest)
    (hf : Forward source cursor.mode ts) :
    ∃ x, cursor.rest = x ++ cursor'.rest ∧ cursor'.offset = cursor.offset + Text.size x ∧
      (ts ≠ [] → x ≠ []) ∧ ∀ rest', (∀ t, ts.getLast? = some t → Alike t.kind cursor'.rest rest') →
        Path source' { cursor with rest := x ++ rest' } ts { cursor' with rest := rest' } := by
  induction h with
  | stay cursor => exact ⟨[], rfl, rfl, fun h => absurd rfl h, fun rest' _ => .stay _⟩
  | @step cursor cursor₁ cursor₂ t ts hread ht h ih =>
    have hcut := cut_of_read hk hread
    obtain ⟨b, hrest, hoffset, hagain⟩ := read_again hk hread ht hf.1
    obtain ⟨x, hx, hxo, hne, hpath⟩ := ih hcut.keeps (hcut.mode_eq ▸ hf.2)
    refine ⟨b ++ t.text.toList ++ x, by simp [hrest, hx], ?_, ?_, ?_⟩
    · simp only [hxo, hoffset, Text.size_append]
      omega
    · intro _ hnil
      simp [ht] at hnil
    · intro rest' hr
      have hmore : Alike t.kind cursor₁.rest (x ++ rest') := by
        cases ts with
        | nil =>
          cases h
          obtain rfl : x = [] := by simpa using hx.symm
          exact hr t rfl
        | cons u us =>
          obtain ⟨c, cs, rfl⟩ := List.exists_cons_of_ne_nil (hne (by simp))
          exact .inl (by rw [hx]; rfl)
      rw [List.append_assoc]
      refine .step (hagain hmore) ht (hpath rest' fun u hu => hr u ?_)
      rw [List.getLast?_cons, hu]
      rfl

/-- The same text at another place gives the same tokens there. -/
theorem run_moved (source' : List Char) (limit more : Nat)
    (hk : Text.suffixAt source cursor.offset = some cursor.rest)
    (hf : Forward source cursor.mode (run limit ⟨source, some cursor⟩).tokens)
    (he : (run limit ⟨source, some cursor⟩).ending = .ended) (offset' : Nat) :
    (run (limit + more) ⟨source', some { cursor with offset := offset' }⟩).tokens.map Token.sign =
        (run limit ⟨source, some cursor⟩).tokens.map Token.sign ∧
      (run (limit + more) ⟨source', some { cursor with offset := offset' }⟩).ending = .ended := by
  induction limit generalizing cursor offset' with
  | zero =>
    obtain ⟨n, _, _, hlimit, -⟩ := exists_read_of_ended 0 hk he
    cases hlimit
  | succ limit ih =>
    obtain ⟨n, t, after, hlimit, hread, htokens, hended⟩ := exists_read_of_ended _ hk he
    cases hlimit
    rw [htokens] at hf ⊢
    have hoffset := offset_of_read hk hread
    have hmoved : next ⟨source', some { cursor with offset := offset' }⟩ =
        (Scan.token t after).moveTo (offset' + Text.size (Lexeme.blank cursor.rest).1) := by
      rw [← hread]
      exact read_moved offset' (hoffset ▸ hf.1) hk
    rw [Scan.moveTo] at hmoved
    rw [Nat.add_right_comm, run_succ hmoved]
    cases after with
    | none => simp [Token.sign, run_over]
    | some cursor₁ =>
      have hcut := cut_of_read hk hread
      obtain ⟨hrest, hlast⟩ := ih hcut.keeps (hcut.mode_eq ▸ hf.2) hended
        (offset' + Text.size (Lexeme.blank cursor.rest).1 + Text.size t.text.toList)
      exact ⟨congrArg (t.sign :: ·) hrest, hlast⟩

end Scanner

/-! ## The comment -/

/-- A line comment as it is written behind something. -/
def lineComment (text : List Char) : List Char := [' ', '/', '/'] ++ (text ++ ['\n'])

/-- A comment takes some of the white space behind its line, and nothing more unless a slash
follows. -/
theorem Lexeme.comment_margin {b w : List Char} (hb : ∀ c ∈ b, Text.isSpace c = true)
    (hw : ∀ c, w.head? = some c → Text.isSpace c = false ∧ c ≠ '/') :
    ∃ b₁ b₂, b = b₁ ++ b₂ ∧ comment true (b ++ w) = (b₁, b₂ ++ w) := by
  induction b with
  | nil =>
    refine ⟨[], [], rfl, ?_⟩
    cases w with
    | nil => rfl
    | cons c cs =>
      obtain ⟨hc, hslash⟩ := hw c rfl
      simp [comment, hslash, hc]
  | cons c cs ih =>
    have hc := hb c (by simp)
    by_cases hline : c = '\n'
    · subst hline
      exact ⟨[], '\n' :: cs, rfl, by simp [comment]⟩
    · have hslash : c ≠ '/' := by
        rintro rfl
        exact absurd hc (by decide)
      obtain ⟨b₁, b₂, rfl, hcomment⟩ := ih fun d hd => hb d (by simp [hd])
      refine ⟨c :: b₁, b₂, rfl, ?_⟩
      rw [List.cons_append, comment, if_pos rfl, if_neg hslash, if_pos ⟨hline, hc⟩, hcomment]
      rfl

namespace Scanner

variable {source source' : List Char} {cursor : Cursor} {mode : ScanMode} {gap b w text : List Char}

theorem all_isSpace_snoc (h : ∀ c ∈ gap, Text.isSpace c = true) :
    ∀ c ∈ gap ++ [' '], Text.isSpace c = true := by
  intro c hc
  rcases List.mem_append.1 hc with hc | hc
  · exact h c hc
  · obtain rfl := List.mem_singleton.1 hc
    decide

/-- Where no regex is looked for, the comment is read, and the scanner expects an operand behind
it. -/
theorem read_lineComment (source : List Char) (hm : mode ≠ .pattern) (htext : '\n' ∉ text)
    (hgap : ∀ c ∈ gap, Text.isSpace c = true) (hb : ∀ c ∈ b, Text.isSpace c = true)
    (hw : ∀ c, w.head? = some c → Text.isSpace c = false ∧ c ≠ '/') (offset : Nat) :
    ∃ t offset' b', t.kind = .comment ∧ (∀ c ∈ b', Text.isSpace c = true) ∧
      read source ⟨mode, offset, gap ++ (lineComment text ++ (b ++ w))⟩ =
        .token t (some ⟨.operand, offset', b' ++ w⟩) := by
  obtain ⟨b₁, b₂, rfl, hcomment⟩ := Lexeme.comment_margin hb hw
  have hline := Sign.comment_line htext (b₁ ++ b₂ ++ w)
  rw [hcomment] at hline
  have hfits : Sign.Fits ⟨.comment, '/' :: '/' :: (text ++ '\n' :: b₁)⟩ mode (b₂ ++ w) :=
    Sign.fits_comment hm (by simpa using hline)
  have hsplit : gap ++ (lineComment text ++ (b₁ ++ b₂ ++ w)) =
      (gap ++ [' ']) ++ (('/' :: '/' :: (text ++ '\n' :: b₁)) ++ (b₂ ++ w)) := by
    simp [lineComment]
  have hread : read source ⟨mode, offset, gap ++ (lineComment text ++ (b₁ ++ b₂ ++ w))⟩ =
      Scan.emit .comment (offset + Text.size (gap ++ [' '])) ('/' :: '/' :: (text ++ '\n' :: b₁))
        (b₂ ++ w) .operand := by
    rw [hsplit, read_blank _ (all_isSpace_snoc hgap)]
    exact hfits source _
  exact ⟨_, _, b₂, rfl, fun c hc => hb c (by simp [hc]), hread⟩

/-- Where a regex is looked for, the two slashes are an empty one. -/
theorem read_lineComment_pattern (source : List Char)
    (hgap : ∀ c ∈ gap, Text.isSpace c = true) (offset : Nat) (text rest : List Char) :
    ∃ t next, t.sign = ⟨.regex, ['/', '/']⟩ ∧
      read source ⟨.pattern, offset, gap ++ (lineComment text ++ rest)⟩ = .token t next := by
  have hfits : Sign.Fits ⟨.regex, ['/', '/']⟩ .pattern (text ++ '\n' :: rest) :=
    Sign.fits_regex (show Sign.Closes '/' [] by decide)
  have hsplit : gap ++ (lineComment text ++ rest) =
      (gap ++ [' ']) ++ (['/', '/'] ++ (text ++ '\n' :: rest)) := by
    simp [lineComment]
  have hread : read source ⟨.pattern, offset, gap ++ (lineComment text ++ rest)⟩ =
      Scan.emit .regex (offset + Text.size (gap ++ [' '])) ['/', '/'] (text ++ '\n' :: rest)
        .operand := by
    rw [hsplit, read_blank _ (all_isSpace_snoc hgap)]
    exact hfits source _
  exact ⟨_, _, by simp [Token.sign], hread⟩

/-- A text that does not begin with a slash is read where an operand is expected as it is read in
another mode, unless it begins with an operator that is read only there. -/
theorem read_operand (source source' : List Char) {c : Char} {cs : List Char}
    (hc : Text.isSpace c = false) (hslash : c ≠ '/')
    (hm : mode ≠ .pattern) (offset offset' : Nat) :
    (read source' ⟨.operand, offset', c :: cs⟩).isPlain = true ∧
      (read source' ⟨.operand, offset', c :: cs⟩ =
          (read source ⟨mode, offset, c :: cs⟩).moveTo offset' ∨
        mode = .operator ∧ (read source ⟨mode, offset, c :: cs⟩).isPlain = false) := by
  have hmoved : Scan.operand source' offset' c cs =
      (Scan.operand source offset c cs).moveTo offset' :=
    (Scan.operand_moveTo fun h => absurd h hslash).symm
  rw [read_cons hc, read_cons hc]
  refine ⟨Scan.isPlain_operand hslash, ?_⟩
  cases mode with
  | operand => exact .inl hmoved
  | pattern => exact absurd rfl hm
  | operator =>
    have heq : Scan.operator source offset c cs = Scan.operand source offset c cs ∨
        (Scan.operator source offset c cs).isInfix = true := Scan.operator_eq hslash
    rcases heq with h | h
    · exact .inl (by rw [hmoved]; simp only [h])
    · exact .inr ⟨rfl, Scan.isPlain_of_isInfix h⟩

end Scanner

/-! ## The tokens on both sides -/

theorem Text.exists_of_size_le {xs ys start rest : List Char} (h : start ++ rest = xs ++ ys)
    (hsize : size xs ≤ size start) : ∃ gap, start = xs ++ gap ∧ ys = gap ++ rest := by
  rcases List.append_eq_append_iff.1 h with ⟨more, rfl, rfl⟩ | ⟨gap, rfl, rfl⟩
  · -- What is behind the beginning takes no byte.
    rw [size_append] at hsize
    obtain rfl : more = [] := Decidable.byContradiction fun hmore => by
      have hpos := size_pos hmore
      omega
    exact ⟨[], by simp, by simp⟩
  · exact ⟨gap, rfl, rfl⟩

namespace Scanner

variable {source source' : List Char} {cursor : Cursor} {gap b w text : List Char} {u : Token}
  {us : List Token} {limit : Nat}

theorem signs_of_next {s : Scanner} {t : Token} {after : Option Cursor}
    (hs : s.next = .token t after)
    (limit : Nat) :
    (run (limit + 1) s).signs =
      if t.kind = .comment then (run limit ⟨s.source, after⟩).signs
      else t.sign :: (run limit ⟨s.source, after⟩).signs := by
  rw [run_succ hs]
  by_cases h : t.kind = .comment <;> simp [TokenStream.signs, Token.sign, h]

/-- A scanner stands before white space that a place divides into `gap` and `b`. What stands behind
it does not begin with a slash. -/
structure Gap (source : List Char) (cursor : Cursor) (gap b w : List Char) : Prop where
  keeps : Text.suffixAt source cursor.offset = some cursor.rest
  rest_eq : cursor.rest = gap ++ (b ++ w)
  blank_before : ∀ c ∈ gap, Text.isSpace c = true
  blank_behind : ∀ c ∈ b, Text.isSpace c = true
  head : ∀ c, w.head? = some c → Text.isSpace c = false ∧ c ≠ '/'

/-- The scanner at the same place with a comment there. -/
def commented (cursor : Cursor) (gap text rest : List Char) : Cursor :=
  { cursor with rest := gap ++ (lineComment text ++ rest) }

theorem Gap.read_eq (h : Gap source cursor gap b w) :
    read source cursor =
      read source ⟨cursor.mode, cursor.offset + Text.size (gap ++ b), w⟩ := by
  have hblank : ∀ c ∈ gap ++ b, Text.isSpace c = true := by
    intro c hc
    rcases List.mem_append.1 hc with hc | hc
    · exact h.blank_before c hc
    · exact h.blank_behind c hc
  rw [← read_blank _ hblank, List.append_assoc, ← h.rest_eq]

/-- Where no regex is looked for, a stream with the comment gives the other tokens from where an
operand is expected. -/
theorem Gap.run_commented (h : Gap source cursor gap b w) (hm : cursor.mode ≠ .pattern)
    (htext : '\n' ∉ text) (source' : List Char) :
    ∃ offset b', (∀ c ∈ b', Text.isSpace c = true) ∧ ∀ limit,
      (run (limit + 1) ⟨source', some (commented cursor gap text (b ++ w))⟩).signs =
          (run limit ⟨source', some ⟨.operand, offset, b' ++ w⟩⟩).signs ∧
        (run (limit + 1) ⟨source', some (commented cursor gap text (b ++ w))⟩).ending =
          (run limit ⟨source', some ⟨.operand, offset, b' ++ w⟩⟩).ending := by
  obtain ⟨t, offset, b', ht, hb', hread⟩ :=
    read_lineComment source' hm htext h.blank_before h.blank_behind h.head cursor.offset
  have hnext : next ⟨source', some (commented cursor gap text (b ++ w))⟩ =
      .token t (some ⟨.operand, offset, b' ++ w⟩) := hread
  refine ⟨offset, b', hb', fun limit => ⟨(signs_of_next hnext limit).trans (if_pos ht), ?_⟩⟩
  have hrun := congrArg TokenStream.ending (run_succ hnext limit)
  exact hrun

/-- Behind the comment the other tokens are read as without it. -/
theorem Gap.signs_commented (h : Gap source cursor gap b w)
    (htokens : (run (limit + 1) ⟨source, some cursor⟩).tokens = u :: us)
    (he : (run (limit + 1) ⟨source, some cursor⟩).ending = .ended)
    (hf : Forward source cursor.mode (u :: us)) (hu : u.kind ≠ .comment) (htext : '\n' ∉ text)
    (hm : cursor.mode ≠ .pattern) (hi : cursor.mode = .operator → u.kind.isInfix = false)
    (source' : List Char) (more : Nat) :
    (run (limit + more + 2) ⟨source', some (commented cursor gap text (b ++ w))⟩).signs =
        (run (limit + 1) ⟨source, some cursor⟩).signs ∧
      (run (limit + more + 2) ⟨source', some (commented cursor gap text (b ++ w))⟩).ending =
        .ended := by
  obtain ⟨offset', b', hb', hrun⟩ := h.run_commented hm htext source'
  rw [(hrun _).1, (hrun _).2]
  cases hnext : next ⟨source, some cursor⟩ with
  | ended => rw [run, hnext] at htokens; simp at htokens
  | lost => rw [run, hnext] at htokens; simp at htokens
  | token v after =>
    have hread : read source cursor = .token v after := hnext
    rw [run_succ hnext] at htokens he
    obtain ⟨rfl, rfl⟩ := List.cons.inj htokens
    -- Behind white space the same text is read on both sides.
    have hsame : read source' ⟨.operand, offset', b' ++ w⟩ =
        (Scan.token v after).moveTo (offset' + Text.size b') := by
      rw [read_blank _ hb', ← hread, h.read_eq]
      cases w with
      | nil => rfl
      | cons c cs =>
        obtain ⟨hc, hslash⟩ := h.head c rfl
        refine (read_operand source source' hc hslash hm _ _).2.resolve_right ?_
        rintro ⟨hmode, hplain⟩
        rw [← h.read_eq, hread] at hplain
        simp [Scan.isPlain, hi hmode, hu] at hplain
    have hnext' : next ⟨source', some ⟨.operand, offset', b' ++ w⟩⟩ =
        (Scan.token v after).moveTo (offset' + Text.size b') := hsame
    rw [Scan.moveTo] at hnext'
    rw [signs_of_next hnext', run_succ hnext', signs_of_next hnext]
    simp only [hu, if_false]
    cases after with
    | none => simp [run_over, Token.sign]
    | some cursor₁ =>
      have hcut := cut_of_read h.keeps hread
      obtain ⟨htail, hended⟩ := run_moved source' limit more hcut.keeps
        (hcut.mode_eq ▸ hf.2) he (offset' + Text.size b' + Text.size v.text.toList)
      refine ⟨congrArg (v.sign :: ·) ?_, hended⟩
      exact congrArg (List.filter (·.kind != .comment)) htail

theorem signs_of_tokens {stream : TokenStream} (h : stream.tokens = u :: us)
    (hu : u.kind ≠ .comment) :
    stream.signs = u.sign :: (us.map Token.sign).filter (·.kind != .comment) := by
  simp [TokenStream.signs, h, Token.sign, hu]

/-- An operator that is read only where one may stand is not read behind the comment. -/
theorem Gap.signs_commented_ne (h : Gap source cursor gap b w)
    (htokens : (run (limit + 1) ⟨source, some cursor⟩).tokens = u :: us) (hu : u.kind ≠ .comment)
    (htext : '\n' ∉ text) (hm : cursor.mode ≠ .pattern) (hi : u.kind.isInfix = true)
    (source' : List Char) (more : Nat) :
    (run (more + 2) ⟨source', some (commented cursor gap text (b ++ w))⟩).signs ≠
      (run (limit + 1) ⟨source, some cursor⟩).signs := by
  obtain ⟨offset', b', hb', hrun⟩ := h.run_commented hm htext source'
  rw [(hrun _).1]
  rw [signs_of_tokens htokens hu]
  cases hnext : next ⟨source', some ⟨.operand, offset', b' ++ w⟩⟩ with
  | ended => rw [run, hnext]; simp [TokenStream.signs]
  | lost => rw [run, hnext]; simp [TokenStream.signs]
  | token v after =>
    have hread : read source' ⟨.operand, offset', b' ++ w⟩ = .token v after := hnext
    have hplain : (Scan.token v after).isPlain = true := by
      rw [← hread, read_blank _ hb']
      cases w with
      | nil => rfl
      | cons c cs =>
        obtain ⟨hc, hslash⟩ := h.head c rfl
        exact (read_operand source source' hc hslash hm 0 _).1
    simp only [Scan.isPlain, Bool.and_eq_true, Bool.not_eq_true', bne_iff_ne, ne_eq] at hplain
    rw [signs_of_next hnext, if_neg hplain.2]
    intro heq
    have hkind : v.kind = u.kind := congrArg Sign.kind (List.cons.inj heq).1
    rw [hkind, hi] at hplain
    cases hplain.1

/-- Where a regex is looked for, the stream goes on with an empty one. -/
theorem signs_commented_pattern (hgap : ∀ c ∈ gap, Text.isSpace c = true)
    (hm : cursor.mode = .pattern) (source' text rest : List Char) (more : Nat) :
    ∃ ss, (run (more + 1) ⟨source', some (commented cursor gap text rest)⟩).signs =
      ⟨.regex, ['/', '/']⟩ :: ss := by
  obtain ⟨t, next', hsign, hread⟩ :=
    read_lineComment_pattern source' hgap cursor.offset text rest
  rw [← hm] at hread
  have hnext : next ⟨source', some (commented cursor gap text rest)⟩ = .token t next' := hread
  have hk : t.kind ≠ .comment := by
    rw [show t.kind = .regex from congrArg Sign.kind hsign]
    decide
  exact ⟨_, by rw [signs_of_next hnext, if_neg hk, hsign]⟩

end Scanner

namespace Scanner

variable {source start rest : List Char} {cursor : Cursor} {u : Token} {us : List Token}
  {limit : Nat}

/-- A place in the white space before a token that does not begin with a slash. -/
theorem exists_gap (hk : Text.suffixAt source cursor.offset = some cursor.rest)
    (h : (run (limit + 1) ⟨source, some cursor⟩).tokens = u :: us)
    (he : (run (limit + 1) ⟨source, some cursor⟩).ending = .ended) (hu : u.kind ≠ .error)
    (hslash : u.text.toList.head? ≠ some '/') (hsource : source = start ++ rest)
    (hstart : cursor.offset ≤ Text.size start) (hrest : Text.size start ≤ u.offset) :
    ∃ x gap b w, start = x ++ gap ∧ rest = b ++ w ∧ source = x ++ cursor.rest ∧
      Gap source cursor gap b w := by
  obtain ⟨n, v, after, hlimit, hread, htokens, hended⟩ := exists_read_of_ended _ hk he
  obtain rfl := Nat.succ.inj hlimit
  rw [htokens] at h
  obtain ⟨rfl, -⟩ := List.cons.inj h.symm
  have hoffset := offset_of_read hk hread
  have hblank := Lexeme.blank_append cursor.rest
  obtain ⟨x, hx, hxsize⟩ := Text.suffixAt_eq_some_iff.1 hk
  obtain ⟨gap, rfl, hgap⟩ := Text.exists_of_size_le (hsource.symm.trans hx) (by omega)
  simp only [Text.size_append] at hrest
  obtain ⟨b, hb, rfl⟩ := Text.exists_of_size_le (hblank.trans hgap) (by omega)
  refine ⟨x, gap, b, _, rfl, rfl, hx, hk, hgap, ?_, ?_, ?_⟩
  · exact fun c hc => all_blank cursor.rest c (by rw [hb]; simp [hc])
  · exact fun c hc => all_blank cursor.rest c (by rw [hb]; simp [hc])
  · intro c hc
    obtain ⟨cs, hcs⟩ := List.head?_eq_some_iff.1 hc
    refine ⟨isSpace_of_blank hcs, ?_⟩
    rintro rfl
    have hplace := Text.suffixAt_add (hblank.symm ▸ hk)
    cases after with
    | none =>
      obtain hk | ⟨-, -, hnil⟩ := (stops_of_read hk hread).kind_eq
      · exact hu hk
      · rw [hplace, hcs] at hnil
        cases hnil
    | some cursor₁ =>
      have hcut := cut_of_read hk hread
      have hne : u.text.toList ≠ [] := ne_nil_of_ended limit hk hread hended
      obtain ⟨d, ds, hd⟩ := List.exists_cons_of_ne_nil hne
      have htext := hcut.place
      rw [hplace, hcs, hd, Option.some.injEq] at htext
      exact hslash (by rw [hd, ← (List.cons.inj htext).1]; rfl)

end Scanner

namespace TokenStream

open Scanner

variable {start rest text : List Char} {ts us : List Token} {t u : Token}

theorem signs_append (limit : Nat) {source : List Char} {cursor cursor' : Cursor}
    (h : Path source cursor ts cursor') :
    (run (ts.length + limit) ⟨source, some cursor⟩).signs =
      (ts.map Token.sign).filter (·.kind != .comment) ++
        (run limit ⟨source, some cursor'⟩).signs := by
  simp [signs, h.run_eq]

theorem size_lineComment (text : List Char) :
    Text.size (lineComment text) = Text.size text + 4 := by
  have hopen : Text.size [' ', '/', '/'] = 3 := by decide
  have hclose : Text.size ['\n'] = 1 := by decide
  simp only [lineComment, Text.size_append, hopen, hclose]
  omega

/-- A script is scanned up to the white space before `u`, and with a comment there it is scanned in
the same way up to the comment. -/
theorem exists_parting (text : List Char)
    (htokens : (ofSource (start ++ rest)).tokens = ts ++ t :: u :: us)
    (hended : (ofSource (start ++ rest)).ending = .ended)
    (hforward : Forward (start ++ rest) .operand (ofSource (start ++ rest)).tokens)
    (ht : t.kind ≠ .comment) (he : u.kind ≠ .error)
    (hstart : t.offset + Text.size t.text.toList ≤ Text.size start)
    (hrest : Text.size start ≤ u.offset) (hslash : u.text.toList.head? ≠ some '/')
    {source source' : List Char} (hsource : source = start ++ rest)
    (hsource' : source' = start ++ (lineComment text ++ rest)) :
    ∃ cursor gap b w limit more, Gap source cursor gap b w ∧
      cursor.mode = t.kind.modeAfter ∧ Forward source cursor.mode (u :: us) ∧
      (run (limit + 1) ⟨source, some cursor⟩).tokens = u :: us ∧
      (run (limit + 1) ⟨source, some cursor⟩).ending = .ended ∧
      (∃ before, (ofSource source).signs = before ++ (run (limit + 1) ⟨source, some cursor⟩).signs ∧
        (ofSource source').signs =
          before ++
            (run (limit + more + 2) ⟨source', some (commented cursor gap text (b ++ w))⟩).signs) ∧
      (ofSource source').ending =
        (run (limit + more + 2) ⟨source', some (commented cursor gap text (b ++ w))⟩).ending := by
  subst hsource
  have hk : Text.suffixAt (start ++ rest) 0 = some (start ++ rest) :=
    Text.suffixAt_size_append [] (start ++ rest)
  have hsplit : (ofSource (start ++ rest)).tokens = (ts ++ [t]) ++ u :: us := by simp [htokens]
  obtain ⟨cursor, limit, hpath, hlimit, hrun, hended'⟩ := exists_path _ hk hended hsplit
  obtain ⟨hmode, hoffset⟩ := hpath.last hk
  obtain ⟨x, gap, b, w, rfl, rfl, hx, hgap⟩ :=
    exists_gap (hpath.keeps hk) hrun hended' he hslash rfl (by omega) hrest
  rw [htokens] at hforward
  have hfbefore : Forward (x ++ gap ++ (b ++ w)) .operand (ts ++ [t]) := by
    rw [show ts ++ t :: u :: us = (ts ++ [t]) ++ u :: us by simp] at hforward
    exact hforward.of_append
  -- The same tokens are read up to the comment.
  obtain ⟨x', hx', -, -, hagain⟩ := hpath.again source' hk hfbefore
  obtain rfl : x = x' := List.append_cancel_right (hx.symm.trans hx')
  have hpath' : Path source' ⟨.operand, 0, source'⟩ (ts ++ [t])
      (commented cursor gap text (b ++ w)) := by
    have halike : Alike t.kind cursor.rest (gap ++ (lineComment text ++ (b ++ w))) := by
      rw [hgap.rest_eq]
      cases gap with
      | nil => exact .inr ⟨ht, rfl⟩
      | cons c cs => exact .inl rfl
    have hpath' := hagain (gap ++ (lineComment text ++ (b ++ w))) fun t' ht' => by
      obtain rfl : t = t' := by simpa using ht'
      exact halike
    simpa [hsource', commented] using hpath'
  -- The comment makes the text longer, so the second scan has steps to spare.
  have hlimit' : Text.size source' + 1 =
      (ts ++ [t]).length + (limit + (Text.size text + 3) + 2) := by
    rw [hsource']
    simp only [Text.size_append, size_lineComment] at hlimit ⊢
    omega
  refine ⟨cursor, gap, b, w, limit, Text.size text + 3, hgap, hmode, hmode ▸ hforward.behind, hrun,
    hended', ⟨((ts ++ [t]).map Token.sign).filter (·.kind != .comment), ?_, ?_⟩, ?_⟩
  · rw [ofSource, Scanner.ofSource, hlimit, signs_append _ hpath]
  · rw [ofSource, Scanner.ofSource, hlimit', signs_append _ hpath']
  · rw [ofSource, Scanner.ofSource, hlimit', hpath'.run_eq]

/-- **Where a line comment between two tokens makes no difference to the others**: everywhere but
behind a sign behind which a regex is looked for, and between an operand and an operator that is
read only there. The scanner has to go forward, and the second token must not begin with a slash,
which would be a part of the comment. -/
theorem signs_insert_comment_iff
    (htokens : (ofSource (start ++ rest)).tokens = ts ++ t :: u :: us)
    (hended : (ofSource (start ++ rest)).ending = .ended)
    (hforward : Forward (start ++ rest) .operand (ofSource (start ++ rest)).tokens)
    (ht : t.kind ≠ .comment) (hu : u.kind ≠ .comment) (he : u.kind ≠ .error)
    (hstart : t.offset + Text.size t.text.toList ≤ Text.size start)
    (hrest : Text.size start ≤ u.offset) (hslash : u.text.toList.head? ≠ some '/')
    (htext : '\n' ∉ text) :
    ((ofSource (start ++ (lineComment text ++ rest))).signs = (ofSource (start ++ rest)).signs ↔
        t.kind.modeAfter ≠ .pattern ∧
          (t.kind.modeAfter = .operator → u.kind.isInfix = false)) ∧
      (t.kind.modeAfter ≠ .pattern → (t.kind.modeAfter = .operator → u.kind.isInfix = false) →
        (ofSource (start ++ (lineComment text ++ rest))).ending = .ended) := by
  obtain ⟨cursor, gap, b, w, limit, more, hgap, hmode, hfbehind, hrun, hended', ⟨before, hs, hs'⟩,
    hending⟩ :=
    exists_parting text htokens hended hforward ht he hstart hrest hslash rfl rfl
  have hsame := fun hm hi => hgap.signs_commented hrun hended' hfbehind hu htext (hmode ▸ hm)
    (hmode ▸ hi) (start ++ (lineComment text ++ rest)) more
  rw [hs, hs', List.append_cancel_left_eq, hending]
  refine ⟨⟨fun heq => ⟨fun hm => ?_, fun hm => ?_⟩, fun h => (hsame h.1 h.2).1⟩,
    fun hm hi => (hsame hm hi).2⟩
  · -- The slashes of the comment are an empty regex.
    obtain ⟨ss, hss⟩ := signs_commented_pattern hgap.blank_before (hmode.trans hm)
      (start ++ (lineComment text ++ rest)) text (b ++ w) (limit + more + 1)
    rw [hss, signs_of_tokens hrun hu] at heq
    have hu' : u.text.toList = ['/', '/'] := congrArg Sign.text (List.cons.inj heq).1.symm
    exact hslash (by rw [hu']; rfl)
  · -- Behind the comment an operand is expected.
    have hpattern : cursor.mode ≠ .pattern := by
      rw [hmode, hm]
      decide
    cases hi : u.kind.isInfix with
    | false => rfl
    | true => exact absurd heq (hgap.signs_commented_ne hrun hu htext hpattern hi _ _)

/-- Between an operand and a word of logic. -/
theorem signs_insert_comment_and :
    (ofSource ("a ".toList ++ (lineComment "why".toList ++ "AND b".toList))).signs =
        (ofSource "a AND b".toList).signs ∧
      (ofSource ("a ".toList ++ (lineComment "why".toList ++ "AND b".toList))).ending =
        .ended := by
  have htokens : (ofSource ("a ".toList ++ "AND b".toList)).tokens =
      [] ++ ⟨.ident, 0, "a"⟩ :: ⟨.binary .and, 2, "AND"⟩ ::
        [⟨.ident, 6, "b"⟩, ⟨.eof, 7, ""⟩] := by decide +kernel
  have hnarrow : ∀ c ∈ "a ".toList ++ "AND b".toList, c.utf8Size = 1 := fun c hc =>
    of_decide_eq_true
      (List.all_eq_true.1 (by decide : ("a ".toList ++ "AND b".toList).all
        fun c => decide (c.utf8Size = 1)) c hc)
  have h := signs_insert_comment_iff htokens (by decide +kernel) (forward_of_narrow hnarrow)
    (by decide) (by decide) (by decide) (by decide) (by decide) (by decide)
    (show '\n' ∉ "why".toList by decide)
  exact ⟨h.1.2 ⟨by decide, fun _ => rfl⟩, h.2 (by decide) fun _ => rfl⟩

/-- Between an operand and `*` the comment makes a star of the operator. -/
theorem signs_insert_comment_multiply :
    (tokenize "a * b").tokens =
        [⟨.ident, 0, "a"⟩, ⟨.binary .multiply, 2, "*"⟩, ⟨.ident, 4, "b"⟩, ⟨.eof, 5, ""⟩] ∧
      (tokenize "a //c\n * b").tokens =
        [⟨.ident, 0, "a"⟩, ⟨.comment, 2, "//c\n "⟩, ⟨.star, 7, "*"⟩, ⟨.ident, 9, "b"⟩,
          ⟨.eof, 10, ""⟩] ∧
      (tokenize "a //c\n * b").signs ≠ (tokenize "a * b").signs := by
  decide +kernel

end TokenStream

end PipelineScript

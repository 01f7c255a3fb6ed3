import PipelineScript.Proofs.Tokens

/-!
How a stream of tokens goes on for ever.

Whoever asks a scanner for one token after the other gets some tokens first, and then one of three
things for ever: nothing, because the last token has been read; the same empty regex, because the
scanner stands still; or no answer, because it is lost. `Scanner.exists_fate` says that there is no
fourth way, that the tokens before that are at most one more than the text has bytes, and that only
a slash before a character of more than one byte keeps a stream from ending.

A token that is cut off a text and is not empty leaves a shorter text behind, so the proof is by
induction on the bytes that are left. An empty token is a regex that was found before the place
where the scanner stands; it leaves the scanner where it was and in the mode in which it was found.
-/
namespace PipelineScript

/-- What a scanner goes on giving behind some tokens. -/
inductive Fate where
  /-- Nothing. -/
  | ends
  /-- The same token again and again. -/
  | stands (token : Token)
  /-- It is lost with the next step. -/
  | lost
deriving DecidableEq, Repr

/-- The results of a number of steps. -/
def Fate.results : Fate → Nat → Option (List (Option Token))
  | .ends, n => some (List.replicate n none)
  | .stands token, n => some (List.replicate n (some token))
  | .lost, n => if n = 0 then some [] else none

@[simp] theorem Fate.results_zero (fate : Fate) : fate.results 0 = some [] := by
  cases fate <;> rfl

namespace Scanner

variable {source : List Char} {cursor cursor' : Cursor} {t : Token} {ts : List Token} {fate : Fate}

/-- However often `next` is called, the results are those of `tokens` and, when these are used up,
those of `fate`. -/
def Behaves (s : Scanner) (tokens : List Token) (fate : Fate) : Prop :=
  ∀ n, s.steps n =
    (fate.results (n - tokens.length)).map fun behind => (tokens.map some).take n ++ behind

theorem Behaves.cons {s : Scanner} {after : Option Cursor} (hs : s.next = .token t after)
    (h : Behaves ⟨s.source, after⟩ ts fate) : s.Behaves (t :: ts) fate := by
  intro n
  cases n with
  | zero => simp [steps]
  | succ n =>
    simp only [steps, hs, h n, List.length_cons, Nat.add_sub_add_right, Option.map_map]
    rfl

theorem behaves_ended (source : List Char) : Behaves ⟨source, none⟩ [] .ends := by
  intro n
  induction n with
  | zero => simp [steps]
  | succ n ih =>
    simp only [steps, next, ih]
    simp [Fate.results, List.replicate_succ]

theorem behaves_lost {s : Scanner} (hs : s.next = .lost) : s.Behaves [] .lost := by
  intro n
  cases n with
  | zero => simp [steps]
  | succ n => simp [steps, hs, Fate.results]

/-- A scanner that gives a token and stands where it stood gives that token for ever. -/
theorem behaves_stands {s : Scanner} (hs : s.next = .token t s.cursor) :
    s.Behaves [] (.stands t) := by
  intro n
  induction n with
  | zero => simp [steps]
  | succ n ih =>
    simp only [steps, hs, ih]
    simp [Fate.results, List.replicate_succ]

/-- Where a stream that ends begins, the scanner reads the first of its tokens. -/
theorem Behaves.exists_read (h : Behaves ⟨source, some cursor⟩ ts .ends)
    (hk : Text.suffixAt source cursor.offset = some cursor.rest) :
    ∃ t after behind, ts = t :: behind ∧ read source cursor = .token t after ∧
      Behaves ⟨source, after⟩ behind .ends := by
  have hone := h 1
  -- Asked once, the scanner gives the first token; asked once more often, it gives the rest.
  have htoken : ∀ {t after}, next ⟨source, some cursor⟩ = .token t after →
      ∃ t after behind, ts = t :: behind ∧ read source cursor = .token t after ∧
        Behaves ⟨source, after⟩ behind .ends := by
    intro t after hnext
    cases ts with
    | nil => simp [steps, hnext, Fate.results] at hone
    | cons u behind =>
      obtain rfl : t = u := by simpa [steps, hnext, Fate.results] using hone
      refine ⟨t, after, behind, rfl, hnext, fun n => ?_⟩
      have hn := h (n + 1)
      simp only [steps, hnext, Fate.results, Option.map_some, List.length_cons,
        Nat.add_sub_add_right, List.map_cons, List.take_succ_cons, List.cons_append,
        Option.map_eq_some_iff, List.cons.injEq, true_and] at hn ⊢
      obtain ⟨results, hresults, rfl⟩ := hn
      exact hresults
  rcases next_cases hk with ⟨t, hnext, -⟩ | ⟨t, cursor', hnext, -⟩ | ⟨hnext, -⟩
  · exact htoken hnext
  · exact htoken hnext
  · simp [steps, hnext, Fate.results] at hone

theorem Behaves.eq_nil (h : Behaves ⟨source, none⟩ ts .ends) : ts = [] := by
  have hone := h 1
  cases ts with
  | nil => rfl
  | cons t behind => simp [steps, next, Fate.results] at hone

/-- A stream that ends does so with its last token, and the tokens before that are cut off the
text. -/
theorem Behaves.exists_last (h : Behaves ⟨source, some cursor⟩ ts .ends)
    (hk : Text.suffixAt source cursor.offset = some cursor.rest) :
    ∃ front last, ts = front ++ [last] ∧ last.kind.isLast = true ∧
      ∀ t ∈ front, t.kind.isLast = false ∧ t.Formed := by
  induction ts generalizing cursor with
  | nil =>
    obtain ⟨_, _, _, hts, -⟩ := h.exists_read hk
    cases hts
  | cons t behind ih =>
    obtain ⟨_, after, _, hts, hread, hafter⟩ := h.exists_read hk
    cases hts
    cases after with
    | none =>
      exact ⟨[], t, by rw [hafter.eq_nil]; rfl, (stops_of_read hk hread).isLast, by simp⟩
    | some cursor' =>
      have hcut := cut_of_read hk hread
      obtain ⟨front, last, rfl, hlast, hfront⟩ := ih hafter hcut.keeps
      refine ⟨t :: front, last, rfl, hlast, ?_⟩
      simpa using ⟨⟨hcut.inner, hcut.formed⟩, hfront⟩

/-! ## Standing still -/

/-- A regex that is looked for where it stands is not empty. -/
theorem regex_ne_empty {offset : Nat} {text : List Char} {next : Option Cursor}
    (h : Scan.regex offset 0 text = .token t next) (hk : t.kind = .regex) :
    t.text.toList ≠ [] := by
  rw [Scan.regex.eq_def] at h
  split at h
  · cases h
    cases hk
  · split at h
    · split at h
      · simp only [Text.suffixAt, Scan.emit, Scan.token.injEq] at h
        obtain ⟨rfl, -⟩ := h
        simp
      · cases h
        cases hk
    · cases h
      cases hk

/-- An empty token is read where an operand is expected, so it is read again. -/
theorem read_of_empty (hk : Text.suffixAt source cursor.offset = some cursor.rest)
    (hread : read source cursor = .token t (some cursor')) (ht : t.text.toList = []) :
    read source cursor' = .token t (some cursor') := by
  have hcut := cut_of_read hk hread
  obtain ⟨hregex, d, ds, hplace, hwide⟩ := hcut.regex_of_empty ht
  have hrest : (Lexeme.blank cursor.rest).2 = '/' :: d :: ds := by
    rw [← Lexeme.blank_append cursor.rest] at hk
    rw [Text.suffixAt_add hk, Option.some.injEq] at hplace
    exact hplace
  have hcursor : cursor' =
      ⟨.operand, cursor.offset + Text.size (Lexeme.blank cursor.rest).1, '/' :: d :: ds⟩ := by
    have hmode : cursor'.mode = .operand := by rw [hcut.mode_eq, hregex]; rfl
    have hstop := hcut.stop_eq
    have hplace' := hcut.place
    rw [ht] at hstop hplace'
    rw [hplace, Option.some.injEq] at hplace'
    cases cursor'
    simp_all
  have hslash : read source cursor' =
      Scan.operand source (cursor.offset + Text.size (Lexeme.blank cursor.rest).1) '/'
        (d :: ds) := by
    rw [hcursor, read_cons (by decide)]
  rw [hslash, ← hread, read]
  simp only [hrest]
  -- In the other modes the slash would divide, or be a part of the regex.
  cases hmode : cursor.mode with
  | operand => rfl
  | operator =>
    have hd : d ≠ '/' := by
      rintro rfl
      exact absurd hwide (by decide)
    simp only [read, hrest, hmode, Scan.operator, hd, Char.reduceEq, if_true, if_false,
      Scan.emit, Scan.token.injEq] at hread
    rw [← hread.1] at hregex
    cases hregex
  | pattern =>
    simp only [read, hrest, hmode, if_true] at hread
    exact absurd ht (regex_ne_empty hread hregex)

/-! ## The end of a stream -/

/-- Behind a token that is not empty less of the text is left. -/
theorem size_lt_of_cut (hk : Text.suffixAt source cursor.offset = some cursor.rest)
    (hcut : Scan.Cut source (cursor.offset + Text.size (Lexeme.blank cursor.rest).1) t cursor')
    (ht : t.text.toList ≠ []) : Text.size cursor'.rest < Text.size cursor.rest := by
  have happ := Lexeme.blank_append cursor.rest
  have hplace := hcut.place
  rw [← happ] at hk
  rw [Text.suffixAt_add hk, Option.some.injEq] at hplace
  rw [hplace] at happ
  have hpos := Text.size_pos ht
  rw [← happ]
  simp only [Text.size_append]
  omega

/-- How a scanner goes on that keeps its place. -/
theorem exists_fate_at (hk : Text.suffixAt source cursor.offset = some cursor.rest) :
    ∃ ts fate, Behaves ⟨source, some cursor⟩ ts fate ∧ ts.length ≤ Text.size cursor.rest + 1 ∧
      (fate = .ends ∨ (∃ offset, Scan.WideSlash source offset) ∧
        (fate = .lost ∨ ∃ t, fate = .stands t ∧ t.kind = .regex ∧ t.text = "")) := by
  induction hn : Text.size cursor.rest using Nat.strongRecOn generalizing cursor with
  | _ n ih =>
    subst hn
    rcases next_cases hk with ⟨t, hnext, -⟩ | ⟨t, cursor', hnext, hcut⟩ | ⟨hnext, hwide⟩
    · exact ⟨[t], .ends, .cons hnext (behaves_ended source), by simp, .inl rfl⟩
    · -- Less of the text is left, unless the token is empty.
      by_cases ht : t.text.toList = []
      · obtain ⟨hregex, hwide⟩ := hcut.regex_of_empty ht
        have hagain : Scanner.next ⟨source, some cursor'⟩ = .token t (some cursor') :=
          read_of_empty hk hnext ht
        refine ⟨[t], .stands t, .cons hnext (behaves_stands hagain), by simp, .inr ⟨⟨_, hwide⟩, ?_⟩⟩
        exact .inr ⟨t, rfl, hregex, String.toList_eq_nil_iff.1 ht⟩
      · have hlt := size_lt_of_cut hk hcut ht
        obtain ⟨ts, fate, hbehaves, hlen, hfate⟩ := ih _ hlt hcut.keeps rfl
        refine ⟨t :: ts, fate, .cons hnext hbehaves, ?_, hfate⟩
        simp only [List.length_cons]
        omega
    · exact ⟨[], .lost, behaves_lost hnext, by simp, .inr ⟨⟨_, hwide⟩, .inl rfl⟩⟩

/-- **The tokens of a script come to an end**, and there are at most one more of them than the
script has bytes, unless a slash stands before a character of more than one byte. Then it can also
be that the scanner is lost behind so many tokens, or that it stands still and gives an empty regex
for ever. -/
theorem exists_fate (source : String) :
    ∃ ts fate, (ofSource source.toList).Behaves ts fate ∧
      ts.length ≤ Text.size source.toList + 1 ∧
      (fate = .ends ∨ (∃ offset, Scan.WideSlash source.toList offset) ∧
        (fate = .lost ∨ ∃ t, fate = .stands t ∧ t.kind = .regex ∧ t.text = "")) :=
  exists_fate_at (Text.suffixAt_size_append [] source.toList)

/-- Behind a regex that ends in two slashes, the slash before a wide character sends the scanner
back to the first of the two. It finds a regex that ends where it stands, and stands still. -/
theorem behaves_wide_slash :
    (ofSource "/\\///€".toList).Behaves [⟨.regex, 0, "/\\//"⟩] (.stands ⟨.regex, 4, ""⟩) := by
  have hfirst : (ofSource "/\\///€".toList).next =
      .token ⟨.regex, 0, "/\\//"⟩ (some ⟨.operand, 4, ['/', '€']⟩) := by decide +kernel
  have hagain : next ⟨"/\\///€".toList, some ⟨.operand, 4, ['/', '€']⟩⟩ =
      .token ⟨.regex, 4, ""⟩ (some ⟨.operand, 4, ['/', '€']⟩) := by decide +kernel
  exact .cons hfirst (behaves_stands hagain)

/-! ## Streams that end -/

theorem run_succ {s : Scanner} {after : Option Cursor} (hs : s.next = .token t after)
    (limit : Nat) :
    run (limit + 1) s =
      ⟨t :: (run limit ⟨s.source, after⟩).tokens, (run limit ⟨s.source, after⟩).ending⟩ := by
  rw [run, hs]

theorem run_over (limit : Nat) (source : List Char) : run limit ⟨source, none⟩ = ⟨[], .ended⟩ := by
  rw [run, next]

/-- A scanner that stands still gives its token as often as it is asked. -/
theorem run_stands (hs : read source cursor = .token t (some cursor)) (limit : Nat) :
    run limit ⟨source, some cursor⟩ = ⟨List.replicate limit t, .endless⟩ := by
  have hnext : next ⟨source, some cursor⟩ = .token t (some cursor) := hs
  induction limit with
  | zero =>
    rw [run, hnext]
    rfl
  | succ limit ih =>
    rw [run_succ hnext, ih]
    rfl

/-- A stream that ends within a limit is read to its end. -/
theorem Behaves.run_eq {limit : Nat} (h : Behaves ⟨source, some cursor⟩ ts .ends)
    (hk : Text.suffixAt source cursor.offset = some cursor.rest) (hlimit : ts.length ≤ limit) :
    run limit ⟨source, some cursor⟩ = ⟨ts, .ended⟩ := by
  induction ts generalizing cursor limit with
  | nil =>
    obtain ⟨_, _, _, hts, -⟩ := h.exists_read hk
    cases hts
  | cons t behind ih =>
    obtain ⟨_, after, _, hts, hread, hafter⟩ := h.exists_read hk
    cases hts
    obtain ⟨limit, rfl⟩ : ∃ m, limit = m + 1 := ⟨limit - 1, by simp at hlimit; omega⟩
    rw [run_succ (show next ⟨source, some cursor⟩ = .token t after from hread)]
    cases after with
    | none => rw [run_over, hafter.eq_nil]
    | some cursor' =>
      rw [ih hafter (cut_of_read hk hread).keeps (by simpa using hlimit)]

/-- A last token has nothing behind it, and with it the stream ends. -/
theorem run_of_isLast (limit : Nat) {start behind : List Token}
    (hk : Text.suffixAt source cursor.offset = some cursor.rest)
    (h : (run limit ⟨source, some cursor⟩).tokens = start ++ t :: behind)
    (ht : t.kind.isLast = true) :
    behind = [] ∧ (run limit ⟨source, some cursor⟩).ending = .ended := by
  induction limit generalizing cursor start with
  | zero =>
    exfalso
    cases hnext : next ⟨source, some cursor⟩ <;> rw [run, hnext] at h <;> simp at h
  | succ limit ih =>
    rcases next_cases hk with ⟨u, hnext, -⟩ | ⟨u, cursor', hnext, hcut⟩ | ⟨hnext, -⟩
    · rw [run_succ hnext, run_over] at h ⊢
      cases start with
      | nil => exact ⟨by simpa using (List.cons.inj h).2.symm, rfl⟩
      | cons s start => simp at h
    · rw [run_succ hnext] at h ⊢
      cases start with
      | nil =>
        -- A token that is cut off is not a last one.
        rw [List.nil_append, List.cons.injEq] at h
        rw [← h.1, hcut.inner] at ht
        cases ht
      | cons s start => exact ih hcut.keeps (List.cons.inj h).2
    · rw [run, hnext] at h
      simp at h

/-- A token behind which a stream ends is not empty: behind an empty one the scanner stands
still. -/
theorem ne_nil_of_ended (limit : Nat) (hk : Text.suffixAt source cursor.offset = some cursor.rest)
    (hread : read source cursor = .token t (some cursor'))
    (he : (run limit ⟨source, some cursor'⟩).ending = .ended) : t.text.toList ≠ [] := by
  intro hnil
  rw [run_stands (read_of_empty hk hread hnil)] at he
  cases he

/-- In a stream that ends every token begins behind where the one before it begins. -/
theorem run_ascends (limit : Nat) (hk : Text.suffixAt source cursor.offset = some cursor.rest)
    (he : (run limit ⟨source, some cursor⟩).ending = .ended) :
    (∀ t ∈ (run limit ⟨source, some cursor⟩).tokens, cursor.offset ≤ t.offset) ∧
      (run limit ⟨source, some cursor⟩).tokens.Pairwise (·.offset < ·.offset) := by
  induction limit generalizing cursor with
  | zero =>
    cases hnext : next ⟨source, some cursor⟩ <;> rw [run, hnext] <;> simp
  | succ limit ih =>
    rcases next_cases hk with ⟨t, hnext, hstops⟩ | ⟨t, cursor', hnext, hcut⟩ | ⟨hnext, -⟩
    · rw [run_succ hnext]
      simp [run_over, hstops.offset_eq]
    · rw [run_succ hnext] at he ⊢
      have hne := ne_nil_of_ended limit hk hnext he
      obtain ⟨hle, hpairwise⟩ := ih hcut.keeps he
      have hoffset := hcut.offset_eq
      have hstop := hcut.stop_eq
      have hpos := Text.size_pos hne
      have hlt : t.offset < cursor'.offset := by omega
      refine ⟨?_, List.pairwise_cons.2 ⟨fun u hu => Nat.lt_of_lt_of_le hlt (hle u hu), hpairwise⟩⟩
      intro u hu
      rcases List.mem_cons.1 hu with rfl | hu
      · omega
      · have := hle u hu
        omega
    · rw [run, hnext]
      simp

/-! ## The tokens that a scanner gives -/

/-- What is given from a place that is kept is read at a place that is kept. -/
theorem exists_read_of_steps {n : Nat} {results : List (Option Token)}
    (hk : Text.suffixAt source cursor.offset = some cursor.rest)
    (h : steps n ⟨source, some cursor⟩ = some results) (ht : some t ∈ results) :
    ∃ place after, Text.suffixAt source place.offset = some place.rest ∧
      read source place = .token t after := by
  induction n generalizing cursor results with
  | zero =>
    cases h
    simp at ht
  | succ n ih =>
    rcases next_cases hk with ⟨u, hnext, -⟩ | ⟨u, cursor', hnext, hcut⟩ | ⟨hnext, -⟩
    · rw [steps, hnext] at h
      obtain ⟨behind, hbehind, rfl⟩ := Option.map_eq_some_iff.1 h
      rcases List.mem_cons.1 ht with hu | ht
      · cases hu
        exact ⟨cursor, none, hk, hnext⟩
      · have hover := behaves_ended source n
        rw [hbehind] at hover
        simp [Fate.results] at hover
        simp [hover] at ht
    · rw [steps, hnext] at h
      obtain ⟨behind, hbehind, rfl⟩ := Option.map_eq_some_iff.1 h
      rcases List.mem_cons.1 ht with hu | ht
      · cases hu
        exact ⟨cursor, some cursor', hk, hnext⟩
      · exact ih hcut.keeps hbehind ht
    · simp [steps, hnext] at h

/-- The tokens of a run are the first results. -/
theorem steps_run (limit : Nat) (s : Scanner) :
    s.steps (run limit s).tokens.length = some ((run limit s).tokens.map some) := by
  induction limit generalizing s with
  | zero =>
    rw [run]
    cases s.next <;> rfl
  | succ limit ih =>
    cases hs : s.next with
    | ended | lost =>
      rw [run, hs]
      rfl
    | token t after =>
      rw [run_succ hs, List.length_cons, steps, hs]
      simp [ih]

end Scanner

namespace Token

variable {source : String} {t : Token}

/-- The token is one that the scanner of a script gives, if it is asked often enough. -/
def IsOf (t : Token) (source : String) : Prop :=
  ∃ n results, (Scanner.ofSource source.toList).steps n = some results ∧ some t ∈ results

theorem isOf_of_mem (h : t ∈ (tokenize source).tokens) : t.IsOf source :=
  ⟨_, _, Scanner.steps_run _ _, List.mem_map_of_mem h⟩

theorem IsOf.exists_read (h : t.IsOf source) :
    ∃ place after, Text.suffixAt source.toList place.offset = some place.rest ∧
      Scanner.read source.toList place = .token t after := by
  obtain ⟨n, results, hsteps, ht⟩ := h
  have hk : Text.suffixAt source.toList 0 = some source.toList := Text.suffixAt_size_append [] _
  exact Scanner.exists_read_of_steps hk hsteps ht

theorem IsOf.formed (h : t.IsOf source) : t.Formed := by
  obtain ⟨place, after, hk, hread⟩ := h.exists_read
  cases after with
  | none => exact formed_of_isLast (Scanner.stops_of_read hk hread).isLast
  | some cursor => exact (Scanner.cut_of_read hk hread).formed

end Token

end PipelineScript

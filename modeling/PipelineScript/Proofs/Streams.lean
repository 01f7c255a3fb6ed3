import PipelineScript.Proofs.Idle
import PipelineScript.Proofs.Insertion

/-!
Scripts with the same tokens.

Two scripts have the same tokens if whoever reads one of them token by token can read the other one
as far, and finds the same kinds and texts there apart from comments. `SameTokens` says this of the
first tokens, however many, because a scanner that stands still gives tokens without end.

A script holds only so many of its tokens as it has bytes, and one more. So where the tokens of two
scripts come to an end, or both scanners are lost, what the scripts hold is the same; where both
scanners stand still, one script may hold some more idle tokens than the other.
-/
namespace PipelineScript

/-! ## Streams of different lengths -/

namespace Scanner

variable {source : List Char} {cursor cursor' : Cursor} {t : Token} {m n : Nat}

/-- Who reads more tokens reads the same ones first. -/
theorem run_tokens_prefix (s : Scanner) (h : m ≤ n) : (run m s).tokens <+: (run n s).tokens := by
  induction m generalizing n s with
  | zero =>
    have hnil : (run 0 s).tokens = [] := by
      rw [run]
      cases s.next <;> rfl
    rw [hnil]
    exact List.nil_prefix
  | succ m ih =>
    obtain ⟨n, rfl⟩ : ∃ k, n = k + 1 := ⟨n - 1, by omega⟩
    cases hs : s.next with
    | ended =>
      have hsame : run (n + 1) s = run (m + 1) s := by rw [run, run, hs]
      exact hsame ▸ List.prefix_refl _
    | lost =>
      have hsame : run (n + 1) s = run (m + 1) s := by rw [run, run, hs]
      exact hsame ▸ List.prefix_refl _
    | token t after =>
      rw [run_succ hs, run_succ hs]
      exact List.cons_prefix_cons.2 ⟨rfl, ih _ (by omega)⟩

/-- A scanner that does not go on giving tokens has given them all. -/
theorem run_eq_of_le (s : Scanner) (h : m ≤ n) (he : (run m s).ending ≠ .endless) :
    run n s = run m s := by
  induction m generalizing n s with
  | zero =>
    cases hs : s.next with
    | ended => rw [run, run, hs]
    | lost => rw [run, run, hs]
    | token t after =>
      rw [run, hs] at he
      exact absurd rfl he
  | succ m ih =>
    obtain ⟨n, rfl⟩ : ∃ k, n = k + 1 := ⟨n - 1, by omega⟩
    cases hs : s.next with
    | ended => rw [run, run, hs]
    | lost => rw [run, run, hs]
    | token t after =>
      rw [run_succ hs] at he
      rw [run_succ hs, run_succ hs, ih _ (by omega) he]

/-- The first tokens of an endless stream, and the one that follows them again and again. -/
structure Stands (s : Scanner) (ts : List Token) (t : Token) : Prop where
  idle : t.IsIdle
  run_eq : ∀ m, run (ts.length + m) s = ⟨ts ++ List.replicate m t, .endless⟩

/-- A scanner that goes on giving tokens stands still before the end of the text: at a slash before
a character of more than one byte. -/
theorem exists_stands (hk : Text.suffixAt source cursor.offset = some cursor.rest)
    (hn : Text.size cursor.rest < n) (he : (run n ⟨source, some cursor⟩).ending = .endless) :
    ∃ ts t, Stands ⟨source, some cursor⟩ ts t ∧ ts.length + 2 ≤ Text.size cursor.rest := by
  induction n generalizing cursor with
  | zero => omega
  | succ n ih =>
    rcases next_cases hk with ⟨t, hnext, -⟩ | ⟨t, cursor', hnext, hcut⟩ | ⟨hnext, -⟩
    · rw [run_succ hnext, run_over] at he
      cases he
    · rw [run_succ hnext] at he
      by_cases ht : t.text.toList = []
      · -- The scanner stands still at a slash and a wide character, which take three bytes or more.
        obtain ⟨hregex, d, ds, hplace, hwide⟩ := hcut.regex_of_empty ht
        have hagain := read_of_empty hk hnext ht
        refine ⟨[t], t, ⟨⟨hregex, String.toList_eq_nil_iff.1 ht⟩, fun m => ?_⟩, ?_⟩
        · rw [List.length_singleton, Nat.add_comm, run_succ hnext, run_stands hagain]
          rfl
        · have hblank := Lexeme.blank_append cursor.rest
          rw [← hblank] at hk
          rw [Text.suffixAt_add hk, Option.some.injEq] at hplace
          have hslash : ('/' : Char).utf8Size = 1 := rfl
          rw [← hblank, Text.size_append, hplace, Text.size_cons, Text.size_cons,
            List.length_singleton]
          omega
      · have hlt := size_lt_of_cut hk hcut ht
        obtain ⟨ts, u, hstands, hlen⟩ := ih hcut.keeps (by omega) he
        refine ⟨t :: ts, u, ⟨hstands.idle, fun m => ?_⟩, ?_⟩
        · rw [List.length_cons, Nat.add_right_comm, run_succ hnext, hstands.run_eq]
          rfl
        · rw [List.length_cons]
          omega
    · rw [run, hnext] at he
      cases he

end Scanner

/-! ## The same tokens -/

/-- The signs among the first tokens of a script. -/
def signsWithin (n : Nat) (source : String) : List Sign :=
  (Scanner.run n (.ofSource source.toList)).signs

/-- Whoever reads some of the first script reads the same in the second one. -/
def Covers (source source' : String) : Prop :=
  ∀ n, ∃ m, signsWithin n source <+: signsWithin m source'

/-- The tokens of two scripts have the same kinds and texts, one after the other, apart from
comments. -/
structure SameTokens (source source' : String) : Prop where
  right : Covers source source'
  left : Covers source' source

theorem SameTokens.symm {source source' : String} (h : SameTokens source source') :
    SameTokens source' source := ⟨h.left, h.right⟩

section

variable {source source' : String} {m n : Nat}

theorem signsWithin_prefix (source : String) (h : m ≤ n) :
    signsWithin m source <+: signsWithin n source :=
  ((Scanner.run_tokens_prefix _ h).map _).filter _

/-- What a stream that is not endless holds is all that can be read. -/
theorem signsWithin_prefix_signs (h : (tokenize source).ending ≠ .endless) (n : Nat) :
    signsWithin n source <+: (tokenize source).signs := by
  rcases Nat.le_total n (Text.size source.toList + 1) with hle | hle
  · exact signsWithin_prefix source hle
  · rw [signsWithin, Scanner.run_eq_of_le _ hle h]
    exact List.prefix_refl _

/-- What an endless stream holds: three idle tokens at least stand at its end. -/
theorem exists_stands_of_endless (h : (tokenize source).ending = .endless) :
    ∃ ts t, Scanner.Stands (.ofSource source.toList) ts t ∧
      ts.length + 3 ≤ Text.size source.toList + 1 := by
  let cursor : Cursor := ⟨.operand, 0, source.toList⟩
  have hk : Text.suffixAt source.toList cursor.offset = some cursor.rest :=
    Text.suffixAt_size_append [] source.toList
  obtain ⟨ts, t, hstands, hlen⟩ := Scanner.exists_stands hk (Nat.lt_succ_self _) h
  exact ⟨ts, t, hstands, Nat.succ_le_succ hlen⟩

/-- The sign of an idle token. -/
def idleSign : Sign := ⟨.regex, []⟩

theorem Token.isIdle_iff {t : Token} : t.IsIdle ↔ t.sign = idleSign := by
  constructor
  · intro h
    rw [sign, h.kind, h.text]
    rfl
  · intro h
    rw [sign, idleSign, Sign.mk.injEq, String.toList_eq_nil_iff] at h
    exact ⟨h.1, h.2⟩

/-- What can be read of an endless stream. -/
theorem Scanner.Stands.signsWithin_eq {ts : List Token} {t : Token}
    (h : Scanner.Stands (.ofSource source.toList) ts t) (m : Nat) :
    signsWithin (ts.length + m) source =
      TokenStream.signs ⟨ts, .endless⟩ ++ List.replicate m idleSign := by
  have hsign : t.sign = idleSign := Token.isIdle_iff.1 h.idle
  rw [signsWithin, h.run_eq, TokenStream.signs, TokenStream.signs, List.map_append,
    List.filter_append, List.map_replicate, hsign, List.filter_replicate_of_pos rfl]

/-- Where one of two scripts that have the same tokens is not endless, the other one is not. -/
theorem Covers.ne_endless (h : Covers source source') (hne : (tokenize source').ending ≠ .endless) :
    (tokenize source).ending ≠ .endless := by
  intro he
  obtain ⟨ts, t, hstands, -⟩ := exists_stands_of_endless he
  -- More can be read of an endless stream than the other one holds.
  let more := (tokenize source').signs.length + 1
  obtain ⟨m, hm⟩ := h (ts.length + more)
  have hlen := (hm.trans (signsWithin_prefix_signs hne m)).length_le
  rw [hstands.signsWithin_eq, List.length_append, List.length_replicate] at hlen
  omega

/-- Two scripts that have the same tokens and are not endless hold the same. -/
theorem SameTokens.signs_eq (h : SameTokens source source')
    (hne : (tokenize source).ending ≠ .endless) (hne' : (tokenize source').ending ≠ .endless) :
    (tokenize source).signs = (tokenize source').signs := by
  obtain ⟨m, hm⟩ := h.right (Text.size source.toList + 1)
  obtain ⟨n, hn⟩ := h.left (Text.size source'.toList + 1)
  have hright : (tokenize source).signs <+: (tokenize source').signs :=
    hm.trans (signsWithin_prefix_signs hne' m)
  have hleft : (tokenize source').signs <+: (tokenize source).signs :=
    hn.trans (signsWithin_prefix_signs hne n)
  exact hright.eq_of_length_le hleft.length_le

/-- What an endless stream holds is followed by idle tokens. -/
theorem signsWithin_prefix_idle (h : (tokenize source).ending = .endless) (n : Nat) :
    ∃ k, signsWithin n source <+: (tokenize source).signs ++ List.replicate k idleSign := by
  obtain ⟨ts, t, hstands, hlen⟩ := exists_stands_of_endless h
  obtain ⟨i, hi⟩ : ∃ i, Text.size source.toList + 1 = ts.length + i :=
    Nat.exists_eq_add_of_le (by omega)
  have hheld : (tokenize source).signs =
      TokenStream.signs ⟨ts, .endless⟩ ++ List.replicate i idleSign := by
    rw [← hstands.signsWithin_eq, ← hi]
    rfl
  refine ⟨n, ?_⟩
  rw [hheld, List.append_assoc, List.replicate_append_replicate, ← hstands.signsWithin_eq]
  exact signsWithin_prefix source (by omega)

/-- If what an endless script holds begins with `signs`, and what it gives goes on from `signs` with
idle tokens, it holds idle tokens behind `signs`. -/
theorem eq_append_idle {signs held : List Sign} {k : Nat} (h : signs <+: held)
    (hidle : held <+: signs ++ List.replicate k idleSign) :
    ∃ i, signs ++ List.replicate i idleSign = held := by
  obtain ⟨rest, rfl⟩ := h
  rw [List.prefix_append_right_inj, List.prefix_replicate_iff] at hidle
  exact ⟨rest.length, by rw [← hidle.2]⟩

/-- Of two endless scripts that have the same tokens one holds what the other one holds, and some
more idle tokens. -/
theorem SameTokens.signs_idle (h : SameTokens source source')
    (he : (tokenize source).ending = .endless) (he' : (tokenize source').ending = .endless) :
    (∃ i, (tokenize source).signs ++ List.replicate i idleSign = (tokenize source').signs) ∨
      ∃ i, (tokenize source').signs ++ List.replicate i idleSign = (tokenize source).signs := by
  obtain ⟨m, hm⟩ := h.right (Text.size source.toList + 1)
  obtain ⟨n, hn⟩ := h.left (Text.size source'.toList + 1)
  obtain ⟨k, hk⟩ := signsWithin_prefix_idle he' m
  obtain ⟨l, hl⟩ := signsWithin_prefix_idle he n
  have hright := hm.trans hk
  have hleft := hn.trans hl
  rcases List.prefix_or_prefix_of_prefix hright (List.prefix_append _ _) with hle | hle
  · exact .inl (eq_append_idle hle hleft)
  · exact .inr (eq_append_idle hle hright)

end

end PipelineScript

import PipelineScript.Proofs.Halting

/-!
Tokens tile the script.

What a scanner gives is cut out of the script from left to right: the text of a token is the part
of the script that stands between its offset and its stop, and between one token and the next there
is white space only. The end of the text is met where the text ends, and nothing comes behind it or
behind a diagnostic (`Scanner.tiling_of_steps`).

A scanner that looks for a regex a few bytes back does not leave this order: it cuts the token at
the slash where it stands, and the token of a regex that ends before that slash is empty.
-/
namespace PipelineScript

/-- The part of a text between two byte offsets, or `none` if they are not in this order or one of
them is past the end or inside a character. -/
def Text.slice? (cs : List Char) (start stop : Nat) : Option (List Char) :=
  if start ≤ stop then (suffixAt cs start).bind fun rest => takeBytes? rest (stop - start) else none

theorem Text.slice?_of_suffixAt {cs part rest : List Char} {start : Nat}
    (h : suffixAt cs start = some (part ++ rest)) :
    slice? cs start (start + size part) = some part := by
  rw [slice?, if_pos (Nat.le_add_right _ _), h, Nat.add_sub_cancel_left]
  exact takeBytes?_size_append part rest

example : Text.slice? "a €b".toList 2 5 = some ['€'] ∧ Text.slice? "a €b".toList 2 4 = none := by
  decide

/-- Where the text of a token stops. -/
def Token.stop (t : Token) : Nat := t.offset + Text.size t.text.toList

/-- There is nothing but white space between two offsets, the first of which is not the greater. -/
def IsGap (source : List Char) (start stop : Nat) : Prop :=
  ∃ gap, Text.slice? source start stop = some gap ∧ gap.all Text.isSpace = true

/-- Tokens that are cut out of a source one behind the other, from an offset on. -/
inductive Tiling (source : List Char) : Nat → List Token → Prop where
  | nil {start : Nat} : Tiling source start []
  /-- A token that is not the last one is a part of the source. -/
  | token {start : Nat} {t : Token} {ts : List Token} (gap : IsGap source start t.offset)
      (inner : t.kind.isLast = false)
      (text : Text.slice? source t.offset t.stop = some t.text.toList)
      (behind : Tiling source t.stop ts) : Tiling source start (t :: ts)
  /-- The end of the text stands where the source ends. -/
  | eof {start : Nat} (gap : IsGap source start (Text.size source)) :
      Tiling source start [⟨.eof, Text.size source, ""⟩]
  /-- The text of a diagnostic is not a part of the source, but it has a place there. -/
  | error {start : Nat} {t : Token} (gap : IsGap source start t.offset) (kind : t.kind = .error) :
      Tiling source start [t]

namespace Scanner

variable {source : List Char} {cursor : Cursor} {t : Token}

/-- Before the token that it reads a scanner passes over white space. -/
theorem isGap_blank (hk : Text.suffixAt source cursor.offset = some cursor.rest) :
    IsGap source cursor.offset (cursor.offset + Text.size (Lexeme.blank cursor.rest).1) := by
  rw [← Lexeme.blank_append cursor.rest] at hk
  exact ⟨_, Text.slice?_of_suffixAt hk, by simp [Lexeme.blank]⟩

/-- A last token is a tiling by itself. -/
theorem tiling_of_stops (hk : Text.suffixAt source cursor.offset = some cursor.rest)
    (h : Scan.Stops source (cursor.offset + Text.size (Lexeme.blank cursor.rest).1) t) :
    Tiling source cursor.offset [t] := by
  have hgap := isGap_blank hk
  rw [← h.offset_eq] at hgap
  rcases h.kind_eq with hkind | ⟨hkind, htext, hplace⟩
  · exact .error hgap hkind
  · obtain ⟨start, rfl, hsize⟩ := Text.suffixAt_eq_some_iff.1 hplace
    rw [← h.offset_eq] at hsize
    have ht : t = ⟨.eof, Text.size (start ++ []), ""⟩ := by
      cases t
      simp_all
    rw [ht] at hgap ⊢
    exact .eof hgap

/-- One step: a token that is cut off stands in front of what is cut off behind it. -/
theorem tiling_of_cut {cursor' : Cursor} {ts : List Token}
    (hk : Text.suffixAt source cursor.offset = some cursor.rest)
    (h : Scan.Cut source (cursor.offset + Text.size (Lexeme.blank cursor.rest).1) t cursor')
    (hts : Tiling source cursor'.offset ts) : Tiling source cursor.offset (t :: ts) := by
  have hgap := isGap_blank hk
  have hplace := h.place
  have hstop := h.stop_eq
  rw [← h.offset_eq] at hgap hplace hstop
  rw [hstop] at hts
  exact .token hgap h.inner (Text.slice?_of_suffixAt hplace) hts

theorem steps_over (source : List Char) (n : Nat) :
    steps n ⟨source, none⟩ = some (List.replicate n none) := by
  simpa [Fate.results] using behaves_ended source n

/-- However often a scanner is asked from a place that it keeps, what it gives is a tiling from
there on, and then nothing. -/
theorem tiling_of_steps_at {n : Nat} {results : List (Option Token)}
    (hk : Text.suffixAt source cursor.offset = some cursor.rest)
    (h : steps n ⟨source, some cursor⟩ = some results) :
    ∃ ts, results = ts.map some ++ List.replicate (n - ts.length) none ∧
      Tiling source cursor.offset ts := by
  induction n generalizing cursor results with
  | zero =>
    cases h
    exact ⟨[], rfl, .nil⟩
  | succ n ih =>
    rcases next_cases hk with ⟨t, hnext, hstops⟩ | ⟨t, cursor', hnext, hcut⟩ | ⟨hnext, -⟩
    · simp only [steps, hnext, steps_over, Option.map_some, Option.some.injEq] at h
      subst h
      exact ⟨[t], by simp, tiling_of_stops hk hstops⟩
    · rw [steps, hnext] at h
      obtain ⟨behind, hbehind, rfl⟩ := Option.map_eq_some_iff.1 h
      obtain ⟨ts, rfl, hts⟩ := ih hcut.keeps hbehind
      exact ⟨t :: ts, by simp, tiling_of_cut hk hcut hts⟩
    · simp [steps, hnext] at h

/-- **Tokens tile the script.** As long as a scanner is not lost, the tokens that it gives are cut
out of the script one behind the other with white space between them, up to the end of the text or
a diagnostic, and behind these tokens it gives nothing. -/
theorem tiling_of_steps (source : String) {n : Nat} {results : List (Option Token)}
    (h : (ofSource source.toList).steps n = some results) :
    ∃ ts, results = ts.map some ++ List.replicate (n - ts.length) none ∧
      Tiling source.toList 0 ts :=
  tiling_of_steps_at (Text.suffixAt_size_append [] source.toList) h

/-- A scanner that is sent back by a slash before a wide character still tiles the script, with an
empty regex where it stands. -/
theorem tiling_of_steps_wide_slash :
    (ofSource "a = /\\///€".toList).steps 4 =
        some [some ⟨.ident, 0, "a"⟩, some ⟨.assign, 2, "="⟩, some ⟨.regex, 4, "/\\//"⟩,
          some ⟨.regex, 8, ""⟩] ∧
      ∃ ts, [some ⟨.ident, 0, "a"⟩, some ⟨.assign, 2, "="⟩, some ⟨.regex, 4, "/\\//"⟩,
          some ⟨.regex, 8, ""⟩] = ts.map some ++ List.replicate (4 - ts.length) none ∧
        Tiling "a = /\\///€".toList 0 ts := by
  have hsteps : (ofSource "a = /\\///€".toList).steps 4 =
      some [some ⟨.ident, 0, "a"⟩, some ⟨.assign, 2, "="⟩, some ⟨.regex, 4, "/\\//"⟩,
        some ⟨.regex, 8, ""⟩] := by decide +kernel
  exact ⟨hsteps, tiling_of_steps "a = /\\///€" hsteps⟩

end Scanner

end PipelineScript

import PipelineScript.Proofs.Fuel
import PipelineScript.Proofs.Marks
import PipelineScript.Proofs.Rejections

/-!
Where a diagnostic points and what it shows.

A rejection blames a token (`exists_blamed_of_parse`), so it stands where the token begins, which is
a place in the script. It shows the bytes around that place up to ten on each side, but no other
line: of all parts of the script that it may show, this is the greatest (`Window.Full.greatest`,
`exists_full_window`).

A script whose tokens end with a diagnostic of the scanner is rejected. Its tokens come to an end,
so it is parsed or rejected (`ParserCall.runOn_cases_of_ended`), and the tokens of a script that is
parsed end with the end of the text.
-/
namespace PipelineScript

section

variable {engine : PatternEngine}

/-! ## Windows -/

/-- The bytes from one offset up to another. -/
def bytesBetween (bytes : List UInt8) (start stop : Nat) : List UInt8 :=
  (bytes.take stop).drop start

/-- A part of a text that a diagnostic may show: it goes no further than the radius on each side of
an offset, and stays on one line. -/
structure Window (bytes : List UInt8) (offset start stop : Nat) : Prop where
  start_le : start ≤ offset
  le_stop : offset ≤ stop
  stop_le : stop ≤ bytes.length
  start_near : offset - start ≤ snippetRadius
  stop_near : stop - offset ≤ snippetRadius
  line : Position.newline ∉ bytesBetween bytes start stop

/-- A window that goes as far as it may: on each side only the radius, a newline or the end of the
text stops it. -/
structure Window.Full (bytes : List UInt8) (offset start stop : Nat) : Prop
    extends Window bytes offset start stop where
  start_stops :
    offset - start = snippetRadius ∨ start = 0 ∨ bytes[start - 1]? = some Position.newline
  stop_stops :
    stop - offset = snippetRadius ∨ stop = bytes.length ∨ bytes[stop]? = some Position.newline

section

variable {bytes : List UInt8} {offset start stop : Nat} {b : UInt8}

theorem mem_bytesBetween {i : Nat} (hstart : start ≤ i) (hstop : i < stop)
    (h : bytes[i]? = some b) : b ∈ bytesBetween bytes start stop := by
  refine List.mem_of_getElem? (i := i - start) ?_
  rw [bytesBetween, List.getElem?_drop, Nat.add_sub_cancel' hstart, List.getElem?_take_of_lt hstop,
    h]

/-- Every other window lies inside. -/
theorem Window.Full.greatest (h : Full bytes offset start stop) {start' stop' : Nat}
    (h' : Window bytes offset start' stop') : start ≤ start' ∧ stop' ≤ stop := by
  obtain ⟨hwindow, hstart, hstop⟩ := h
  have hle := hwindow.start_le
  have hle' := h'.start_le
  have hnear' := h'.start_near
  have hge := hwindow.le_stop
  have hge' := h'.le_stop
  have hfar' := h'.stop_near
  constructor
  · rcases hstart with hradius | hzero | hnewline
    · omega
    · omega
    · by_contra hlt
      exact h'.line (mem_bytesBetween (by omega) (by omega) hnewline)
  · rcases hstop with hradius | hend | hnewline
    · omega
    · rw [hend]
      exact h'.stop_le
    · by_contra hlt
      exact h'.line (mem_bytesBetween (by omega) (by omega) hnewline)

theorem bytesBetween_append {middle : Nat} (h₁ : start ≤ middle) (h₂ : middle ≤ stop)
    (h₃ : stop ≤ bytes.length) :
    bytesBetween bytes start middle ++ bytesBetween bytes middle stop =
      bytesBetween bytes start stop := by
  have htake : bytes.take middle = (bytes.take stop).take middle := by
    rw [List.take_take, Nat.min_eq_left h₂]
  have hsplit : bytes.take middle ++ bytesBetween bytes middle stop = bytes.take stop := by
    rw [htake, bytesBetween, List.take_append_drop]
  rw [bytesBetween, bytesBetween.eq_1 bytes start stop, ← hsplit,
    List.drop_append_of_le_length (by simp; omega)]

end

/-- Why the first elements of a list that pass a test are no more: they are as many as may be looked
at, or all there are, or the next one does not pass. -/
theorem exists_takeWhile_take {α : Type} (p : α → Bool) (k : Nat) (xs : List α) :
    ∃ n, (xs.take k).takeWhile p = xs.take n ∧ n ≤ k ∧ n ≤ xs.length ∧
      (n = k ∨ n = xs.length ∨ ∃ c, xs[n]? = some c ∧ p c = false) := by
  induction xs generalizing k with
  | nil => exact ⟨0, by simp, by omega, by simp, .inr (.inl rfl)⟩
  | cons x xs ih =>
    cases k with
    | zero => exact ⟨0, rfl, le_rfl, by simp, .inl rfl⟩
    | succ k =>
      cases hx : p x with
      | false => exact ⟨0, by simp [hx], by omega, by simp, .inr (.inr ⟨x, rfl, hx⟩)⟩
      | true =>
        obtain ⟨n, htake, hk, hlen, hstops⟩ := ih k
        refine ⟨n + 1, by simp [hx, htake], by omega, by simpa using hlen, ?_⟩
        rcases hstops with rfl | hend | hnext
        · exact .inl rfl
        · exact .inr (.inl (by simp [hend]))
        · exact .inr (.inr hnext)

/-- A diagnostic at an offset of a text shows the greatest part that it may. -/
theorem exists_full_window {bytes : List UInt8} {offset : Nat} (h : offset ≤ bytes.length) :
    ∃ start stop, Window.Full bytes offset start stop ∧
      snippetAt bytes offset =
        String.ofList (Text.decodeLossy (bytesBetween bytes start stop)) := by
  have hoffset : (bytes.take offset).length = offset := List.length_take_of_le h
  obtain ⟨n, hbefore, hn, hnlen, hnstops⟩ :=
    exists_takeWhile_take (· != Position.newline) snippetRadius (bytes.take offset).reverse
  obtain ⟨m, hbehind, hm, hmlen, hmstops⟩ :=
    exists_takeWhile_take (· != Position.newline) snippetRadius (bytes.drop offset)
  rw [List.length_reverse, hoffset] at hnlen
  rw [List.length_drop] at hmlen
  have hshown : snippetBefore bytes offset = bytesBetween bytes (offset - n) offset := by
    rw [snippetBefore, hbefore, List.take_reverse, List.reverse_reverse, hoffset, bytesBetween]
  have hshown' : snippetBehind bytes offset = bytesBetween bytes offset (offset + m) := by
    rw [snippetBehind, hbehind, bytesBetween, List.drop_take, Nat.add_sub_cancel_left]
  have hall : snippetBefore bytes offset ++ snippetBehind bytes offset =
      bytesBetween bytes (offset - n) (offset + m) := by
    rw [hshown, hshown', bytesBetween_append (by omega) (by omega) (by omega)]
  refine ⟨offset - n, offset + m, ⟨⟨by omega, by omega, by omega, by omega, by omega, ?_⟩, ?_, ?_⟩,
    ?_⟩
  · rw [← hall, List.mem_append, snippetBefore, snippetBehind, List.mem_reverse]
    rintro (hmem | hmem) <;> simpa using List.mem_takeWhile_imp hmem
  · rcases hnstops with hk | hend | ⟨c, hc, hnewline⟩
    · exact .inl (by omega)
    · rw [List.length_reverse, hoffset] at hend
      exact .inr (.inl (by omega))
    · -- the byte before the window, counted from the offset backwards
      obtain ⟨hlt, -⟩ := List.getElem?_eq_some_iff.1 hc
      rw [List.length_reverse, hoffset] at hlt
      rw [List.getElem?_reverse (by omega), hoffset, List.getElem?_take_of_lt (by omega)] at hc
      refine .inr (.inr ?_)
      rw [show offset - n - 1 = offset - 1 - n by omega, hc]
      simpa using hnewline
  · rcases hmstops with hk | hend | ⟨c, hc, hnewline⟩
    · exact .inl (by omega)
    · rw [List.length_drop] at hend
      exact .inr (.inl (by omega))
    · rw [List.getElem?_drop] at hc
      exact .inr (.inr (by simpa [hc] using hnewline))
  · rw [snippetAt, hall]

/-! ## Places of tokens -/

/-- Every token begins in the script or at its end. -/
theorem Token.IsOf.offset_le {source : String} {t : Token} (h : t.IsOf source) :
    t.offset ≤ Text.size source.toList := by
  obtain ⟨place, after, hk, hread⟩ := h.exists_read
  have hoffset := Scanner.offset_of_read hk hread
  obtain ⟨start, hsource, hstart⟩ := Text.suffixAt_eq_some_iff.1 hk
  rw [hsource, ← Lexeme.blank_append place.rest, Text.size_append, Text.size_append, hstart]
  omega

/-- A rejection points into a script: at a token of it or at its end. It shows the bytes there, on
one line and near by, and as many of them as there are. -/
def ParseError.PointsInto (e : ParseError) (source : String) : Prop :=
  ∃ offset start stop,
    offset ≤ Text.size source.toList ∧
      ((∃ t ∈ (tokenize source).tokens, t.offset = offset) ∨ offset = Text.size source.toList) ∧
      e.position = .locate (Text.bytes source.toList) offset ∧
      Window.Full (Text.bytes source.toList) offset start stop ∧
      (∀ start' stop', Window (Text.bytes source.toList) offset start' stop' →
        start ≤ start' ∧ stop' ≤ stop) ∧
      e.snippet =
        String.ofList (Text.decodeLossy (bytesBetween (Text.bytes source.toList) start stop))

theorem ParseError.Blames.pointsInto {source : String} {e : ParseError} {t : Token}
    (h : e.Blames (Text.bytes source.toList) t) (ht : t ∈ scriptTokens source.toList) :
    e.PointsInto source := by
  have hplace : t.offset ≤ Text.size source.toList ∧
      ((∃ u ∈ (tokenize source).tokens, u.offset = t.offset) ∨
        t.offset = Text.size source.toList) := by
    rcases List.mem_append.1 ht with ht | ht
    · exact ⟨(Token.isOf_of_mem ht).offset_le, .inl ⟨t, ht, rfl⟩⟩
    · obtain rfl := List.mem_singleton.1 ht
      have hend : (endOfText (Text.bytes source.toList)).offset = Text.size source.toList :=
        Text.length_bytes _
      exact ⟨hend.le, .inr hend⟩
  have hinside : t.offset ≤ (Text.bytes source.toList).length := by
    rw [Text.length_bytes]
    exact hplace.1
  obtain ⟨start, stop, hfull, hsnippet⟩ := exists_full_window hinside
  exact ⟨t.offset, start, stop, hplace.1, hplace.2, h.position_eq, hfull,
    fun _ _ => hfull.greatest, h.snippet_eq.trans hsnippet⟩

/-! ## Streams that come to an end -/

/-- A script whose tokens end with a diagnostic of the scanner is rejected. -/
theorem exists_rejected_of_error {source : String} {t : Token}
    (hlast : (tokenize source).tokens.getLast? = some t) (hk : t.kind = .error) :
    ∃ e, parse source = .error (.rejected e) := by
  obtain ⟨start, hstart⟩ := List.getLast?_eq_some_iff.1 hlast
  obtain ⟨-, hended⟩ := Scanner.run_of_isLast _ (Text.suffixAt_size_append [] source.toList) hstart
    (by rw [hk]; rfl)
  refine (ParserCall.program.runOn_cases_of_ended hended).resolve_left ?_
  rintro ⟨p, hp⟩
  obtain ⟨ns, after, left, -, hreads⟩ := reads_of_parse hp
  obtain ⟨-, start', e, htokens, he, -⟩ := hreads.ends
  have heof : (tokenize source).tokens.getLast? = some e.token :=
    List.getLast?_eq_some_iff.2 ⟨start', htokens⟩
  rw [hlast, Option.some.injEq] at heof
  rw [heof, he] at hk
  cases hk

/-- **Diagnostics point into the script.** Whatever is rejected, a script or the body of a lambda,
is rejected at a token or at the end of the text, and what is shown is the greatest part of the text
around that place that is on its line and no further than ten bytes from it. A script that cannot be
scanned to its end is rejected. -/
theorem diagnostics_point_into (source : String) :
    (∀ e, parse source = .error (.rejected e) ∨ parseLambda source = .error (.rejected e) →
        e.PointsInto source) ∧
      ∀ t, (tokenize source).tokens.getLast? = some t → t.kind = .error →
        ∃ e, parse source = .error (.rejected e) := by
  refine ⟨fun e he => ?_, fun t => exists_rejected_of_error⟩
  obtain ⟨t, ht, hblames⟩ : ∃ t ∈ scriptTokens source.toList,
      e.Blames (Text.bytes source.toList) t := by
    rcases he with he | he
    · exact exists_blamed_of_parse he
    · exact exists_blamed_of_parseLambda he
  exact hblames.pointsInto ht

end

open scoped PatternEngine

/-- A sign that no token begins with, on the second line. Ten bytes before it the window begins
inside a character, and behind it the line ends. -/
theorem diagnostics_point_into_semicolon :
    (tokenize "var é =\n  'üüüüü'; // x\ny").tokens.getLast? =
        some ⟨.error, 23, "unknown state, last char: ';'"⟩ ∧
      ∃ e, parse "var é =\n  'üüüüü'; // x\ny" = .error (.rejected e) ∧
        e.position = ⟨23, 2, 15⟩ ∧ e.snippet = "\uFFFDüüüü'; // x" ∧
        e.PointsInto "var é =\n  'üüüüü'; // x\ny" := by
  have hlast : (tokenize "var é =\n  'üüüüü'; // x\ny").tokens.getLast? =
      some ⟨.error, 23, "unknown state, last char: ';'"⟩ := by decide +kernel
  obtain ⟨points, fails⟩ := diagnostics_point_into "var é =\n  'üüüüü'; // x\ny"
  obtain ⟨e, he⟩ := fails _ hlast rfl
  obtain ⟨e', he', hshown⟩ := exists_rejected_of_any
    (x := parse "var é =\n  'üüüüü'; // x\ny")
    (P := fun e => e.position = ⟨23, 2, 15⟩ ∧ e.snippet = "\uFFFDüüüü'; // x") (by decide +kernel)
  obtain rfl : e = e' := by
    rw [he] at he'
    cases he'
    rfl
  obtain ⟨hposition, hsnippet⟩ := of_decide_eq_true hshown
  exact ⟨hlast, e, he, hposition, hsnippet, points e (.inl he)⟩

end PipelineScript

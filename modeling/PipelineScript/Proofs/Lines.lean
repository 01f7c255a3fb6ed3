import PipelineScript.Proofs.Diagnostics

/-!
Lines and columns.

A line is found by counting newlines, and a column by looking back for the last of them, so it is to
be shown that the two fit together: a column is counted from the place where the line begins
(`lineStart_locate`), and that place has all the newlines of the line's number before it
(`LineStart.line_locate`). On the way from one offset to a later one either no newline is crossed,
and then the line begins where it began, or one is, and then there is a later line
(`locate_precedes`).
-/
namespace PipelineScript

/-! ## Where a line begins -/

/-- The line of an offset begins at the beginning of the text or right behind a newline, and no
newline stands between that place and the offset. -/
structure LineStart (bytes : List UInt8) (offset start : Nat) : Prop where
  le : start ≤ offset
  opens : start = 0 ∨ bytes[start - 1]? = some Position.newline
  line : Position.newline ∉ bytesBetween bytes start offset

section

variable {bytes : List UInt8} {offset start stop : Nat} {b : UInt8}

theorem exists_of_mem_bytesBetween (h : b ∈ bytesBetween bytes start stop) :
    ∃ i, start ≤ i ∧ i < stop ∧ bytes[i]? = some b := by
  obtain ⟨j, hj⟩ := List.mem_iff_getElem?.1 h
  rw [bytesBetween, List.getElem?_drop, List.getElem?_take] at hj
  split at hj
  · exact ⟨start + j, by omega, by assumption, hj⟩
  · cases hj

/-- An offset has one line only: if it began in two places, the later one would be behind a newline
on the line that began at the earlier one. -/
theorem LineStart.unique {start' : Nat} (h : LineStart bytes offset start)
    (h' : LineStart bytes offset start') : start = start' := by
  have hle {s t : Nat} (hs : LineStart bytes offset s) (ht : LineStart bytes offset t) : t ≤ s := by
    by_contra hlt
    have htop := ht.le
    rcases ht.opens with hzero | hnewline
    · omega
    · exact hs.line (mem_bytesBetween (by omega) (by omega) hnewline)
  exact Nat.le_antisymm (hle h' h) (hle h h')

/-- A line goes on up to the next newline. -/
theorem LineStart.extend (h : LineStart bytes offset start) {later : Nat} (hle : offset ≤ later)
    (hlater : later ≤ bytes.length) (hline : Position.newline ∉ bytesBetween bytes offset later) :
    LineStart bytes later start := by
  refine ⟨Nat.le_trans h.le hle, h.opens, ?_⟩
  rw [← bytesBetween_append h.le hle hlater, List.mem_append]
  rintro (hmem | hmem)
  · exact h.line hmem
  · exact hline hmem

/-- Newlines up to an offset are those up to a place before it, and those from there on. -/
theorem count_take_bytesBetween (b : UInt8) (h : start ≤ stop) :
    (bytes.take stop).count b =
      (bytes.take start).count b + (bytesBetween bytes start stop).count b := by
  have hsplit := List.take_append_drop start (bytes.take stop)
  rw [List.take_take, Nat.min_eq_left h] at hsplit
  rw [bytesBetween, ← List.count_append, hsplit]

end

/-! ## Places -/

namespace Position

variable {bytes : List UInt8} {offset start : Nat}

/-- A place comes before another as lines and columns tell: it is on an earlier line, or on the same
line in an earlier column. -/
def Precedes (p q : Position) : Prop :=
  p.line < q.line ∨ p.line = q.line ∧ p.column < q.column

/-- The last newline of a text, counted from the end. -/
theorem sinceNewline_eq_some {n : Nat} (h : sinceNewline bytes = some n) :
    n < bytes.length ∧ bytes[bytes.length - n - 1]? = some newline ∧
      ∀ i, bytes.length - n ≤ i → bytes[i]? ≠ some newline := by
  obtain ⟨hn, hat, hbehind⟩ := List.idxOf?_eq_some_iff.1 h
  rw [List.length_reverse] at hn
  refine ⟨hn, ?_, fun i hi hnewline => ?_⟩
  · rw [show bytes.length - n - 1 = bytes.length - 1 - n by omega, ← List.getElem?_reverse hn,
      List.getElem?_eq_getElem (by simpa using hn), hat]
  · obtain ⟨hlt, hi'⟩ := List.getElem?_eq_some_iff.1 hnewline
    refine hbehind (bytes.length - 1 - i) (by omega) ?_
    rw [List.getElem_reverse, ← hi']
    congr 1
    omega

/-- **A column is counted from the place where the line begins.** -/
theorem lineStart_locate (h : offset ≤ bytes.length) :
    ∃ start, LineStart bytes offset start ∧ (locate bytes offset).column = offset - start + 1 := by
  have hlen : (bytes.take offset).length = offset := List.length_take_of_le h
  have hinside {i : Nat} (hi : i < offset) : (bytes.take offset)[i]? = bytes[i]? :=
    List.getElem?_take_of_lt hi
  cases hlast : sinceNewline (bytes.take offset) with
  | none =>
    refine ⟨0, ⟨Nat.zero_le _, .inl rfl, fun hmem => ?_⟩, by simp [locate, hlast]⟩
    rw [sinceNewline, List.idxOf?_eq_none_iff, List.mem_reverse] at hlast
    exact hlast hmem
  | some n =>
    obtain ⟨hn, hnewline, hbehind⟩ := sinceNewline_eq_some hlast
    rw [hlen] at hn hnewline hbehind
    refine ⟨offset - n, ⟨Nat.sub_le .., .inr ?_, fun hmem => ?_⟩, ?_⟩
    · rw [← hinside (by omega), hnewline]
    · obtain ⟨i, hstart, hstop, hi⟩ := exists_of_mem_bytesBetween hmem
      exact hbehind i hstart ((hinside hstop).trans hi)
    · simp only [locate, hlast, hlen]
      omega

/-- The newlines of a line's number stand before the place where the line begins. -/
theorem line_locate (h : LineStart bytes offset start) :
    (locate bytes offset).line = (bytes.take start).count newline + 1 := by
  have hnone : (bytesBetween bytes start offset).count newline = 0 := List.count_eq_zero.2 h.line
  show 1 + (bytes.take offset).count newline = _
  rw [count_take_bytesBetween newline h.le, hnone]
  omega

/-- Going on in a text leads to a later column of the line or to a later line. -/
theorem locate_precedes {later : Nat} (hlt : offset < later) (hlater : later ≤ bytes.length) :
    (locate bytes offset).Precedes (locate bytes later) := by
  obtain ⟨start, hstart, hcolumn⟩ := lineStart_locate (Nat.le_trans hlt.le hlater)
  by_cases hline : newline ∈ bytesBetween bytes offset later
  · have hcrossed := List.count_pos_iff.2 hline
    refine .inl ?_
    show 1 + (bytes.take offset).count newline < 1 + (bytes.take later).count newline
    rw [count_take_bytesBetween newline hlt.le]
    omega
  · have hstart' := hstart.extend hlt.le hlater hline
    obtain ⟨other, hother, hcolumn'⟩ := lineStart_locate hlater
    obtain rfl := hstart'.unique hother
    have hle := hstart.le
    refine .inr ⟨by rw [line_locate hstart, line_locate hstart'], ?_⟩
    omega

/-- **Line and column determine the offset.** They come in the order of the offsets, so no two
places of a text share them; and from the column and the offset one finds the place where the line
begins, with one newline before it for each earlier line. -/
theorem locate_determines (bytes : List UInt8) :
    (∀ offset later, offset < later → later ≤ bytes.length →
        (locate bytes offset).Precedes (locate bytes later)) ∧
      (∀ offset other, offset ≤ bytes.length → other ≤ bytes.length →
        (locate bytes offset).line = (locate bytes other).line →
        (locate bytes offset).column = (locate bytes other).column → offset = other) ∧
      ∀ offset, offset ≤ bytes.length →
        let p := locate bytes offset
        1 ≤ p.column ∧ p.column - 1 ≤ offset ∧
          LineStart bytes offset (offset - (p.column - 1)) ∧
          p.line = (bytes.take (offset - (p.column - 1))).count newline + 1 ∧
          p.line = (bytes.take offset).count newline + 1 := by
  refine ⟨fun offset later => locate_precedes, fun offset other hoffset hother hline hcolumn => ?_,
    fun offset hoffset => ?_⟩
  · rcases Nat.lt_trichotomy offset other with hlt | heq | hlt
    · rcases locate_precedes hlt hother with hbefore | ⟨-, hbefore⟩ <;> omega
    · exact heq
    · rcases locate_precedes hlt hoffset with hbefore | ⟨-, hbefore⟩ <;> omega
  · obtain ⟨start, hstart, hcolumn⟩ := lineStart_locate hoffset
    have hle := hstart.le
    have hplace : offset - ((locate bytes offset).column - 1) = start := by omega
    dsimp only
    refine ⟨by omega, by omega, hplace.symm ▸ hstart, ?_, Nat.add_comm ..⟩
    rw [hplace, line_locate hstart]

/-- The end of a text whose last line is behind two empty ones. -/
theorem locate_determines_empty_lines :
    let bytes := Text.bytes "a\n\n\nvar b = ".toList
    locate bytes 3 = ⟨3, 3, 1⟩ ∧ locate bytes 12 = ⟨12, 4, 9⟩ ∧
      (locate bytes 3).Precedes (locate bytes 12) ∧
      (∀ offset ≤ 12, (locate bytes offset).line = 4 → (locate bytes offset).column = 9 →
        offset = 12) ∧
      LineStart bytes 12 4 ∧ 4 = (bytes.take 4).count newline + 1 := by
  intro bytes
  have hlocate : locate bytes 12 = ⟨12, 4, 9⟩ := by decide
  obtain ⟨ordered, injective, located⟩ := locate_determines bytes
  obtain ⟨-, -, hstart, hcount, -⟩ := located 12 (by decide)
  rw [hlocate] at hstart hcount
  refine ⟨by decide, hlocate, ordered 3 12 (by decide) (by decide), ?_, hstart, hcount⟩
  intro offset hoffset hline hcolumn
  exact injective offset 12 hoffset (by decide) (hline.trans (by decide))
    (hcolumn.trans (by decide))

end Position

end PipelineScript

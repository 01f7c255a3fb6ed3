import PipelineScript.Proofs.LiteralValues

/-!
The grammar of durations.

A literal is a run of segments, each a whole number and a unit. Reading takes the segments off one
by one (`sum_segment`). The only choice is made at an `m` before an `s`, and it is no choice: the
`s` belongs to the unit, since no segment begins with it. So a text is read just if it is a run of
segments that spell no more than the longest span, and then it is read as what they spell together
(`parse_eq_ok_iff`).
-/
namespace PipelineScript.Duration

/-- A segment of a literal: a whole number and a unit of `scale` nanoseconds. -/
structure Segment where
  digits : List Char
  scale : Nat
  unit : String
  isWhole_digits : Sign.isWhole digits = true
  mem_spellings : (scale, unit) ∈ spellings

/-- The text of a segment. -/
def Segment.text (s : Segment) : List Char := s.digits ++ s.unit.toList

/-- The nanoseconds that a segment spells. -/
def Segment.nanos (s : Segment) : Nat := digitsValue 10 s.digits * s.scale

/-- The text of a run of segments. -/
def runText (segments : List Segment) : List Char := segments.flatMap Segment.text

/-- The nanoseconds that a run of segments spells. -/
def runNanos (segments : List Segment) : Nat := (segments.map Segment.nanos).sum

@[simp] theorem runText_cons (s : Segment) (segments : List Segment) :
    runText (s :: segments) = s.digits ++ (s.unit.toList ++ runText segments) := by
  simp [runText, Segment.text]

@[simp] theorem runNanos_cons (s : Segment) (segments : List Segment) :
    runNanos (s :: segments) = s.nanos + runNanos segments := by
  simp [runNanos]

/-! ## Units -/

section

variable {c : Char} {cs ds rest text : List Char} {scale n total k : Nat} {unit : String}

theorem unitAt?_eq_some (h : unitAt? text = some (scale, rest)) :
    ∃ unit, (scale, unit) ∈ spellings ∧ text = unit.toList ++ rest := by
  cases text with
  | nil => cases h
  | cons c cs =>
    obtain ⟨⟨scale', wide⟩, hunit, heq⟩ := Option.map_eq_some_iff.1 h
    cases heq
    obtain ⟨hwide, unit, hmem, htext⟩ := unit?_eq_some hunit
    refine ⟨unit, hmem, ?_⟩
    cases wide with
    | false => simp [htext]
    | true =>
      obtain ⟨ds, rfl⟩ : ∃ ds, cs = 's' :: ds := by
        simpa [List.head?_eq_some_iff] using hwide rfl
      simp [htext]

theorem length_lt_of_unitAt? (h : unitAt? text = some (scale, rest)) :
    rest.length < text.length := by
  obtain ⟨unit, hmem, rfl⟩ := unitAt?_eq_some h
  obtain ⟨c, cs, hunit, -⟩ := exists_unit_eq_cons hmem
  simp only [hunit, List.length_append, List.length_cons]
  omega

/-! ## Reading a segment -/

theorem extend_eq_ok_iff : extend total n scale = .ok k ↔ k = total + n * scale ∧ k ≤ limit := by
  rw [extend]
  split
  · rename_i hle
    rw [Except.ok.injEq]
    exact ⟨fun h => ⟨h.symm, h ▸ hle⟩, fun h => h.1.symm⟩
  · rename_i hgt
    constructor
    · intro h
      cases h
    · rintro ⟨rfl, hle⟩
      exact absurd hle hgt

/-- **A segment is taken off a literal**: its number must be small enough, its unit must be one,
and the sum so far must not pass the longest span. -/
theorem sum_segment (total : Nat) (hds : Sign.isWhole ds = true) (hc : Text.isDigit c = false) :
    sum total none (ds ++ c :: cs) =
      if measureBound ≤ digitsValue 10 ds then .error .overflow
      else
        match unitAt? (c :: cs) with
        | some (scale, rest) =>
          (extend total (digitsValue 10 ds) scale).bind fun total => sum total none rest
        | none => .error .invalid := by
  rw [sum_whole total _ (Sign.ne_nil_of_isWhole hds) (natOfDigits?_of_isWhole hds)]
  exact sum_unitAt total _ hc

theorem sum_nondigit (total : Nat) (hc : Text.isDigit c = false) :
    sum total none (c :: cs) = .error .invalid := by
  cases cs <;> simp [sum, digitValue?_eq_none hc]

theorem sum_number (total : Nat) (hds : Sign.isWhole ds = true) :
    sum total none ds = .error .invalid := by
  have hsum := sum_whole total [] (Sign.ne_nil_of_isWhole hds) (natOfDigits?_of_isWhole hds)
  rw [List.append_nil] at hsum
  rw [hsum, sum]

end

/-- How the text of a literal begins, as far as the digits go. -/
inductive Beginning : List Char → Prop where
  | done : Beginning []
  | nondigit {c : Char} {cs : List Char} (hc : Text.isDigit c = false) : Beginning (c :: cs)
  | number {ds : List Char} (hds : Sign.isWhole ds = true) : Beginning ds
  | unit {ds : List Char} {c : Char} {cs : List Char} (hds : Sign.isWhole ds = true)
      (hc : Text.isDigit c = false) : Beginning (ds ++ c :: cs)

theorem beginning (text : List Char) : Beginning text := by
  cases text with
  | nil => exact .done
  | cons d ds =>
    cases hd : Text.isDigit d with
    | false => exact .nondigit hd
    | true =>
      have hwhole : Sign.isWhole ((d :: ds).takeWhile Text.isDigit) = true := by
        simp [Sign.isWhole, hd]
      have hsplit := List.takeWhile_append_dropWhile (p := Text.isDigit) (l := d :: ds)
      cases hrest : (d :: ds).dropWhile Text.isDigit with
      | nil =>
        rw [hrest, List.append_nil] at hsplit
        rw [← hsplit]
        exact .number hwhole
      | cons c cs =>
        have hc : Text.isDigit c = false := by
          simpa [hrest] using List.head?_dropWhile_not Text.isDigit (d :: ds)
        rw [← hsplit, hrest]
        exact .unit hwhole hc

/-! ## Runs of segments -/

theorem head?_runText_ne (segments : List Segment) : (runText segments).head? ≠ some 's' := by
  cases segments with
  | nil => simp [runText]
  | cons s segments =>
    obtain ⟨d, ds, hds⟩ := List.exists_cons_of_ne_nil (Sign.ne_nil_of_isWhole s.isWhole_digits)
    have hd : Text.isDigit d = true :=
      List.all_eq_true.1 (Sign.all_of_isWhole s.isWhole_digits) d (by simp [hds])
    rw [runText_cons, hds, List.cons_append, List.head?_cons, ne_eq, Option.some.injEq]
    rintro rfl
    cases hd

/-- A run of segments is read as its sum, unless that passes the longest span. -/
theorem sum_runText {total : Nat} (htotal : total ≤ limit) (segments : List Segment) :
    sum total none (runText segments) =
      if total + runNanos segments ≤ limit then .ok (total + runNanos segments)
      else .error .overflow := by
  induction segments generalizing total with
  | nil => simpa [runText, runNanos, sum] using htotal
  | cons s segments ih =>
    obtain ⟨c, cs, hunit, hc⟩ := exists_unit_eq_cons s.mem_spellings
    have hfound := unitAt?_append s.mem_spellings (head?_runText_ne segments)
    rw [hunit, List.cons_append] at hfound
    have hlarge : measureBound ≤ digitsValue 10 s.digits → limit < s.nanos := by
      intro hbound
      have hmul := Nat.mul_le_mul_left (digitsValue 10 s.digits) (one_le_of_mem s.mem_spellings)
      have hlimit : limit < measureBound := by decide
      rw [Segment.nanos]
      omega
    rw [runText_cons, hunit, List.cons_append, sum_segment total s.isWhole_digits hc, hfound,
      runNanos_cons, ← Nat.add_assoc]
    by_cases hbound : measureBound ≤ digitsValue 10 s.digits
    · have hpast := hlarge hbound
      rw [if_pos hbound, if_neg (by omega)]
    · rw [if_neg hbound]
      dsimp only
      rw [extend, show digitsValue 10 s.digits * s.scale = s.nanos from rfl]
      by_cases hle : total + s.nanos ≤ limit
      · rw [if_pos hle]
        exact ih hle
      · rw [if_neg hle, if_neg (by omega)]
        rfl

/-- What is read is a run of segments, as its sum. -/
theorem exists_segments_of_sum {total k : Nat} {text : List Char}
    (h : sum total none text = .ok k) :
    ∃ segments, text = runText segments ∧ k = total + runNanos segments := by
  induction hlen : text.length using Nat.strongRecOn generalizing total text with
  | ind length ih =>
    cases beginning text with
    | done =>
      cases h
      exact ⟨[], rfl, rfl⟩
    | nondigit hc =>
      rw [sum_nondigit total hc] at h
      cases h
    | number hds =>
      rw [sum_number total hds] at h
      cases h
    | @unit ds c cs hds hc =>
      rw [sum_segment total hds hc] at h
      split at h
      · cases h
      · split at h
        · rename_i scale rest hfound
          obtain ⟨unit, hmem, htext⟩ := unitAt?_eq_some hfound
          cases hext : extend total (digitsValue 10 ds) scale with
          | error e =>
            rw [hext] at h
            cases h
          | ok total' =>
            rw [hext] at h
            have hshorter : rest.length < length := by
              have hlt := length_lt_of_unitAt? hfound
              rw [← hlen, List.length_append]
              omega
            obtain ⟨segments, rfl, rfl⟩ := ih _ hshorter h rfl
            refine ⟨⟨ds, scale, unit, hds, hmem⟩ :: segments, ?_, ?_⟩
            · rw [htext, runText_cons]
            · rw [runNanos_cons, (extend_eq_ok_iff.1 hext).1, Segment.nanos, Nat.add_assoc]
        · cases h

/-- **A text is a duration** just if it is a run of segments that spells no more than the longest
span, and then it is what they spell. -/
theorem parse_eq_ok_iff (text : String) (d : Duration) :
    parse text = .ok d ↔
      ∃ segments : List Segment, segments ≠ [] ∧ text.toList = runText segments ∧
        d.nanos = runNanos segments ∧ d.nanos ≤ limit := by
  have hparse : parse text = .ok d ↔ text.toList ≠ [] ∧ sum 0 none text.toList = .ok d.nanos := by
    rw [parse, ← List.isEmpty_eq_false_iff]
    cases text.toList.isEmpty with
    | true => simp
    | false =>
      cases hsum : sum 0 none text.toList with
      | error fault => cases fault <;> simp
      | ok nanos =>
        cases d
        simp
  rw [hparse]
  constructor
  · rintro ⟨hne, hsum⟩
    obtain ⟨segments, htext, hnanos⟩ := exists_segments_of_sum hsum
    rw [Nat.zero_add] at hnanos
    refine ⟨segments, ?_, htext, hnanos, sum_le_limit (Nat.zero_le _) hsum⟩
    rintro rfl
    exact hne htext
  · rintro ⟨segments, hne, htext, hnanos, hle⟩
    have hsum := sum_runText (Nat.zero_le limit) segments
    rw [Nat.zero_add, ← hnanos, if_pos hle, ← htext] at hsum
    refine ⟨?_, hsum⟩
    cases segments with
    | nil => exact absurd rfl hne
    | cons s segments =>
      simp [htext, Sign.ne_nil_of_isWhole s.isWhole_digits]

end PipelineScript.Duration

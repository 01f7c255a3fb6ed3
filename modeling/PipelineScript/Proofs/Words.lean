import PipelineScript.Proofs.Segments

/-!
Durations in machine words.

`Duration.parse` computes with numbers of any size. Here a literal is read once more, with words of
128 bits in which every product and every sum is checked, and the result is cut down to seconds in
a word of 64 bits and nanoseconds in one of 32. Both readings agree on every text
(`Parts.map_span_parse`): a step that does not fit its word belongs to a literal that spells more
than the longest span, and what is at most that long fits into the two parts.
-/
namespace PipelineScript.Duration

/-- A number of 128 bits. -/
abbrev Word := BitVec 128

namespace Word

/-- The product, if it fits. -/
def mul? (a b : Word) : Option Word := if a.umulOverflow b then none else some (a * b)

/-- The sum, if it fits. -/
def add? (a b : Word) : Option Word := if a.uaddOverflow b then none else some (a + b)

/-- The number of a run of digits, most significant first, behind those that make `n`. -/
def ofDigits? (n : Word) : List Char → Option Word
  | [] => some n
  | c :: cs =>
    (mul? n 10).bind fun tens =>
      (add? tens (.ofNat 128 (c.toNat - 48))).bind fun m => ofDigits? m cs

end Word

/-- The sum of a segment and what came before it, if all of it fits and it does not pass the
longest span. -/
def extendWord (total measure scale : Word) : Except Fault Word :=
  match ((Word.mul? measure scale).bind (Word.add? total)).filter (· ≤ .ofNat 128 limit) with
  | some total => .ok total
  | none => .error .overflow

/-- Sums the segments of a literal in words. -/
def sumWords (total : Word) (text : List Char) : Except Fault Word :=
  if text.isEmpty then .ok total
  else if (Lexeme.digits text).1.isEmpty || (Lexeme.digits text).2.isEmpty then .error .invalid
  else
    match Word.ofDigits? 0 (Lexeme.digits text).1 with
    | none => .error .overflow
    | some measure =>
      match _ : unitAt? (Lexeme.digits text).2 with
      | none => .error .invalid
      | some (scale, rest) =>
        match extendWord total measure (.ofNat 128 scale) with
        | .ok total => sumWords total rest
        | .error e => .error e
termination_by text.length
decreasing_by
  have hrest := length_lt_of_unitAt? ‹unitAt? _ = _›
  have htext := congrArg List.length (Lexeme.digits_append text)
  rw [List.length_append] at htext
  omega

/-- A span in seconds and nanoseconds. -/
structure Parts where
  secs : UInt64
  nanos : UInt32
  nanos_lt : nanos.toNat < second
deriving DecidableEq, Repr

namespace Parts

/-- The span of its parts. -/
def span (p : Parts) : Duration := ⟨p.secs.toNat * second + p.nanos.toNat⟩

/-- The parts of some seconds and nanoseconds. Whole seconds of nanoseconds are carried over to the
seconds, if they fit there. -/
def ofSeconds? (secs : UInt64) (nanos : UInt32) : Option Parts :=
  if h : nanos.toNat < second then some ⟨secs, nanos, h⟩
  else if secs.toNat + nanos.toNat / second < UInt64.size then
    some ⟨secs + .ofNat (nanos.toNat / second), .ofNat (nanos.toNat % second),
      Nat.lt_of_le_of_lt (Nat.mod_le _ _) (Nat.mod_lt _ (by decide))⟩
  else none

/-- The parts of a number of nanoseconds, each cut down to its word. -/
def ofWord? (nanos : Word) : Option Parts :=
  ofSeconds? (.ofBitVec ((nanos / .ofNat 128 second).setWidth 64))
    (.ofBitVec ((nanos % .ofNat 128 second).setWidth 32))

/-- Reads a literal in words. -/
def parse (text : String) : Except DurationError (Option Parts) :=
  if text.toList.length < 2 then .error (.invalid text)
  else
    match sumWords 0 text.toList with
    | .ok nanos => .ok (ofWord? nanos)
    | .error .invalid => .error (.invalid text)
    | .error .overflow => .error (.overflow text)

end Parts

/-! ## Words that fit -/

section

variable {a b n total measure : Word} {scale v : Nat} {ds : List Char}

/-- The product is the product of the numbers, or that has more than 128 bits. -/
theorem Word.mul?_cases (a b : Word) :
    (∃ w, mul? a b = some w ∧ w.toNat = a.toNat * b.toNat) ∨
      mul? a b = none ∧ measureBound ≤ a.toNat * b.toNat := by
  by_cases h : 2 ^ 128 ≤ a.toNat * b.toNat
  · exact .inr ⟨if_pos (decide_eq_true h), h⟩
  · refine .inl ⟨a * b, if_neg fun hover => h (of_decide_eq_true hover), ?_⟩
    rw [BitVec.toNat_mul, Nat.mod_eq_of_lt (Nat.lt_of_not_le h)]

/-- The sum is the sum of the numbers, or that has more than 128 bits. -/
theorem Word.add?_cases (a b : Word) :
    (∃ w, add? a b = some w ∧ w.toNat = a.toNat + b.toNat) ∨
      add? a b = none ∧ measureBound ≤ a.toNat + b.toNat := by
  by_cases h : 2 ^ 128 ≤ a.toNat + b.toNat
  · exact .inr ⟨if_pos (decide_eq_true h), h⟩
  · refine .inl ⟨a + b, if_neg fun hover => h (of_decide_eq_true hover), ?_⟩
    rw [BitVec.toNat_add, Nat.mod_eq_of_lt (Nat.lt_of_not_le h)]

theorem toNat_lt_measureBound (n : Word) : n.toNat < measureBound := n.isLt

theorem le_of_natOfDigits? {base m : Nat} (hb : 1 ≤ base) (h : natOfDigits? base m ds = some v) :
    m ≤ v := by
  induction ds generalizing m with
  | nil =>
    cases h
    exact Nat.le_refl _
  | cons c cs ih =>
    obtain ⟨d, -, h⟩ := natOfDigits?_cons_eq_some_iff.1 h
    have hle := ih h
    have hmul := Nat.mul_le_mul_left m hb
    omega

/-- Digits are read in a word if their number fits. -/
theorem Word.map_toNat_ofDigits? (h : natOfDigits? 10 n.toNat ds = some v) :
    (ofDigits? n ds).map BitVec.toNat = if v < measureBound then some v else none := by
  induction ds generalizing n with
  | nil =>
    cases h
    rw [if_pos (toNat_lt_measureBound n)]
    rfl
  | cons c cs ih =>
    obtain ⟨d, hd, h⟩ := natOfDigits?_cons_eq_some_iff.1 h
    obtain ⟨-, hdigit, rfl⟩ := digitValue?_eq_some_iff.1 hd
    have hle := le_of_natOfDigits? (by decide) h
    rw [ofDigits?]
    -- What overflows on the way is too large already, and more digits only make it larger.
    obtain ⟨tens, htens, hvalue⟩ | ⟨hnone, hlarge⟩ := mul?_cases n 10
    · obtain ⟨m, hm, hsum⟩ | ⟨hnone, hlarge⟩ := add?_cases tens (.ofNat 128 (c.toNat - 48))
      · rw [htens, Option.bind_some, hm, Option.bind_some]
        refine ih ?_
        rw [hsum, hvalue, BitVec.toNat_ofNat, Nat.mod_eq_of_lt (by omega)]
        exact h
      · rw [hvalue, BitVec.toNat_ofNat, Nat.mod_eq_of_lt (by omega)] at hlarge
        rw [htens, Option.bind_some, hnone, if_neg]
        · rfl
        · exact Nat.not_lt.2 (Nat.le_trans hlarge hle)
    · rw [hnone, if_neg]
      · rfl
      · have hten : (10 : Word).toNat = 10 := rfl
        rw [hten] at hlarge
        omega

theorem lt_measureBound_of_mem {unit : String} (h : (scale, unit) ∈ spellings) :
    scale < measureBound := by
  have hall : ∀ u ∈ spellings, u.1 < measureBound := by decide
  exact hall _ h

/-- A product or a sum that does not fit is past the longest span. -/
theorem map_toNat_extendWord (hs : scale < measureBound) :
    (extendWord total measure (.ofNat 128 scale)).map BitVec.toNat =
      extend total.toNat measure.toNat scale := by
  have hlimit : limit < measureBound := by decide
  have hscale : (BitVec.ofNat 128 scale).toNat = scale := Nat.mod_eq_of_lt hs
  rw [extendWord, extend]
  obtain ⟨w, hw, hvalue⟩ | ⟨hnone, hlarge⟩ := Word.mul?_cases measure (.ofNat 128 scale)
  · rw [hscale] at hvalue
    obtain ⟨k, hk, hsum⟩ | ⟨hnone, hlarge⟩ := Word.add?_cases total w
    · have hle : k ≤ BitVec.ofNat 128 limit ↔ total.toNat + measure.toNat * scale ≤ limit := by
        rw [BitVec.le_def, hsum, hvalue, show (BitVec.ofNat 128 limit).toNat = limit from rfl]
      rw [hw, Option.bind_some, hk]
      by_cases hfits : total.toNat + measure.toNat * scale ≤ limit
      · simp [Option.filter, hle, hfits, Except.map, hsum, hvalue]
      · simp [Option.filter, hle, hfits, Except.map]
    · rw [hvalue] at hlarge
      rw [hw, Option.bind_some, hnone, if_neg (by omega)]
      rfl
  · rw [hscale] at hlarge
    rw [hnone, if_neg (by omega)]
    rfl

/-- A segment is taken off a literal in words. -/
theorem sumWords_segment {c : Char} {cs : List Char} (total : Word) (hds : Sign.isWhole ds = true)
    (hc : Text.isDigit c = false) :
    sumWords total (ds ++ c :: cs) =
      match Word.ofDigits? 0 ds with
      | none => .error .overflow
      | some measure =>
        match unitAt? (c :: cs) with
        | none => .error .invalid
        | some (scale, rest) =>
          (extendWord total measure (.ofNat 128 scale)).bind fun total => sumWords total rest := by
  have hdigits : Lexeme.digits (ds ++ c :: cs) = (ds, c :: cs) :=
    Sign.digits_append_cons (Sign.all_of_isWhole hds) hc
  have hnonempty : (ds ++ c :: cs).isEmpty = false := by simp
  have hsome : (ds.isEmpty || (c :: cs).isEmpty) = false := by simp [Sign.ne_nil_of_isWhole hds]
  rw [sumWords]
  simp only [hdigits, hnonempty, hsome, Bool.false_eq_true, if_false]
  cases Word.ofDigits? 0 ds with
  | none => rfl
  | some measure =>
    dsimp only
    split
    · rename_i hnone
      rw [hdigits] at hnone
      rw [hnone]
    · rename_i scale rest hfound
      rw [hdigits] at hfound
      rw [hfound]
      dsimp only
      cases extendWord total measure (.ofNat 128 scale) <;> rfl

/-- **Reading in words loses nothing.** -/
theorem map_toNat_sumWords (total : Word) (text : List Char) :
    (sumWords total text).map BitVec.toNat = sum total.toNat none text := by
  induction hlen : text.length using Nat.strongRecOn generalizing total text with
  | ind length ih =>
    cases beginning text with
    | done =>
      rw [sumWords]
      simp [sum, Except.map]
    | nondigit hc =>
      rw [sumWords]
      simp [Lexeme.digits, hc, sum_nondigit, Except.map]
    | number hds =>
      have hdigits : Lexeme.digits text = (text, []) := by
        simpa using Sign.digits_of_clear (Sign.all_of_isWhole hds) clear_nil
      rw [sumWords, sum_number _ hds, hdigits]
      simp [Sign.ne_nil_of_isWhole hds, Except.map]
    | @unit ds c cs hds hc =>
      have hread := Word.map_toNat_ofDigits? (n := 0) (natOfDigits?_of_isWhole hds)
      rw [sumWords_segment _ hds hc, sum_segment _ hds hc]
      by_cases hlarge : measureBound ≤ digitsValue 10 ds
      · rw [if_neg (Nat.not_lt.2 hlarge), Option.map_eq_none_iff] at hread
        rw [hread, if_pos hlarge]
        rfl
      · rw [if_pos (Nat.lt_of_not_le hlarge)] at hread
        obtain ⟨measure, hmeasure, hvalue⟩ := Option.map_eq_some_iff.1 hread
        rw [hmeasure, if_neg hlarge]
        cases hfound : unitAt? (c :: cs) with
        | none => rfl
        | some found =>
          obtain ⟨scale, rest⟩ := found
          obtain ⟨unit, hmem, -⟩ := unitAt?_eq_some hfound
          have hext : (extendWord total measure (.ofNat 128 scale)).map BitVec.toNat =
              extend total.toNat measure.toNat scale :=
            map_toNat_extendWord (lt_measureBound_of_mem hmem)
          have hshorter : rest.length < length := by
            have hlt : rest.length < (c :: cs).length := length_lt_of_unitAt? hfound
            rw [← hlen, List.length_append]
            omega
          dsimp only
          rw [← hvalue, ← hext]
          cases extendWord total measure (.ofNat 128 scale) with
          | error e => rfl
          | ok total => exact ih _ hshorter total rest rfl

/-! ## Parts that fit -/

/-- What is at most the longest span fits into its parts. -/
theorem Parts.exists_ofWord? (h : n.toNat ≤ limit) :
    ∃ p, ofWord? n = some p ∧ p.span = ⟨n.toNat⟩ := by
  have hsecond : (BitVec.ofNat 128 second).toNat = second := rfl
  have hsecs : ((n / BitVec.ofNat 128 second).setWidth 64).toNat = n.toNat / second := by
    have hlimit : limit / second < 2 ^ 64 := by decide
    have hle := Nat.div_le_div_right (c := second) h
    rw [BitVec.toNat_setWidth, BitVec.toNat_udiv, hsecond, Nat.mod_eq_of_lt (by omega)]
  have hmod : n.toNat % second < second := Nat.mod_lt _ (by decide)
  have hnanos : ((n % BitVec.ofNat 128 second).setWidth 32).toNat = n.toNat % second := by
    have hsize : second < 2 ^ 32 := by decide
    rw [BitVec.toNat_setWidth, BitVec.toNat_umod, hsecond, Nat.mod_eq_of_lt (by omega)]
  have hlt : (UInt32.ofBitVec ((n % BitVec.ofNat 128 second).setWidth 32)).toNat < second := by
    rw [UInt32.toNat_ofBitVec, hnanos]
    exact hmod
  refine ⟨⟨_, _, hlt⟩, dif_pos hlt, ?_⟩
  rw [span, UInt64.toNat_ofBitVec, UInt32.toNat_ofBitVec, hsecs, hnanos, Nat.mul_comm,
    Nat.div_add_mod]

/-- A text of less than two characters is no duration. -/
theorem parse_short {text : String} (h : text.toList.length < 2) :
    parse text = .error (.invalid text) := by
  have hsum (c : Char) : sum 0 none [c] = .error .invalid := by
    cases hc : Text.isDigit c with
    | false => exact sum_nondigit 0 hc
    | true => exact sum_number 0 (by simp [Sign.isWhole, hc])
  rw [parse]
  cases htext : text.toList with
  | nil => rfl
  | cons c cs =>
    rw [htext, List.length_cons] at h
    obtain rfl : cs = [] := List.length_eq_zero_iff.1 (by omega)
    rw [hsum c]
    rfl

/-- The two readings agree, and there are parts for what is read. -/
theorem Parts.map_span_parse (text : String) :
    (Parts.parse text).map (Option.map span) = (Duration.parse text).map some := by
  rw [Parts.parse]
  by_cases hlen : text.toList.length < 2
  · rw [if_pos hlen, parse_short hlen]
    rfl
  · have hne : text.toList.isEmpty = false := by
      cases htext : text.toList with
      | nil => simp [htext] at hlen
      | cons c cs => rfl
    have hsum := map_toNat_sumWords 0 text.toList
    rw [if_neg hlen, Duration.parse, hne]
    cases hread : sumWords 0 text.toList with
    | error fault =>
      rw [hread] at hsum
      rw [show sum 0 none text.toList = .error fault from hsum.symm]
      cases fault <;> rfl
    | ok n =>
      rw [hread] at hsum
      have hread : sum 0 none text.toList = .ok n.toNat := hsum.symm
      obtain ⟨p, hp, hspan⟩ := Parts.exists_ofWord? (sum_le_limit (Nat.zero_le _) hread)
      rw [hread]
      simp [Except.map, hp, hspan]

end

/-- **Durations are read exactly.** A text is a duration just if it is a run of segments, each one
or more digits and a unit, whose exact sum does not pass the longest span, and then it is that sum.
Read in words of 128 bits and stored in words of 64 and 32 bits, every text gives the same span or
the same failure. -/
theorem parse_exact (text : String) :
    (∀ d : Duration, Duration.parse text = .ok d ↔
      ∃ segments : List Segment, segments ≠ [] ∧ text.toList = runText segments ∧
        d.nanos = runNanos segments ∧ d.nanos ≤ limit) ∧
    (Parts.parse text).map (Option.map Parts.span) = (Duration.parse text).map some :=
  ⟨parse_eq_ok_iff text, Parts.map_span_parse text⟩

end PipelineScript.Duration

import Mathlib.Tactic.SplitIfs
import PipelineScript.Proofs.Spellable

/-!
Literals are read back.

For every kind of literal this module says which values are written as a sign that the scanner
delimits and the grammar reads as the same value. Whole numbers go through their digits in base
eight or ten, durations through the largest unit that divides them, and quoted texts through the
escapes of their closing mark.
-/
namespace PipelineScript

variable {engine : PatternEngine}

/-! ## Digits -/

theorem natOfDigits?_append (base m : Nat) (xs ys : List Char) :
    natOfDigits? base m (xs ++ ys) =
      (natOfDigits? base m xs).bind fun k => natOfDigits? base k ys := by
  induction xs generalizing m with
  | nil => rfl
  | cons c cs ih =>
    simp only [List.cons_append, natOfDigits?]
    cases digitValue? base c with
    | none => rfl
    | some d => exact ih _

theorem digitValue?_digitChar {base d : Nat} (hb : base ≤ 10) (hd : d < base) :
    digitValue? base d.digitChar = some d := by
  have hlt : d < 10 := by omega
  have hval := Nat.toNat_digitChar_of_lt_ten hlt
  have hdigit : Text.isDigit d.digitChar = true := by
    simp only [Text.isDigit, hval, Bool.and_eq_true, decide_eq_true_eq]
    omega
  exact digitValue?_eq_some_iff.2 ⟨hdigit, hd, by omega⟩

/-- The digits of a number spell it. -/
theorem natOfDigits?_natText (base : Nat) (h₁ : 1 < base) (h₂ : base ≤ 10) (n : Nat) :
    natOfDigits? base 0 (natText base n) = some n := by
  -- The last digit is the remainder, and the ones before it spell the quotient.
  induction n using Nat.strongRecOn with
  | ind n ih =>
    rw [natText, Nat.toDigits_eq_if h₁]
    split
    · rename_i hlt
      simp [natOfDigits?, digitValue?_digitChar h₂ hlt]
    · rename_i hge
      have hdiv : n / base < n := Nat.div_lt_self (by omega) h₁
      have ih := ih (n / base) hdiv
      rw [natText] at ih
      have hmod : n % base < base := Nat.mod_lt _ (by omega)
      rw [natOfDigits?_append, ih]
      simp only [Option.bind_some, natOfDigits?, digitValue?_digitChar h₂ hmod]
      rw [Nat.mul_comm, Nat.div_add_mod]

theorem isWhole_natText (base : Nat) (h₁ : 1 < base) (h₂ : base ≤ 10) (n : Nat) :
    Sign.isWhole (natText base n) = true := by
  have hne : natText base n ≠ [] := Nat.toDigits_ne_nil
  have hall : (natText base n).all Text.isDigit = true := by
    refine List.all_eq_true.2 fun c hc => ?_
    have hdigit := Nat.isDigit_of_mem_toDigits (by omega) h₂ hc
    rw [Sign.isDigit_iff]
    simp only [Char.isDigit, Bool.and_eq_true, decide_eq_true_eq, UInt32.le_iff_toNat_le,
      ge_iff_le] at hdigit
    exact hdigit
  simp [Sign.isWhole, hne, hall]

theorem head?_natText {n : Nat} (h : (natText 10 n).head? = some '0') : n = 0 := by
  induction n using Nat.strongRecOn with
  | ind n ih =>
    rw [natText, Nat.toDigits_eq_if (by decide)] at h
    split at h
    · simpa using h
    -- A number of several digits begins as its quotient does.
    · rename_i hge
      have hdiv : n / 10 < n := Nat.div_lt_self (by omega) (by decide)
      have hne : natText 10 (n / 10) ≠ [] := Nat.toDigits_ne_nil
      obtain ⟨c, cs, hcs⟩ := List.exists_cons_of_ne_nil hne
      rw [natText] at hcs
      have := ih (n / 10) hdiv (by simpa [natText, hcs] using h)
      omega

/-! ## Numbers -/

theorem readInt?_of_isWhole {base : Nat} {ds : List Char} (h : Sign.isWhole ds = true) :
    readInt? base ds = (natOfDigits? base 0 ds).map fun n => (n : Int) := by
  obtain ⟨c, cs, rfl, hc⟩ := Sign.exists_cons_of_isWhole h
  have hne : ∀ d, Text.isDigit d = false → c ≠ d := fun _ => Text.ne_of_test hc
  simp [readInt?, readNat?, hne '-' (by decide), hne '+' (by decide)]

theorem not_contains_of_isWhole {ds : List Char} (h : Sign.isWhole ds = true) :
    ds.contains '.' = false := by
  rw [List.contains_eq_mem, decide_eq_false_iff_not]
  intro hmem
  have := List.all_eq_true.1 (Sign.all_of_isWhole h) '.' hmem
  exact absurd this (by decide)

theorem int64OfInt?_toInt (value : Int64) : int64OfInt? value.toInt = some value := by
  have h₁ := value.le_toInt
  have h₂ := value.toInt_lt
  rw [int64OfInt?, if_pos ⟨by simpa using h₁, by simpa using h₂⟩, Int64.ofInt_toInt]

namespace Number

/-- The digits of a whole number; octal ones begin with a zero. -/
def digits (base : UInt32) (n : Nat) : List Char :=
  if base = Node.octalBase then '0' :: natText 8 n else natText 10 n

theorem digits_octal (n : Nat) : digits Node.octalBase n = '0' :: natText 8 n := if_pos rfl

theorem digits_decimal (n : Nat) : digits Node.decimalBase n = natText 10 n := if_neg (by decide)

theorem render_int (value : Int64) (base : UInt32) :
    (Number.int value base).render =
      (if value.toInt < 0 then ['-'] else []) ++ digits base value.toInt.natAbs := rfl

theorem isWhole_digits (base : UInt32) (n : Nat) : Sign.isWhole (digits base n) = true := by
  rw [digits]
  split
  · have hzero : Text.isDigit '0' = true := by decide
    have hdigits := isWhole_natText 8 (by decide) (by decide) n
    simp [Sign.isWhole, hzero, Sign.all_of_isWhole hdigits]
  · exact isWhole_natText 10 (by decide) (by decide) n

variable {base : UInt32}

theorem readInt?_digits (hb : base = Node.octalBase ∨ base = Node.decimalBase) (n : Nat) :
    readInt? base.toNat (digits base n) = some (n : Int) := by
  rw [readInt?_of_isWhole (isWhole_digits base n)]
  rcases hb with rfl | rfl
  · have hzero : digitValue? 8 '0' = some 0 := by decide
    have hoctal : Node.octalBase.toNat = 8 := rfl
    rw [digits_octal, hoctal, natOfDigits?, hzero]
    simp [natOfDigits?_natText 8 (by decide) (by decide) n]
  · have hdecimal : Node.decimalBase.toNat = 10 := rfl
    rw [digits_decimal, hdecimal, natOfDigits?_natText 10 (by decide) (by decide)]
    rfl

/-- The digits alone tell the base: a zero in front of others is octal, and no decimal number has
one. -/
theorem base_digits (hb : base = Node.octalBase ∨ base = Node.decimalBase) (n : Nat) :
    (if (digits base n).head? = some '0' ∧ 1 < (digits base n).length then Node.octalBase
      else Node.decimalBase) = base := by
  rcases hb with rfl | rfl
  · have hlen : 0 < (natText 8 n).length := List.length_pos_iff.2 Nat.toDigits_ne_nil
    rw [digits_octal, if_pos ⟨rfl, by simpa using hlen⟩]
  · rw [digits_decimal, if_neg]
    rintro ⟨hhead, hlen⟩
    rw [head?_natText hhead] at hlen
    simp [natText] at hlen

/-- Digits are read in the base they are written in, if their number fits. -/
theorem ofText?_digits (hb : base = Node.octalBase ∨ base = Node.decimalBase) (n : Nat) :
    Number.ofText? (digits base n) = (int64OfInt? n).map fun value => .int value base := by
  rw [Number.ofText?, not_contains_of_isWhole (isWhole_digits base n)]
  simp only [Bool.false_eq_true, if_false, base_digits hb, readInt?_digits hb]

/-- A whole number that is not negative is read back in the base it is written in. -/
theorem ofText?_render_int {value : Int64} (hv : 0 ≤ value.toInt)
    (hb : base = Node.octalBase ∨ base = Node.decimalBase) :
    Sign.isWhole (Number.int value base).render = true ∧
      Number.ofText? (Number.int value base).render = some (.int value base) := by
  have habs : (value.toInt.natAbs : Int) = value.toInt := by omega
  rw [render_int, if_neg (by omega), List.nil_append, ofText?_digits hb, habs, int64OfInt?_toInt]
  exact ⟨isWhole_digits base _, rfl⟩

end Number

/-! ## Durations -/

theorem Duration.sum_cons_digit {c : Char} {d : Nat} (h : digitValue? 10 c = some d) (total : Nat)
    (measure? : Option Nat) (cs : List Char) :
    Duration.sum total measure? (c :: cs) =
      Duration.sum total (some (measure?.getD 0 * 10 + d)) cs := by
  cases measure? <;> rw [Duration.sum.eq_def] <;> simp [h]

/-- The digits of a segment add up to its number. -/
theorem Duration.sum_digits (total : Nat) {m v : Nat} {ds : List Char} (rest : List Char)
    (h : natOfDigits? 10 m ds = some v) :
    Duration.sum total (some m) (ds ++ rest) = Duration.sum total (some v) rest := by
  induction ds generalizing m with
  | nil => cases h; rfl
  | cons d ds ih =>
    obtain ⟨k, hd, h⟩ := natOfDigits?_cons_eq_some_iff.1 h
    rw [List.cons_append, Duration.sum_cons_digit hd]
    exact ih h

theorem Duration.sum_whole (total : Nat) {n : Nat} {ds : List Char} (rest : List Char)
    (hne : ds ≠ []) (h : natOfDigits? 10 0 ds = some n) :
    Duration.sum total none (ds ++ rest) = Duration.sum total (some n) rest := by
  cases ds with
  | nil => contradiction
  | cons d ds =>
    obtain ⟨k, hd, h⟩ := natOfDigits?_cons_eq_some_iff.1 h
    rw [List.cons_append, Duration.sum_cons_digit hd]
    exact Duration.sum_digits total rest (by simpa using h)

/-- The units that a literal may have, and what they stand for: those of canonical text, and another
letter for a microsecond. -/
def Duration.spellings : List (Nat × String) := (micro, "µ") :: units

namespace Duration

variable {c : Char} {cs rest : List Char} {scale : Nat} {unit : String}

/-- The nanoseconds of the unit that a text begins with, and the text behind it. -/
def unitAt? : List Char → Option (Nat × List Char)
  | [] => none
  | c :: cs =>
    (unit? c (cs.head? == some 's')).map fun (scale, wide) => (scale, if wide then cs.tail else cs)

theorem unit?_eq_some {s wide : Bool} (h : unit? c s = some (scale, wide)) :
    (wide = true → s = true) ∧
      ∃ unit, (scale, unit) ∈ spellings ∧ unit.toList = if wide then [c, 's'] else [c] := by
  rw [unit?] at h
  split_ifs at h with hn hs hu hm hs hsec hh hd hw
  all_goals cases h
  · exact ⟨fun _ => hs, "ns", by decide, by rw [hn]; rfl⟩
  · rcases hu with rfl | rfl
    · exact ⟨nofun, "u", by decide, rfl⟩
    · exact ⟨nofun, "µ", by decide, rfl⟩
  · exact ⟨fun _ => hs, "ms", by decide, by rw [hm]; rfl⟩
  · exact ⟨nofun, "m", by decide, by rw [hm]; rfl⟩
  · exact ⟨nofun, "s", by decide, by rw [hsec]; rfl⟩
  · exact ⟨nofun, "h", by decide, by rw [hh]; rfl⟩
  · exact ⟨nofun, "d", by decide, by rw [hd]; rfl⟩
  · exact ⟨nofun, "w", by decide, by rw [hw]; rfl⟩

/-- A unit is found where no `s` follows it. -/
theorem unitAt?_append (hu : (scale, unit) ∈ spellings) (hrest : rest.head? ≠ some 's') :
    unitAt? (unit.toList ++ rest) = some (scale, rest) := by
  have hs : (rest.head? == some 's') = false := by simpa using hrest
  simp only [spellings, units, List.mem_cons, List.not_mem_nil, or_false, Prod.mk.injEq] at hu
  rcases hu with ⟨rfl, rfl⟩ | ⟨rfl, rfl⟩ | ⟨rfl, rfl⟩ | ⟨rfl, rfl⟩ | ⟨rfl, rfl⟩ | ⟨rfl, rfl⟩ |
    ⟨rfl, rfl⟩ | ⟨rfl, rfl⟩ | ⟨rfl, rfl⟩ <;>
  simp [unitAt?, unit?, hs]

theorem exists_unit_eq_cons (hu : (scale, unit) ∈ spellings) :
    ∃ c cs, unit.toList = c :: cs ∧ Text.isDigit c = false := by
  have hall : ∀ u ∈ spellings, u.2.toList.head?.map Text.isDigit = some false := by decide
  have hhead := hall _ hu
  cases htext : unit.toList with
  | nil => simp [htext] at hhead
  | cons c cs => exact ⟨c, cs, rfl, by simpa [htext] using hhead⟩

theorem digitValue?_eq_none (hc : Text.isDigit c = false) : digitValue? 10 c = none := by
  simp [digitValue?, hc]

/-- Behind its number a segment has a unit, or is none. -/
theorem sum_unitAt (total n : Nat) (hc : Text.isDigit c = false) :
    sum total (some n) (c :: cs) =
      if measureBound ≤ n then .error .overflow
      else
        match unitAt? (c :: cs) with
        | some (scale, rest) => (extend total n scale).bind fun total => sum total none rest
        | none => .error .invalid := by
  have hdigit := digitValue?_eq_none hc
  cases cs with
  | nil =>
    cases hunit : unit? c false with
    | none => simp [sum, hdigit, unitAt?, hunit]
    | some found =>
      obtain ⟨scale, wide⟩ := found
      have hwide : wide = false := by simpa using (unit?_eq_some hunit).1
      subst hwide
      cases hext : extend total n scale <;>
      simp [sum, hdigit, unitAt?, hunit, hext, Except.bind]
  | cons d ds =>
    cases hunit : unit? c (d == 's') with
    | none => simp [sum, hdigit, unitAt?, hunit]
    | some found =>
      obtain ⟨scale, wide⟩ := found
      cases wide <;> cases hext : extend total n scale <;>
      simp [sum, hdigit, unitAt?, hunit, hext, Except.bind]

/-- A unit ends the segment whose number is `n`. -/
theorem sum_unit (hu : (scale, unit) ∈ spellings) (n : Nat) :
    Duration.sum 0 (some n) unit.toList =
      if measureBound ≤ n then .error .overflow else extend 0 n scale := by
  obtain ⟨c, cs, hunit, hc⟩ := exists_unit_eq_cons hu
  have hfound : unitAt? (unit.toList ++ []) = some (scale, []) := unitAt?_append hu (by simp)
  rw [List.append_nil, hunit] at hfound
  rw [hunit, sum_unitAt 0 n hc, hfound]
  cases hsum : extend 0 n scale <;> simp [hsum, Except.bind, sum]

end Duration

theorem Duration.one_le_of_mem {scale : Nat} {unit : String} (hu : (scale, unit) ∈ spellings) :
    1 ≤ scale := by
  have hall : ∀ u ∈ spellings, 1 ≤ u.1 := by decide
  exact hall _ hu

/-- A number and a unit are read back, unless they spell more than the longest span. -/
theorem Duration.parse_segment {scale n : Nat} {ds : List Char} {unit : String} (hne : ds ≠ [])
    (hd : natOfDigits? 10 0 ds = some n) (hu : (scale, unit) ∈ spellings) :
    let text := String.ofList (ds ++ unit.toList)
    Duration.parse text =
      if n * scale ≤ limit then .ok ⟨n * scale⟩ else .error (.overflow text) := by
  have hbound : n * scale ≤ limit → ¬ measureBound ≤ n := by
    have hmul : n * 1 ≤ n * scale := Nat.mul_le_mul_left n (one_le_of_mem hu)
    have hlimit : limit < measureBound := by decide
    omega
  have hempty : (ds ++ unit.toList).isEmpty = false := by simp [hne]
  intro text
  rw [Duration.parse, String.toList_ofList, hempty, Duration.sum_whole 0 _ hne hd,
    Duration.sum_unit hu]
  by_cases hle : n * scale ≤ limit
  · simp [hbound hle, extend, hle]
  · by_cases hlarge : measureBound ≤ n
    · simp [hlarge, hle]
    · simp [hlarge, extend, hle]

/-- The units of canonical text that the scanner knows, and what they stand for. -/
def Duration.scannedUnits : List (Nat × String) :=
  [(week, "w"), (day, "d"), (hour, "h"), (minute, "m"), (second, "s"), (milli, "ms"), (micro, "u")]

/-- The largest unit of canonical text that divides a span. -/
structure Duration.Largest (d : Duration) (scale : Nat) (unit : String) : Prop where
  mem : (scale, unit) ∈ units
  dvd : scale ∣ d.nanos
  le_of_dvd : ∀ u ∈ units, u.1 ∣ d.nanos → u.1 ≤ scale

/-- The units stand from the largest, so the first that divides a span is the largest. -/
theorem Duration.largest_of_find? {d : Duration} {scale : Nat} {unit : String}
    (h : units.find? (fun unit => d.nanos % unit.1 == 0) = some (scale, unit)) :
    d.Largest scale unit := by
  obtain ⟨hdvd, before, after, hunits, hbefore⟩ := List.find?_eq_some_iff_append.1 h
  have hsorted : units.Pairwise fun u v => v.1 < u.1 := by decide
  have hmod : d.nanos % scale = 0 := by simpa using hdvd
  refine ⟨List.mem_of_find?_eq_some h, Nat.dvd_of_mod_eq_zero hmod, fun u hu hu' => ?_⟩
  rw [hunits, List.mem_append, List.mem_cons] at hu
  rw [hunits, List.pairwise_append, List.pairwise_cons] at hsorted
  -- A unit before the one that was found does not divide the span, and one behind it is smaller.
  rcases hu with hu | rfl | hu
  · have hnot := hbefore u hu
    simp [Nat.mod_eq_zero_of_dvd hu'] at hnot
  · exact Nat.le_refl _
  · exact Nat.le_of_lt (hsorted.2.1.1 u hu)

/-- Every span has a largest unit, and is written with it unless it is no time at all. -/
theorem Duration.exists_largest (d : Duration) :
    ∃ scale unit, d.Largest scale unit ∧ (d.nanos ≠ 0 →
      d.render = String.ofList (natText 10 (d.nanos / scale)) ++ unit) := by
  -- The last unit divides every span, so one is found.
  obtain ⟨⟨scale, unit⟩, hfind⟩ :
      ∃ u, units.find? (fun unit => d.nanos % unit.1 == 0) = some u := by
    refine Option.ne_none_iff_exists'.1 fun hnone => ?_
    have := List.find?_eq_none.1 hnone (1, "ns") (by decide)
    simp [Nat.mod_one] at this
  refine ⟨scale, unit, largest_of_find? hfind, fun hne => ?_⟩
  rw [Duration.render, if_neg hne, hfind]

theorem Duration.mem_units_iff {u : Nat × String} :
    u ∈ units ↔ u ∈ scannedUnits ∨ u = (1, "ns") := by
  have hunits : units = scannedUnits ++ [(1, "ns")] := rfl
  rw [hunits, List.mem_append, List.mem_singleton]

/-- The scanner knows the largest unit of whole microseconds. -/
theorem Duration.Largest.mem_scannedUnits {d : Duration} {scale : Nat} {unit : String}
    (h : d.Largest scale unit) (hd : micro ∣ d.nanos) : (scale, unit) ∈ scannedUnits := by
  rcases mem_units_iff.1 h.mem with hmem | heq
  · exact hmem
  · cases heq
    exact absurd (h.le_of_dvd (micro, "u") (by decide) hd) (by decide)

/-- A span is written as a number and a unit, and one of whole microseconds with a unit that the
scanner knows. -/
theorem Duration.render_eq_segment (d : Duration) :
    ∃ n scale unit, (scale, unit) ∈ units ∧ d.nanos = n * scale ∧
      d.render = String.ofList (natText 10 n ++ unit.toList) ∧
      (d.nanos % micro = 0 → (scale, unit) ∈ scannedUnits) := by
  by_cases hzero : d.nanos = 0
  · refine ⟨0, second, "s", by decide, by simp [hzero], ?_, fun _ => by decide⟩
    simp [Duration.render, hzero]
    rfl
  · obtain ⟨scale, unit, hlargest, hrender⟩ := d.exists_largest
    refine ⟨d.nanos / scale, scale, unit, hlargest.mem, (Nat.div_mul_cancel hlargest.dvd).symm, ?_,
      fun hd => hlargest.mem_scannedUnits (Nat.dvd_of_mod_eq_zero hd)⟩
    rw [hrender hzero]
    simp

/-- A span is read back from its canonical text if a literal may spell it. -/
theorem Duration.parse_render (d : Duration) :
    parse d.render = if d.nanos ≤ limit then .ok d else .error (.overflow d.render) := by
  obtain ⟨n, scale, unit, hu, hn, hrender, -⟩ := d.render_eq_segment
  have hne : natText 10 n ≠ [] := Nat.toDigits_ne_nil
  have hspell := natOfDigits?_natText 10 (by decide) (by decide) n
  rw [hrender, parse_segment hne hspell (List.mem_cons_of_mem _ hu), ← hn]

theorem Duration.le_limit_of_extend {total measure scale k : Nat}
    (h : extend total measure scale = .ok k) : k ≤ limit := by
  rw [extend] at h
  split at h
  · cases h; assumption
  · cases h

theorem Duration.sum_le_limit {total : Nat} {measure? : Option Nat} {cs : List Char} {k : Nat}
    (ht : total ≤ limit) (h : Duration.sum total measure? cs = .ok k) : k ≤ limit := by
  fun_induction Duration.sum total measure? cs with
  | case1 => cases h; exact ht
  | case3 _ _ _ _ _ _ ih => exact ih ht h
  | case6 => exact le_limit_of_extend h
  | case8 _ _ _ _ _ _ _ _ _ _ hextend ih | case10 _ _ _ _ _ _ _ _ _ _ hextend ih =>
    exact ih (le_limit_of_extend hextend) h
  | _ => cases h

/-- A literal that is read spells no more than the longest span. -/
theorem Duration.le_limit_of_parse {text : String} {d : Duration} (h : parse text = .ok d) :
    d.nanos ≤ limit := by
  rw [parse] at h
  split at h
  · cases h
  · split at h
    · cases h
      exact sum_le_limit (Nat.zero_le _) (by assumption)
    · cases h
    · cases h

theorem Duration.isUnitText_of_mem {scale : Nat} {unit : String}
    (hu : (scale, unit) ∈ scannedUnits) : Sign.isUnitText unit.toList = true := by
  have hall : ∀ u ∈ scannedUnits, Sign.isUnitText u.2.toList = true := by decide
  exact hall _ hu

/-! ## Quoted texts -/

namespace Node

/-- A text in single quotes that does not begin with three of them. -/
theorem stringBody?_single {body : List Char} (h : body.head? ≠ some '\'') :
    stringBody? ('\'' :: (body ++ ['\''])) = some (Text.unescapeMark '\'' body, false) := by
  -- The second character is no quote, or there are only two characters.
  have hsingle : ¬(6 ≤ Text.size ('\'' :: (body ++ ['\''])) ∧
      ['\'', '\'', '\''].isPrefixOf ('\'' :: (body ++ ['\''])) = true) := by
    rintro ⟨hsize, hp⟩
    cases body with
    | nil => exact absurd hsize (by decide)
    | cons c cs =>
      simp at hp h
      exact h hp.1.symm
  rw [stringBody?, if_neg hsingle, Text.dropEnds_cons_append]

theorem stringOfText?_quotedBy (info : Info) (literal : String) :
    stringOfText? info (String.ofList (quotedBy '\'' literal)) =
      some (.string info literal false) := by
  rw [stringOfText?, String.toList_ofList, quotedBy,
    stringBody?_single (Text.head?_escapeMark_ne _ (by decide) _),
    Text.unescapeMark_escapeMark _ (by decide)]
  simp

theorem referenceOfText_quotedBy (info : Info) (name : String) :
    referenceOfText info (String.ofList (quotedBy '"' name)) = .reference info name := by
  rw [referenceOfText, String.toList_ofList, quotedBy, Text.dropEnds_cons_append,
    Text.unescapeMark_escapeMark _ (by decide), String.ofList_toList]

end Node

/-! ## Signs of literals -/

section

variable {info : Info}

theorem spells_int {value : Int64} {base : UInt32} (hv : 0 ≤ value.toInt)
    (hb : base = Node.octalBase ∨ base = Node.decimalBase) :
    Spells (.number info (.int value base)) ⟨.number, (Number.int value base).render⟩ := by
  obtain ⟨hwhole, hread⟩ := Number.ofText?_render_int hv hb
  refine ⟨fun rest hrest => .whole hwhole hrest, fun bytes t ht => ?_⟩
  have hk := Slot.kind_of_sign ht
  have htext := Slot.text_of_sign ht
  have hvalue : Number.ofText t.token.text = .ok (.int value base) := by
    rw [Number.ofText, htext, String.toList_ofList, hread]
  exact ⟨_, ⟨by simp [Node.same, Number.same], rfl, rfl⟩, fun rest => .number hk hvalue⟩

theorem spells_bool {value : Bool} :
    Spells (.bool info value) ⟨.bool value, (if value then "TRUE" else "FALSE").toList⟩ := by
  refine ⟨fun rest hrest => ?_, fun bytes t ht => ?_⟩
  · cases value <;> exact .keyword (by decide) (by decide) (by decide) hrest
  · exact ⟨_, ⟨by simp [Node.same], rfl, rfl⟩, fun rest => .bool (Slot.kind_of_sign ht)⟩

theorem spells_star : Spells (.star info) ⟨.star, ['*']⟩ :=
  ⟨fun _ _ => .star, fun _ _ ht =>
    ⟨_, ⟨by simp [Node.same], rfl, rfl⟩, fun _ => .star (Slot.kind_of_sign ht)⟩⟩

/-- A duration that spells its span and that the scanner reads as one segment. -/
theorem spells_duration {span : Duration} (literal : String) {whole unit : List Char}
    (htext : (if literal.isEmpty then span.render else literal).toList = whole ++ unit)
    (hw : Sign.isWhole whole = true) (hu : Sign.isUnitText unit = true)
    (hread : Duration.parse (String.ofList (whole ++ unit)) = .ok span) :
    Spells (.duration info span literal)
      ⟨.duration, (if literal.isEmpty then span.render else literal).toList⟩ := by
  rw [htext]
  refine ⟨fun rest hrest => .duration hw hu hrest, fun bytes t ht => ?_⟩
  have hk := Slot.kind_of_sign ht
  have ht := Slot.text_of_sign ht
  have hsign : (Node.duration (t.info bytes) span t.token.text).literalSign? =
      some ⟨.duration, whole ++ unit⟩ := by
    simp [Node.literalSign?, ht, Sign.ne_nil_of_isWhole hw]
  refine ⟨_, ⟨by simp [Node.same], hsign, rfl⟩, fun rest => ?_⟩
  exact .duration hk (by rw [Node.durationOfText, ht, hread])

/-- A span of whole microseconds that a literal may spell. -/
theorem spells_span {span : Duration} (hd : span.nanos % Duration.micro = 0)
    (hlimit : span.nanos ≤ Duration.limit) :
    Spells (.duration info span "") ⟨.duration, span.render.toList⟩ := by
  obtain ⟨n, scale, unit, -, -, hrender, hu⟩ := span.render_eq_segment
  have hread := span.parse_render
  rw [if_pos hlimit, hrender] at hread
  have htext : span.render.toList = natText 10 n ++ unit.toList := by
    rw [hrender, String.toList_ofList]
  exact spells_duration "" htext (isWhole_natText 10 (by decide) (by decide) n)
    (Duration.isUnitText_of_mem (hu hd)) hread

/-- A string in single quotes that does not end in a backslash. -/
theorem spells_string {literal : String} (h : literal.toList.getLast? ≠ some '\\') :
    Spells (.string info literal false) ⟨.string, quotedBy '\'' literal⟩ := by
  have hquote : (Text.escapeMark '\'' literal.toList).head? ≠ some '\'' :=
    Text.head?_escapeMark_ne _ (by decide) _
  refine ⟨fun rest hrest => .string (Sign.closes_escapeMark (by decide) h) hquote hrest,
    fun bytes t ht => ?_⟩
  have hk := Slot.kind_of_sign ht
  have ht := Slot.text_of_sign ht
  refine ⟨.string (t.info bytes) literal false, ⟨by simp [Node.same], rfl, rfl⟩,
    fun rest => .string hk ?_⟩
  rw [ht, Node.stringOfText?_quotedBy]

/-- A reference that does not end in a backslash. -/
theorem spells_reference {name : String} (h : name.toList.getLast? ≠ some '\\') :
    Spells (.reference info name) ⟨.reference, quotedBy '"' name⟩ := by
  refine ⟨fun rest _ => .reference (Sign.closes_escapeMark (by decide) h), fun bytes t ht => ?_⟩
  have hk := Slot.kind_of_sign ht
  have ht := Slot.text_of_sign ht
  refine ⟨.reference (t.info bytes) name, ⟨by simp [Node.same], rfl, rfl⟩, fun rest => ?_⟩
  rw [← Node.referenceOfText_quotedBy, ← ht]
  exact .reference hk

/-- A regex whose literal ends where it should and stands for its pattern. -/
theorem spells_regex {pattern : Pattern} {literal : String} (h : Sign.Closes '/' literal.toList)
    (hread : ∀ info, ∃ pattern',
      Node.regexOfLiteral info literal = .ok (.regex info pattern' literal) ∧
        pattern'.text = pattern.text) :
    Spells (.regex info pattern literal) ⟨.regex, '/' :: (literal.toList ++ ['/'])⟩ := by
  refine ⟨fun rest _ => .regex h, fun bytes t ht => ?_⟩
  have hk := Slot.kind_of_sign ht
  have ht := Slot.text_of_sign ht
  obtain ⟨pattern', hregex, hsame⟩ := hread (t.info bytes)
  refine ⟨.regex (t.info bytes) pattern' literal, ⟨?_, rfl, rfl⟩, fun rest => .regex hk ?_⟩
  · simp [Node.same, hsame]
  · rw [Node.regexOfText, ht, String.toList_ofList, Text.dropEnds_cons_append,
      String.ofList_toList, hregex]

/-- A regex that was built from a pattern that does not end in a backslash. -/
theorem spells_pattern {pattern : String} {n : Node} (hn : Node.ofPattern pattern = .ok n)
    (h : pattern.toList.getLast? ≠ some '\\') :
    ∃ p literal, n = .regex .built p literal ∧
      Spells n ⟨.regex, '/' :: (literal.toList ++ ['/'])⟩ := by
  obtain ⟨p, rfl, rfl⟩ := Node.ofPattern_eq_ok_iff.1 hn
  refine ⟨p, _, rfl, spells_regex ?_ fun info =>
    ⟨p, Node.regexOfLiteral_eq_ok_iff.2 ⟨p, ?_, rfl⟩, rfl⟩⟩
  · rw [String.toList_ofList]
    exact Sign.closes_escapeMark (by decide) h
  · rw [String.toList_ofList, Text.unescapeMark_escapeMark _ (by decide), String.ofList_toList]
    exact Pattern.ofText_eq_ok_iff.2 rfl

end

end PipelineScript

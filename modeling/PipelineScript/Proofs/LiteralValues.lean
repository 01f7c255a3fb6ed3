import Mathlib.Data.Nat.Digits.Defs
import PipelineScript.Proofs.Again
import PipelineScript.Proofs.Floats
import PipelineScript.Proofs.Rejections

/-!
The values of literals.

The scanner and the functions that make values of its literals are apart: the one counts points and
looks for units, the others read digits again. They agree: what the scanner takes for a number or a
duration has a value unless its digits spell too much, or are no octal number though the text begins
with a zero (`Token.IsOf.regular`). So a script is never rejected for a duration that is no duration
(`literals_fail_by_value`).
-/
namespace PipelineScript

section

variable {engine : PatternEngine}

/-! ## Digits -/

/-- The value of a text of digits, most significant first. -/
def digitsValue (base : Nat) (ds : List Char) : Nat :=
  Nat.ofDigits base (ds.reverse.map fun c => c.toNat - 48)

theorem digitsValue_cons (base : Nat) (c : Char) (cs : List Char) :
    digitsValue base (c :: cs) = (c.toNat - 48) * base ^ cs.length + digitsValue base cs := by
  simp only [digitsValue, List.reverse_cons, List.map_append, Nat.ofDigits_append, List.map_cons,
    List.map_nil, Nat.ofDigits_singleton, List.length_map, List.length_reverse]
  ring

section

variable {base : Nat} {c : Char} {ds : List Char}

/-- Digits of a base spell their value. -/
theorem natOfDigits?_eq_some (h : ∀ c ∈ ds, digitValue? base c = some (c.toNat - 48)) (n : Nat) :
    natOfDigits? base n ds = some (n * base ^ ds.length + digitsValue base ds) := by
  induction ds generalizing n with
  | nil => simp [natOfDigits?, digitsValue]
  | cons c cs ih =>
    rw [List.forall_mem_cons] at h
    simp only [natOfDigits?, h.1]
    rw [ih h.2, digitsValue_cons, List.length_cons, Nat.pow_succ]
    ring_nf

/-- A character that is no digit of the base spoils the others. -/
theorem natOfDigits?_eq_none (hc : c ∈ ds) (h : digitValue? base c = none) (n : Nat) :
    natOfDigits? base n ds = none := by
  obtain ⟨before, after, rfl⟩ := List.append_of_mem hc
  rw [natOfDigits?_append]
  cases natOfDigits? base n before with
  | none => rfl
  | some k => simp [natOfDigits?, h]

theorem natOfDigits?_of_isWhole (h : Sign.isWhole ds = true) :
    natOfDigits? 10 0 ds = some (digitsValue 10 ds) := by
  have hall : ∀ c ∈ ds, digitValue? 10 c = some (c.toNat - 48) := by
    intro c hc
    have hdigit := List.all_eq_true.1 (Sign.all_of_isWhole h) c hc
    have hrange := Sign.isDigit_iff.1 hdigit
    exact digitValue?_eq_some_iff.2 ⟨hdigit, by omega, rfl⟩
  simpa using natOfDigits?_eq_some hall 0

/-- Two digits are no octal digits. -/
theorem isOctal_iff (hc : Text.isDigit c = true) : c.toNat - 48 < 8 ↔ c ≠ '8' ∧ c ≠ '9' := by
  have hrange := Sign.isDigit_iff.1 hc
  rw [ne_eq, ne_eq, Char.ext_iff, Char.ext_iff]
  simp only [← UInt32.toNat_inj]
  change c.toNat - 48 < 8 ↔ ¬c.toNat = 56 ∧ ¬c.toNat = 57
  omega

theorem natOfDigits?_octal (h : Sign.isWhole ds = true) :
    natOfDigits? 8 0 ds = if '8' ∈ ds ∨ '9' ∈ ds then none else some (digitsValue 8 ds) := by
  split
  · rename_i hmem
    rcases hmem with hmem | hmem <;> exact natOfDigits?_eq_none hmem rfl 0
  · rename_i hmem
    have hall : ∀ c ∈ ds, digitValue? 8 c = some (c.toNat - 48) := by
      intro c hc
      have hdigit := List.all_eq_true.1 (Sign.all_of_isWhole h) c hc
      refine digitValue?_eq_some_iff.2 ⟨hdigit, (isOctal_iff hdigit).2 ⟨?_, ?_⟩, rfl⟩
      · rintro rfl
        exact hmem (.inl hc)
      · rintro rfl
        exact hmem (.inr hc)
    simpa using natOfDigits?_eq_some hall 0

end

/-! ## Numbers -/

namespace Number

/-- The base of a literal without a point. -/
def literalBase (ds : List Char) : Nat := if ds.head? = some '0' ∧ 1 < ds.length then 8 else 10

theorem ofText_eq_error_iff {text : String} :
    Number.ofText text = .error (.number text) ↔ Number.ofText? text.toList = none := by
  rw [Number.ofText]
  cases Number.ofText? text.toList <;> simp

theorem int64OfInt?_eq_none_iff (n : Nat) :
    int64OfInt? (n : Int) = none ↔ Int64.maxValue.toInt < n := by
  rw [int64OfInt?, Int64.toInt_maxValue]
  split <;> simp <;> omega

/-- The digits of a literal without a point are read in its base. -/
theorem ofText?_of_isWhole {ds : List Char} (h : Sign.isWhole ds = true) :
    Number.ofText? ds = none ↔
      ∀ n, natOfDigits? (literalBase ds) 0 ds = some n → int64OfInt? n = none := by
  generalize hbase : (if ds.head? = some '0' ∧ 1 < ds.length then Node.octalBase
    else Node.decimalBase) = base
  have hvalue : base.toNat = literalBase ds := by
    rw [← hbase, literalBase]
    split <;> rfl
  rw [Number.ofText?, not_contains_of_isWhole h]
  simp only [Bool.false_eq_true, if_false, hbase, hvalue, readInt?_of_isWhole h]
  cases natOfDigits? (literalBase ds) 0 ds with
  | none => simp
  | some n => simp

/-- A literal without a point has no value if it is no octal number though it begins like one, or
if its value does not fit. -/
theorem ofText?_eq_none_iff {ds : List Char} (h : Sign.isWhole ds = true) :
    Number.ofText? ds = none ↔
      1 < ds.length ∧ ds.head? = some '0' ∧ ('8' ∈ ds ∨ '9' ∈ ds) ∨
        Int64.maxValue.toInt < digitsValue (literalBase ds) ds := by
  rw [ofText?_of_isWhole h]
  by_cases hoctal : ds.head? = some '0' ∧ 1 < ds.length
  · rw [literalBase, if_pos hoctal, natOfDigits?_octal h]
    by_cases hmem : '8' ∈ ds ∨ '9' ∈ ds
    · simp [hmem, hoctal]
    · simp [hmem, int64OfInt?_eq_none_iff]
  · have hplain : ¬(1 < ds.length ∧ ds.head? = some '0' ∧ ('8' ∈ ds ∨ '9' ∈ ds)) :=
      fun hds => hoctal ⟨hds.2.1, hds.1⟩
    rw [literalBase, if_neg hoctal, natOfDigits?_of_isWhole h]
    simp [hplain, int64OfInt?_eq_none_iff]

/-- A text of digits with a point in it has a value, if there is a digit. -/
theorem exists_ofText?_point {whole part : List Char} (hw : whole.all Text.isDigit = true)
    (hp : part.all Text.isDigit = true) (hne : whole ++ part ≠ []) :
    ∃ x, Number.ofText? (whole ++ '.' :: part) = some (.float x) := by
  have hwhole : Sign.isWhole (whole ++ part) = true := by
    simp [Sign.isWhole, hne, hw, hp]
  have hread : readNat? 10 (whole ++ part) = some (digitsValue 10 (whole ++ part)) := by
    rw [readNat?, if_neg (by simpa using hne), natOfDigits?_of_isWhole hwhole]
  have hpoint := Decimal.readUnsigned?_point hw hp hread
  rw [Number.ofText?, if_pos (by simp)]
  cases whole with
  | nil =>
    rw [List.nil_append] at hpoint ⊢
    simp [Decimal.read?, hpoint]
  | cons c cs =>
    have hwhole : Sign.isWhole (c :: cs) = true := by simpa [Sign.isWhole] using hw
    rw [Decimal.read?_of_isWhole hwhole, hpoint]
    exact ⟨_, rfl⟩

end Number

/-! ## Durations -/

/-- The units that the scanner knows, and what they stand for. -/
def Duration.literalUnits : List (Nat × String) := (micro, "µ") :: scannedUnits

theorem Duration.exists_unit {unit : List Char} (h : Sign.isUnitText unit = true) :
    ∃ scale name, (scale, name) ∈ literalUnits ∧ unit = name.toList := by
  match unit with
  | [] => cases h
  | [c] =>
    simp only [Sign.isUnitText, Scan.isUnit, Bool.or_eq_true, beq_iff_eq] at h
    rcases h with (((((rfl | rfl) | rfl) | rfl) | rfl) | rfl) | rfl
    · exact ⟨micro, "u", by decide, rfl⟩
    · exact ⟨micro, "µ", by decide, rfl⟩
    · exact ⟨second, "s", by decide, rfl⟩
    · exact ⟨minute, "m", by decide, rfl⟩
    · exact ⟨hour, "h", by decide, rfl⟩
    · exact ⟨day, "d", by decide, rfl⟩
    · exact ⟨week, "w", by decide, rfl⟩
  | [c, d] =>
    simp only [Sign.isUnitText, Bool.and_eq_true, beq_iff_eq] at h
    obtain ⟨rfl, rfl⟩ := h
    exact ⟨milli, "ms", by decide, rfl⟩
  | _ :: _ :: _ :: _ => cases h

theorem Duration.mem_spellings {scale : Nat} {unit : String} (h : (scale, unit) ∈ literalUnits) :
    (scale, unit) ∈ spellings := by
  rcases List.mem_cons.1 h with h | h
  · exact List.mem_cons.2 (.inl h)
  · exact List.mem_cons_of_mem _ (mem_units_iff.2 (.inl h))

/-! ## The tokens of a script -/

/-- A number that begins with a point has a digit behind it. -/
theorem Scan.ne_point_of_point {offset : Nat} {cs : List Char} {t : Token} {after : Option Cursor}
    (h : point offset cs = .token t after) (hk : t.kind = .number) : t.text.toList ≠ ['.'] := by
  cases cs with
  | nil =>
    cases h
    cases hk
  | cons d ds =>
    rw [point] at h
    split at h
    · rename_i hd
      have hpart : (Lexeme.digits (d :: ds)).1 = d :: ds.takeWhile Text.isDigit := by
        simp [Lexeme.digits, hd]
      simp only [fraction, hpart] at h
      split at h
      · split at h
        · cases h
          cases hk
        · cases h
          simp
      · cases h
        simp
    · cases h
      cases hk

/-- A point by itself is no number. -/
theorem Token.IsOf.ne_point {source : String} {t : Token} (h : t.IsOf source)
    (hk : t.kind = .number) : t.text.toList ≠ ['.'] := by
  intro htext
  obtain ⟨place, after, hplace, hread⟩ := h.exists_read
  cases after with
  | none =>
    have hlast := (Scanner.stops_of_read hplace hread).isLast
    rw [hk] at hlast
    cases hlast
  | some cursor =>
    have hrest := (Scanner.cut_of_read hplace hread).place
    rw [← Lexeme.blank_append place.rest] at hplace
    rw [Text.suffixAt_add hplace, htext, Option.some.injEq] at hrest
    rw [Scanner.read_skip, hrest, List.singleton_append,
      Scanner.read_plain (by decide) (by decide)] at hread
    exact Scan.ne_point_of_point hread hk htext

/-- What the text of a name, a number and a duration is like, and which values come of it. -/
structure Token.Regular (t : Token) : Prop where
  ident : t.kind = .ident →
    Sign.isWord t.text.toList = true ∧ t.text ∉ ["AND", "OR", "TRUE", "FALSE", "var"]
  whole : t.kind = .number → '.' ∉ t.text.toList →
    Sign.isWhole t.text.toList = true ∧
      (Number.ofText t.text = .error (.number t.text) ↔
        1 < t.text.toList.length ∧ t.text.toList.head? = some '0' ∧
            ('8' ∈ t.text.toList ∨ '9' ∈ t.text.toList) ∨
          Int64.maxValue.toInt < digitsValue (Number.literalBase t.text.toList) t.text.toList)
  point : t.kind = .number → '.' ∈ t.text.toList →
    t.text.toList.count '.' = 1 ∧ (∃ c ∈ t.text.toList, Text.isDigit c = true) ∧
      ∃ x, Number.ofText t.text = .ok (.float x)
  duration : t.kind = .duration →
    ∃ whole scale unit, t.text.toList = whole ++ unit.toList ∧ Sign.isWhole whole = true ∧
      (scale, unit) ∈ Duration.literalUnits ∧
      Duration.parse t.text =
        if digitsValue 10 whole * scale ≤ Duration.limit then .ok ⟨digitsValue 10 whole * scale⟩
        else .error (.overflow t.text)

theorem Token.Formed.not_mem_keywords {t : Token} (h : t.Formed) (hk : t.kind = .ident) :
    t.text ∉ ["AND", "OR", "TRUE", "FALSE", "var"] := by
  simp only [Formed, hk, Sign.isName, String.ofList_toList, Bool.and_eq_true, Bool.or_eq_true,
    beq_iff_eq] at h
  intro hmem
  simp only [List.mem_cons, List.not_mem_nil, or_false] at hmem
  rcases hmem with ht | ht | ht | ht | ht <;> rw [ht] at h <;> exact absurd h.2 (by decide)

theorem Token.IsOf.regular {source : String} {t : Token} (h : t.IsOf source) : t.Regular where
  ident hk := by
    have hformed := h.formed
    refine ⟨?_, hformed.not_mem_keywords hk⟩
    simp only [Formed, hk, Sign.isName, Bool.and_eq_true] at hformed
    exact hformed.1
  whole hk hpoint := by
    have hformed := h.formed
    simp only [Formed, hk] at hformed
    have hwhole : Sign.isWhole t.text.toList = true := by
      refine hformed.resolve_right ?_
      rintro ⟨whole, part, htext, -⟩
      exact hpoint (by simp [htext])
    exact ⟨hwhole, Number.ofText_eq_error_iff.trans (Number.ofText?_eq_none_iff hwhole)⟩
  point hk hpoint := by
    have hformed := h.formed
    simp only [Formed, hk] at hformed
    obtain ⟨whole, part, htext, hwhole, hpart⟩ := hformed.resolve_left fun hwhole => by
      have hnone := not_contains_of_isWhole hwhole
      simp [hpoint] at hnone
    have hne : whole ++ part ≠ [] := by
      intro hnil
      obtain ⟨rfl, rfl⟩ := List.append_eq_nil_iff.1 hnil
      exact h.ne_point hk htext
    obtain ⟨x, hx⟩ := Number.exists_ofText?_point hwhole hpart hne
    refine ⟨?_, ?_, x, by rw [Number.ofText, htext, hx]⟩
    · have hcount {ds : List Char} (hds : ds.all Text.isDigit = true) : ds.count '.' = 0 :=
        List.count_eq_zero.2 fun hmem => absurd (List.all_eq_true.1 hds _ hmem) (by decide)
      rw [htext, List.count_append, hcount hwhole, List.count_cons_self, hcount hpart]
    · obtain ⟨c, hc⟩ := List.exists_mem_of_ne_nil _ hne
      have hdigits : (whole ++ part).all Text.isDigit = true := by simp [hwhole, hpart]
      refine ⟨c, ?_, List.all_eq_true.1 hdigits c hc⟩
      rw [htext, List.mem_append, List.mem_cons]
      rw [List.mem_append] at hc
      exact hc.imp_right .inr
  duration hk := by
    have hformed := h.formed
    simp only [Formed, hk] at hformed
    obtain ⟨whole, unit, htext, hwhole, hunit⟩ := hformed
    obtain ⟨scale, name, hname, rfl⟩ := Duration.exists_unit hunit
    have hparse := Duration.parse_segment (Sign.ne_nil_of_isWhole hwhole)
      (natOfDigits?_of_isWhole hwhole) (Duration.mem_spellings hname)
    rw [← htext, String.ofList_toList] at hparse
    exact ⟨whole, scale, name, htext, hwhole, hname, hparse⟩

/-! ## Rejections -/

theorem Node.exists_durationOfText_error {info : Info} {text : String} {e : NodeError}
    (h : durationOfText info text = .error e) :
    ∃ fault, e = .duration fault ∧ Duration.parse text = .error fault := by
  rw [durationOfText] at h
  split at h
  · cases h
  · rename_i fault hparse
    cases h
    exact ⟨fault, rfl, hparse⟩

theorem Node.exists_regexOfText_error {info : Info} {text : String} {e : NodeError}
    (h : regexOfText info text = .error e) : ∃ pattern fault, e = .regex pattern fault := by
  rw [regexOfText, regexOfLiteral] at h
  split at h
  · cases h
  · cases h
    exact ⟨_, _, rfl⟩

/-- A duration that the scanner has read is never blamed for being no duration. -/
theorem Token.Blamed.ne_invalid {source : String} {t : Token} {cause : ParseCause}
    (h : t.Blamed cause) (ht : t ∈ scriptTokens source.toList) (text : String) :
    cause ≠ .literal (.duration (.invalid text)) := by
  rintro rfl
  cases h with
  | number hk herror =>
    rw [Number.ofText] at herror
    split at herror <;> cases herror
  | regex hk herror =>
    obtain ⟨pattern, fault, he⟩ := Node.exists_regexOfText_error herror
    cases he
  | duration hk herror =>
    obtain ⟨fault, he, hparse⟩ := Node.exists_durationOfText_error herror
    cases he
    have hof : t.IsOf source := by
      rcases List.mem_append.1 ht with hmem | hend
      · exact isOf_of_mem hmem
      · rw [List.mem_singleton.1 hend] at hk
        cases hk
    obtain ⟨whole, scale, unit, -, -, -, hvalue⟩ := hof.regular.duration hk
    rw [hparse] at hvalue
    split at hvalue <;> cases hvalue

/-- **A literal has no value only because of its digits.** What the scanner takes for a name, a
number or a duration has a text of that form; a number without a point has no value just if it is
octal and has a digit that is none, or is too large, a number with a point always has one, and a
duration has one if it is no longer than the longest span. So no script is rejected for a duration
that is no duration. -/
theorem literals_fail_by_value [PatternEngine] (source : String) :
    (∀ t : Token, t.IsOf source → t.Regular) ∧
      ∀ e, parse source = .error (.rejected e) ∨ parseLambda source = .error (.rejected e) →
        ∀ text, e.cause ≠ .literal (.duration (.invalid text)) := by
  refine ⟨fun t ht => ht.regular, fun e he text => ?_⟩
  obtain ⟨t, ht, hblames⟩ : ∃ t ∈ scriptTokens source.toList,
      e.Blames (Text.bytes source.toList) t := by
    rcases he with he | he
    · exact exists_blamed_of_parse he
    · exact exists_blamed_of_parseLambda he
  exact hblames.blamed.ne_invalid ht text

end

open scoped PatternEngine

/-- An octal number with a digit that is none, and a span that is too long. -/
theorem literals_fail_by_value_octal :
    (Token.IsOf ⟨.number, 4, "08"⟩ "x = 08" ∧ Number.ofText "08" = .error (.number "08")) ∧
    (Token.IsOf ⟨.duration, 4, "99999999w"⟩ "x > 99999999w" ∧
      Token.Regular ⟨.duration, 4, "99999999w"⟩) ∧
    ∃ e, parse "x > 99999999w" = .error (.rejected e) ∧
      e.cause = .literal (.duration (.overflow "99999999w")) ∧
      ∀ text, e.cause ≠ .literal (.duration (.invalid text)) := by
  have hnumber : Token.IsOf ⟨.number, 4, "08"⟩ "x = 08" :=
    ⟨3, [some ⟨.ident, 0, "x"⟩, some ⟨.assign, 2, "="⟩, some ⟨.number, 4, "08"⟩],
      by decide +kernel, by simp⟩
  have hduration : Token.IsOf ⟨.duration, 4, "99999999w"⟩ "x > 99999999w" :=
    ⟨3, [some ⟨.ident, 0, "x"⟩, some ⟨.binary .greater, 2, ">"⟩,
      some ⟨.duration, 4, "99999999w"⟩], by decide +kernel, by simp⟩
  obtain ⟨hregular, -⟩ := literals_fail_by_value "x = 08"
  obtain ⟨hregular', hreject⟩ := literals_fail_by_value "x > 99999999w"
  have hvalue := ((hregular _ hnumber).whole rfl (by decide)).2.2 (.inl (by decide))
  obtain ⟨e, he, hcause⟩ := exists_rejected_of_any (x := parse "x > 99999999w")
    (P := fun e => e.cause == .literal (.duration (.overflow "99999999w"))) (by decide +kernel)
  exact ⟨⟨hnumber, hvalue⟩, ⟨hduration, hregular' _ hduration⟩, e, he, by simpa using hcause,
    hreject e (.inl he)⟩

end PipelineScript

import Mathlib.Data.List.TakeWhile
import PipelineScript.Proofs.Literals
import PipelineScript.Proofs.Rounding

/-!
Binary64 values are read back.

A finite value is written as the shortest decimal that reads back, in positional notation and
always with a point. Zeros before or behind the digits of that decimal do not change how it is
rounded, so the text is read as the value that it was written for.
-/
namespace PipelineScript

variable {engine : PatternEngine}

/-! ## Digits in positional notation -/

theorem natOfDigits?_replicate_append (base k : Nat) (hb : 0 < base) (ds : List Char) :
    natOfDigits? base 0 (List.replicate k '0' ++ ds) = natOfDigits? base 0 ds := by
  have hzero : digitValue? base '0' = some 0 := by simp [digitValue?, hb, Text.isDigit]
  induction k with
  | zero => rfl
  | succ k ih =>
    rw [List.replicate_succ, List.cons_append, natOfDigits?, hzero]
    simpa using ih

theorem natOfDigits?_append_replicate (k n : Nat) :
    natOfDigits? 10 n (List.replicate k '0') = some (n * 10 ^ k) := by
  have hzero : digitValue? 10 '0' = some 0 := by decide
  induction k generalizing n with
  | zero => simp [natOfDigits?]
  | succ k ih =>
    rw [List.replicate_succ, natOfDigits?, hzero]
    simp only [ih, Nat.add_zero, Nat.pow_succ, Option.some.injEq]
    ring

theorem all_isDigit_replicate (k : Nat) : (List.replicate k '0').all Text.isDigit = true := by
  have hzero : Text.isDigit '0' = true := by decide
  simp [hzero]

/-- A text of digits with a point in it. -/
theorem Decimal.readUnsigned?_point {whole part : List Char} {n : Nat}
    (hw : whole.all Text.isDigit = true) (hp : part.all Text.isDigit = true)
    (hn : readNat? 10 (whole ++ part) = some n) :
    Decimal.readUnsigned? (whole ++ '.' :: part) = some ⟨n, -part.length⟩ := by
  have hpoint : Text.isDigit '.' = false := by decide
  have hw' := List.all_eq_true.1 hw
  have hp' := List.all_eq_true.1 hp
  have htake : (whole ++ '.' :: part).takeWhile Text.isDigit = whole := by
    rw [List.takeWhile_append_of_pos hw']
    simp [hpoint]
  have hdrop : (whole ++ '.' :: part).dropWhile Text.isDigit = '.' :: part := by
    rw [List.dropWhile_append_of_pos hw']
    simp [hpoint]
  have htake' : part.takeWhile Text.isDigit = part := List.takeWhile_eq_self_iff.2 hp'
  have hdrop' : part.dropWhile Text.isDigit = [] := List.dropWhile_eq_nil_iff.2 hp'
  simp [Decimal.readUnsigned?, htake, hdrop, htake', hdrop', hn, Decimal.readExponent?]

/-- A text with a point between digits that is read as a decimal which is rounded as `d` is. -/
def Decimal.Pointed (d : Decimal) (text : List Char) : Prop :=
  ∃ whole part d', text = whole ++ '.' :: part ∧
    Sign.isWhole whole = true ∧ part.all Text.isDigit = true ∧
    Decimal.readUnsigned? (whole ++ '.' :: part) = some d' ∧
    ∀ negative, Binary64.ofDecimal negative d' = Binary64.ofDecimal negative d

/-- A whole number is written with its zeros and with a zero behind the point. -/
theorem Decimal.pointed_zeros (d : Decimal) (he : 0 ≤ d.exponent) :
    d.Pointed (withPoint (natText 10 d.digits ++ List.replicate d.exponent.toNat '0')) := by
  have hall := Sign.all_of_isWhole (isWhole_natText 10 (by decide) (by decide) d.digits)
  have hne : natText 10 d.digits ≠ [] := Nat.toDigits_ne_nil
  have hwhole :
      Sign.isWhole (natText 10 d.digits ++ List.replicate d.exponent.toNat '0') = true := by
    simp only [Sign.isWhole, List.all_append, hall, all_isDigit_replicate, Bool.and_self,
      Bool.and_true, Bool.not_eq_true', List.isEmpty_eq_false_iff, ne_eq,
      List.append_eq_nil_iff, hne, false_and, not_false_eq_true]
  have hread : readNat? 10 (natText 10 d.digits ++ List.replicate d.exponent.toNat '0' ++ ['0']) =
      some (d.digits * 10 ^ (d.exponent.toNat + 1)) := by
    rw [readNat?, if_neg (by simp), List.append_assoc, ← List.replicate_succ', natOfDigits?_append,
      natOfDigits?_natText 10 (by decide) (by decide), Option.bind_some,
      natOfDigits?_append_replicate]
  refine ⟨_, ['0'], _, ?_, hwhole, by decide,
    Decimal.readUnsigned?_point (Sign.all_of_isWhole hwhole) (by decide) hread, ?_⟩
  · rw [withPoint, not_contains_of_isWhole hwhole]
    simp
  · intro negative
    rw [← Binary64.ofDecimal_mul_pow negative d.digits (d.exponent.toNat + 1) d.exponent]
    congr 2
    simp only [List.length_singleton]
    omega

/-- A number with `k` digits behind the point is written with a zero before the point if no digit
is left for that place. -/
theorem Decimal.pointed_places (digits k : Nat) {padded : List Char}
    (hpadded : padded =
      List.replicate (k + 1 - (natText 10 digits).length) '0' ++ natText 10 digits) :
    Decimal.Pointed ⟨digits, -k⟩
      (withPoint (padded.take (padded.length - k) ++ '.' :: padded.drop (padded.length - k))) := by
  have hlen : k + 1 ≤ padded.length := by
    rw [hpadded, List.length_append, List.length_replicate]
    omega
  have hall : ∀ c ∈ padded, Text.isDigit c = true := by
    rw [← List.all_eq_true, hpadded, List.all_append, all_isDigit_replicate,
      Sign.all_of_isWhole (isWhole_natText 10 (by decide) (by decide) digits)]
    rfl
  have hbefore : (padded.take (padded.length - k)).all Text.isDigit = true :=
    List.all_eq_true.2 fun c hc => hall c (List.mem_of_mem_take hc)
  have hbehind : (padded.drop (padded.length - k)).all Text.isDigit = true :=
    List.all_eq_true.2 fun c hc => hall c (List.mem_of_mem_drop hc)
  have hwhole : Sign.isWhole (padded.take (padded.length - k)) = true := by
    have hne : padded.take (padded.length - k) ≠ [] := by
      rw [← List.length_pos_iff, List.length_take]
      omega
    simp [Sign.isWhole, hne, hbefore]
  have hread : readNat? 10 (padded.take (padded.length - k) ++ padded.drop (padded.length - k)) =
      some digits := by
    rw [List.take_append_drop, readNat?, if_neg (by rw [List.isEmpty_iff_length_eq_zero]; omega),
      hpadded, natOfDigits?_replicate_append _ _ (by decide),
      natOfDigits?_natText 10 (by decide) (by decide)]
  refine ⟨_, _, _, ?_, hwhole, hbehind, Decimal.readUnsigned?_point hbefore hbehind hread, ?_⟩
  · rw [withPoint, if_pos (by simp)]
  · intro negative
    rw [List.length_drop, Nat.sub_sub_self (by omega)]

/-- What is written for a decimal has a point between digits and is rounded as the decimal is. -/
theorem Decimal.withPoint_positional (d : Decimal) : d.Pointed (withPoint d.positional) := by
  rw [Decimal.positional]
  dsimp only
  split
  · exact d.pointed_zeros ‹_›
  · obtain ⟨digits, e⟩ := d
    obtain ⟨k, rfl⟩ : ∃ k : Nat, e = -k := ⟨(-e).toNat, by simp only at *; omega⟩
    simp only [Int.neg_neg, Int.toNat_natCast]
    exact Decimal.pointed_places digits k rfl

/-! ## Values -/

namespace Binary64

theorem negative_ofMagnitude {word : Nat} (h : word < signBit) :
    (ofMagnitude false word).negative = false := by
  have hmod : word % 2 ^ 64 = word := Nat.mod_eq_of_lt (lt_trans h (by decide))
  simp only [negative, ofMagnitude, Bool.false_eq_true, if_false, Nat.add_zero, UInt64.toNat_ofNat',
    hmod, decide_eq_false_iff_not]
  omega

theorem negative_ofRatio (num den : Nat) : (ofRatio false num den).negative = false := by
  have htop : topField * fractions < signBit := by decide
  simp only [ofRatio]
  split
  · exact negative_ofMagnitude (by decide)
  · split
    · exact negative_ofMagnitude htop
    · exact negative_ofMagnitude (by omega)

/-- A decimal without a sign is no negative value. -/
theorem negative_ofDecimal (d : Decimal) : (ofDecimal false d).negative = false := by
  simp only [ofDecimal]
  split_ifs
  · exact negative_ofMagnitude (by decide)
  · exact negative_ofMagnitude (by decide)
  · exact negative_ofMagnitude (by decide)
  · exact negative_ofRatio _ _
  · exact negative_ofRatio _ _

theorem isNaN_of_isFinite {x : Binary64} (h : x.isFinite = true) : x.isNaN = false := by
  rw [isFinite, bne_iff_ne] at h
  simp [isNaN, h]

theorem toNat_ofMagnitude (negative : Bool) {word : Nat} (h : word < signBit) :
    (ofMagnitude negative word).bits.toNat = word + if negative then signBit else 0 := by
  have hb : signBit = 2 ^ 63 := rfl
  rw [ofMagnitude, UInt64.toNat_ofNat']
  cases negative <;> simp only [if_true, Bool.false_eq_true, if_false] <;> omega

/-- Up to the word of the infinities no value is a NaN. -/
theorem isNaN_ofMagnitude (negative : Bool) {word : Nat} (h : word ≤ topField * fractions) :
    (ofMagnitude negative word).isNaN = false := by
  have htop : topField * fractions < signBit := by decide
  have hbits := toNat_ofMagnitude negative (Nat.lt_of_le_of_lt h htop)
  simp only [isNaN, field, fraction, hbits, Bool.and_eq_false_iff, beq_eq_false_iff_ne,
    bne_eq_false_iff_eq]
  unfold topField fractions signBit at *
  cases negative <;> simp only [if_true, Bool.false_eq_true, if_false] <;> omega

theorem isNaN_ofRatio (negative : Bool) (num den : Nat) :
    (ofRatio negative num den).isNaN = false := by
  rw [ofRatio]
  split
  · exact isNaN_ofMagnitude _ (Nat.zero_le _)
  · dsimp only
    split
    · exact isNaN_ofMagnitude _ (Nat.le_refl _)
    · exact isNaN_ofMagnitude _ (by omega)

/-- A decimal is never read as a NaN. -/
theorem isNaN_ofDecimal (negative : Bool) (d : Decimal) : (ofDecimal negative d).isNaN = false := by
  simp only [ofDecimal]
  split
  · exact isNaN_ofMagnitude _ (Nat.zero_le _)
  split
  · exact isNaN_ofMagnitude _ (Nat.le_refl _)
  split
  · exact isNaN_ofMagnitude _ (Nat.zero_le _)
  split
  · exact isNaN_ofRatio _ _ _
  · exact isNaN_ofRatio _ _ _
theorem same_self {x : Binary64} (h : x.isNaN = false) : x.same x = true := by
  simp [same, h]

end Binary64

/-- A number that was read is equal to itself. -/
theorem Number.same_self_of_ofText {text : String} {v : Number} (h : Number.ofText text = .ok v) :
    v.same v = true := by
  cases v with
  | int value base => simp [Number.same]
  | float x =>
    rw [Number.ofText] at h
    split at h
    · rename_i n htext
      cases h
      simp only [Number.ofText?] at htext
      split at htext
      · obtain ⟨⟨negative, d⟩, -, hx⟩ := Option.map_eq_some_iff.1 htext
        cases hx
        exact Binary64.same_self (Binary64.isNaN_ofDecimal negative d)
      · split at htext
        · obtain ⟨value, -, hx⟩ := Option.map_eq_some_iff.1 htext
          cases hx
        · cases htext
    · cases h

theorem Decimal.read?_of_isWhole {whole rest : List Char} (h : Sign.isWhole whole = true) :
    Decimal.read? (whole ++ rest) =
      (Decimal.readUnsigned? (whole ++ rest)).map fun d => (false, d) := by
  obtain ⟨c, cs, rfl, hc⟩ := Sign.exists_cons_of_isWhole h
  have hne : ∀ d, Text.isDigit d = false → c ≠ d := fun _ => Text.ne_of_test hc
  simp [Decimal.read?, hne '-' (by decide), hne '+' (by decide)]

/-- A finite value without a sign is written with a point and is read back. -/
theorem Number.ofText?_render_float {x : Binary64} (hn : x.negative = false)
    (hf : x.isFinite = true) :
    ∃ whole part, (Number.float x).render = whole ++ '.' :: part ∧ Sign.isWhole whole = true ∧
      part.all Text.isDigit = true ∧ Number.ofText? (Number.float x).render = some (.float x) := by
  obtain ⟨whole, part, d, htext, hwhole, hpart, hread, hround⟩ :=
    (Decimal.shortest .up x).withPoint_positional
  have hrender : (Number.float x).render = whole ++ '.' :: part := by
    simp [Number.render, Binary64.scriptText, Binary64.isNaN_of_isFinite hf, hn, hf, htext]
  refine ⟨whole, part, hrender, hwhole, hpart, ?_⟩
  rw [hrender, Number.ofText?, if_pos (by simp), Decimal.read?_of_isWhole hwhole, hread]
  simp only [Option.map_some, Option.some.injEq, Number.float.injEq]
  rw [hround, Decimal.ofDecimal_shortest .up hn hf]

theorem spells_float {info : Info} {x : Binary64} (hn : x.negative = false)
    (hf : x.isFinite = true) :
    Spells (.number info (.float x)) ⟨.number, (Number.float x).render⟩ := by
  obtain ⟨whole, part, hrender, hwhole, hpart, hread⟩ := Number.ofText?_render_float hn hf
  refine ⟨fun rest hrest => ?_, fun bytes t ht => ?_⟩
  · rw [hrender]
    exact .fraction hwhole hpart hrest
  · have hk := Slot.kind_of_sign ht
    have htext := Slot.text_of_sign ht
    have hvalue : Number.ofText t.token.text = .ok (.float x) := by
      rw [Number.ofText, htext, String.toList_ofList, hread]
    refine ⟨_, ⟨?_, rfl, rfl⟩, fun rest => .number hk hvalue⟩
    simp [Node.same, Number.same, Binary64.same_self (Binary64.isNaN_of_isFinite hf)]

end PipelineScript

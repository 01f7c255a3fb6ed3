import PipelineScript.Json.Reader
import PipelineScript.Proofs.Floats

/-!
JSON has no infinities.

A quotient up to the greatest binary64 value is rounded to a finite value (`isFinite_ofRatio`), so
whole numbers of 64 bits are rounded to finite values, and a finite value stays finite when it is
divided by a power of ten. What multiplies by a power of ten is checked. So every value that is read
from a text is one that JSON has: its binary64 numbers are finite (`Value.isFinite_of_read?`).
-/
namespace PipelineScript

namespace Binary64

/-! ## Finite values -/

theorem isFinite_ofMagnitude (negative : Bool) {word : Nat} (h : word < topField * fractions) :
    (ofMagnitude negative word).isFinite = true := by
  have htop : topField * fractions < signBit := by decide
  have hbits := toNat_ofMagnitude negative (Nat.lt_trans h htop)
  simp only [isFinite, field, hbits, bne_iff_ne]
  unfold topField fractions signBit at *
  cases negative <;> simp only [if_true, Bool.false_eq_true, if_false] <;> omega

theorem isFinite_zero (negative : Bool) : (zero negative).isFinite = true :=
  isFinite_ofMagnitude negative (by decide)

/-- The sign does not matter. -/
theorem isFinite_neg {x : Binary64} (h : x.isFinite = true) : x.neg.isFinite = true := by
  refine isFinite_ofMagnitude _ ?_
  have hlt := x.bits.toNat_lt
  simp only [isFinite, field, bne_iff_ne] at h
  unfold topField fractions at h ⊢
  unfold signBit
  omega

theorem roundDiv_le {num den k : Nat} (hden : 0 < den) (h : num ≤ k * den) :
    roundDiv num den ≤ k := by
  have hq : num / den ≤ k := Nat.div_le_of_le_mul (by rwa [Nat.mul_comm])
  rcases Nat.lt_or_eq_of_le hq with hlt | heq
  · simp only [roundDiv]
    split
    · omega
    split
    · omega
    · omega
  · -- The quotient is whole, so that nothing is left to round.
    have hrest : num % den = 0 := by
      have := Nat.div_add_mod num den
      rw [heq, Nat.mul_comm] at this
      omega
    simp only [roundDiv, hrest]
    rw [if_pos (by omega)]
    exact hq

theorem le_roundDiv {num den k : Nat} (hden : 0 < den) (h : k * den ≤ num) :
    k ≤ roundDiv num den := by
  have hq : k ≤ num / den := (Nat.le_div_iff_mul_le hden).2 h
  simp only [roundDiv]
  split
  · exact hq
  split
  · exact Nat.le_succ_of_le hq
  · exact Nat.le_add_right_of_le hq

/-- A quotient is rounded to the word of its scale, or to infinity from there on. -/
theorem ofRatio_eq (negative : Bool) {num den : Nat} {e : Int} (hnum : 0 < num)
    (hscale : scaleOf num den = e) :
    ofRatio negative num den =
      if topField * fractions ≤ wordOf (roundDiv (shift num den e).1 (shift num den e).2) e then
        infinity negative
      else ofMagnitude negative (wordOf (roundDiv (shift num den e).1 (shift num den e).2) e) := by
  rw [ofRatio, if_neg hnum.ne', hscale]
  rfl

/-- The greatest finite value. -/
def greatest : ℚ := (2 ^ 53 - 1) * 2 ^ (971 : Int)

/-- Up to the greatest finite value a quotient is rounded to a finite value. -/
theorem isFinite_ofRatio (negative : Bool) {num den : Nat} (hden : 0 < den)
    (h : (num : ℚ) / den ≤ greatest) : (ofRatio negative num den).isFinite = true := by
  rcases Nat.eq_zero_or_pos num with rfl | hnum
  · exact isFinite_zero negative
  obtain ⟨e₀, ⟨hlow, hhigh⟩, hscale⟩ := scaleOf_eq hnum hden
  generalize he : max (-1074) e₀ = e at hscale
  have hpow : (0 : ℚ) < 2 ^ e := zpow_pos (by norm_num) _
  have hpos := shift_pos num hden e
  -- What is rounded is at most `k` when the quotient is at most `k * 2 ^ e`.
  have hround : ∀ k : Nat, (num : ℚ) / den ≤ k * 2 ^ e →
      roundDiv (shift num den e).1 (shift num den e).2 ≤ k := by
    intro k hk
    have hquot : (0 : ℚ) < (shift num den e).2 := by exact_mod_cast hpos
    refine roundDiv_le hpos ?_
    rw [← div_le_iff₀ hpow, ← shift_value num hden, div_le_iff₀ hquot] at hk
    exact_mod_cast hk
  have hle : e₀ ≤ 971 := by
    refine Scales.le hlow (lt_of_le_of_lt h ?_)
    rw [greatest]
    gcongr
    norm_num
  have hword : wordOf (roundDiv (shift num den e).1 (shift num den e).2) e <
      topField * fractions := by
    have htop : topField * fractions = 2047 * 2 ^ 52 := by decide
    have hfractions : fractions = 2 ^ 52 := by decide
    rw [wordOf, htop, hfractions]
    by_cases htopmost : e = 971
    · have hk : ((2 ^ 53 - 1 : Nat) : ℚ) = 2 ^ 53 - 1 := by norm_num
      have hle := hround (2 ^ 53 - 1) (by rw [hk, htopmost]; exact h)
      subst htopmost
      omega
    · have hk : ((2 ^ 53 : Nat) : ℚ) = 2 ^ (53 : Int) := by norm_num
      have hpows : (2 : ℚ) ^ e₀ ≤ 2 ^ e := zpow_le_zpow_right₀ (by norm_num) (by omega)
      have hle := hround (2 ^ 53) (by rw [hk]; exact hhigh.le.trans (by gcongr))
      omega
  rw [ofRatio_eq negative hnum hscale, if_neg (by omega)]
  exact isFinite_ofMagnitude negative hword

/-- A whole number other than zero has at least the exponent of one. -/
theorem le_field_ofNat {n : Nat} (hn : 0 < n) : 1023 ≤ (ofNat n).field := by
  obtain ⟨e₀, ⟨hlow, hhigh⟩, hscale⟩ := scaleOf_eq hn Nat.one_pos
  have hone : (1 : ℚ) ≤ n := by exact_mod_cast hn
  have he₀ : -52 ≤ e₀ := by
    refine Scales.le (le_of_eq_of_le ?_ hone) (by simpa using hhigh)
    norm_num
  rw [max_eq_right (by omega)] at hscale
  have hpos := shift_pos n Nat.one_pos e₀
  -- The significand has all of its bits, so the word has at least the exponent of one.
  have hround : 2 ^ 52 ≤ roundDiv (shift n 1 e₀).1 (shift n 1 e₀).2 := by
    have hquot : (0 : ℚ) < (shift n 1 e₀).2 := by exact_mod_cast hpos
    refine le_roundDiv hpos ?_
    rw [← le_div_iff₀ (zpow_pos (by norm_num) _), ← shift_value n Nat.one_pos,
      le_div_iff₀ hquot] at hlow
    exact_mod_cast hlow
  have hword : 1023 * fractions ≤ wordOf (roundDiv (shift n 1 e₀).1 (shift n 1 e₀).2) e₀ := by
    have hfractions : fractions = 2 ^ 52 := by decide
    rw [wordOf, hfractions]
    omega
  rw [ofNat, ofRatio_eq false hn hscale]
  split
  · decide
  · rename_i htop
    have hsign : topField * fractions < signBit := by decide
    rw [field, toNat_ofMagnitude false (by omega)]
    unfold topField fractions at *
    simp only [Bool.false_eq_true, if_false]
    omega

theorem isFinite_ofNat {n : Nat} (h : n ≤ Json.natLimit) : (ofNat n).isFinite = true := by
  refine isFinite_ofRatio false Nat.one_pos ?_
  have hn : (n : ℚ) ≤ (Json.natLimit : Nat) := by exact_mod_cast h
  have hpow : (2 : ℚ) ^ (64 : Int) ≤ 2 ^ (971 : Int) :=
    zpow_le_zpow_right₀ (by norm_num) (by omega)
  have hlimit : ((Json.natLimit : Nat) : ℚ) ≤ 2 ^ (64 : Int) := by norm_num [Json.natLimit]
  rw [Nat.cast_one, div_one, greatest]
  calc (n : ℚ) ≤ 2 ^ (64 : Int) := hn.trans hlimit
    _ ≤ 2 ^ (971 : Int) := hpow
    _ ≤ (2 ^ 53 - 1) * 2 ^ (971 : Int) :=
      le_mul_of_one_le_left (zpow_pos (by norm_num) _).le (by norm_num)

theorem isFinite_ofScaledRatio (negative : Bool) {num den : Nat} {e : Int} (hden : 0 < den)
    (h : (num : ℚ) / den * 2 ^ e ≤ greatest) :
    (ofScaledRatio negative num den e).isFinite = true := by
  rw [ofScaledRatio]
  -- A power of two is multiplied to the numerator or to the denominator, as its sign says.
  split
  · rename_i he
    obtain ⟨k, rfl⟩ := Int.eq_ofNat_of_zero_le he
    refine isFinite_ofRatio negative hden (le_trans (le_of_eq ?_) h)
    simp only [twoTo_eq, Int.toNat_natCast, zpow_natCast]
    push_cast
    ring
  · rename_i he
    obtain ⟨k, rfl⟩ : ∃ k : Nat, e = -k := ⟨(-e).toNat, by omega⟩
    refine isFinite_ofRatio negative (Nat.mul_pos hden (Nat.pow_pos (by decide)))
      (le_trans (le_of_eq ?_) h)
    simp only [twoTo_eq, Int.neg_neg, Int.toNat_natCast, zpow_neg, zpow_natCast]
    push_cast
    rw [div_mul_eq_div_div, div_eq_mul_inv (_ / _)]

/-- The magnitude of a value. -/
def magnitude (x : Binary64) : ℚ := x.significand * 2 ^ x.exponent

theorem magnitude_le {x : Binary64} (h : x.isFinite = true) : x.magnitude ≤ greatest := by
  have hexponent : (2 : ℚ) ^ x.exponent ≤ 2 ^ (971 : Int) :=
    zpow_le_zpow_right₀ (by norm_num) (exponent_bounds h).2
  have hsignificand : (x.significand : ℚ) ≤ 2 ^ 53 - 1 := by
    have hlt : x.significand + 1 ≤ 2 ^ 53 := x.significand_lt
    have : ((x.significand + 1 : Nat) : ℚ) ≤ (2 ^ 53 : Nat) := by exact_mod_cast hlt
    push_cast at this
    linarith
  rw [magnitude, greatest]
  exact mul_le_mul hsignificand hexponent (zpow_pos (by norm_num) _).le (by norm_num)

/-- From the exponent of one on, a value is at least one. -/
theorem one_le_magnitude {x : Binary64} (h : 1023 ≤ x.field) : 1 ≤ x.magnitude := by
  have hexponent : (2 : ℚ) ^ (-52 : Int) ≤ 2 ^ x.exponent := by
    refine zpow_le_zpow_right₀ (by norm_num) ?_
    rw [exponent]
    omega
  have hsignificand : (2 : ℚ) ^ (52 : Int) ≤ x.significand := by
    have hfractions : ((fractions : Nat) : ℚ) = 2 ^ (52 : Int) := by norm_num [fractions]
    rw [← hfractions, significand, if_neg (by omega)]
    exact_mod_cast Nat.le_add_right _ _
  calc (1 : ℚ) = 2 ^ (52 : Int) * 2 ^ (-52 : Int) := by norm_num
    _ ≤ x.magnitude := by
      rw [magnitude]
      gcongr

/-- A finite value stays finite when it is divided by a value of at least one. -/
theorem isFinite_div {x y : Binary64} (hx : x.isFinite = true) (hy : 1 ≤ y.magnitude) :
    (x.div y).isFinite = true := by
  have hpow : (0 : ℚ) < 2 ^ y.exponent := zpow_pos (by norm_num) _
  have hpos : (0 : ℚ) < y.significand := by
    by_contra hle
    have : (y.significand : ℚ) * 2 ^ y.exponent ≤ 0 :=
      mul_nonpos_of_nonpos_of_nonneg (not_lt.1 hle) hpow.le
    rw [magnitude] at hy
    linarith
  refine isFinite_ofScaledRatio _ (by exact_mod_cast hpos) ?_
  have hquot : (x.significand : ℚ) / y.significand * 2 ^ (x.exponent - y.exponent) =
      x.magnitude / y.magnitude := by
    rw [magnitude, magnitude, zpow_sub₀ (by norm_num)]
    field_simp
  have hnonneg : 0 ≤ x.magnitude := by
    rw [magnitude]
    positivity
  rw [hquot]
  exact (div_le_self hnonneg hy).trans (magnitude_le hx)

end Binary64

namespace Json

theorem one_le_powerOfTen (e : Nat) : 1 ≤ (powerOfTen e).magnitude := by
  have hpos : 0 < tenTo e := by
    rw [tenTo_eq]
    exact Nat.pow_pos (by decide)
  exact Binary64.one_le_magnitude (Binary64.le_field_ofNat hpos)

/-! ## Numbers of a text -/

/-- Whether it is a number that JSON has. -/
def Number.isFinite : Number → Bool
  | .float x => x.isFinite
  | _ => true

theorem isFinite_scale {fuel : Nat} {x y : Binary64} {e : Int} (hx : x.isFinite = true)
    (h : scale fuel x e = some y) : y.isFinite = true := by
  -- Each step divides by a power of ten, except the last one, which may multiply and is checked.
  induction fuel generalizing x e with
  | zero =>
    cases h
    exact hx
  | succ fuel ih =>
    rw [scale] at h
    split at h
    · rename_i he
      split at h
      · dsimp only at h
        split at h
        · cases h
          assumption
        · cases h
      · cases h
        exact Binary64.isFinite_div hx (one_le_powerOfTen _)
    · split at h
      · cases h
        exact hx
      · split at h
        · cases h
        · exact ih (Binary64.isFinite_div hx (one_le_powerOfTen _)) h

theorem absorb_le {n : Nat} {cs : List Char} (h : n ≤ natLimit) : (absorb n cs).1 ≤ natLimit := by
  induction cs generalizing n with
  | nil => exact h
  | cons c cs ih =>
    rw [absorb]
    split
    · exact h
    · exact ih (by omega)

section

variable {negative : Bool} {significand : Nat} {e : Int} {cs rest : List Char} {n : Number}

theorem isFinite_floatOf (hs : significand ≤ natLimit)
    (h : floatOf negative significand e = some n) :
    n.isFinite = true := by
  obtain ⟨x, hx, rfl⟩ := Option.map_eq_some_iff.1 h
  have hfinite := isFinite_scale (Binary64.isFinite_ofNat hs) hx
  cases negative with
  | true => exact Binary64.isFinite_neg hfinite
  | false => exact hfinite

theorem isFinite_map_floatOf {p : Number × List Char} {rest : List Char}
    (hs : significand ≤ natLimit)
    (h : (floatOf negative significand e).map (fun x => (x, rest)) = some p) :
    p.1.isFinite = true := by
  obtain ⟨x, hx, rfl⟩ := Option.map_eq_some_iff.1 h
  exact isFinite_floatOf hs hx

theorem isFinite_exponent {p : Number × List Char} (hs : significand ≤ natLimit)
    (h : exponent negative significand e cs = some p) : p.1.isFinite = true := by
  unfold exponent at h
  split at h
  rename_i down ds _
  dsimp only at h
  split at h
  · cases h
  split at h
  · split at h
    · cases h
    · cases h
      exact Binary64.isFinite_zero negative
  · exact isFinite_map_floatOf hs h

theorem isFinite_exponentOrEnd {p : Number × List Char} (hs : significand ≤ natLimit)
    (h : exponentOrEnd negative significand e cs = some p) : p.1.isFinite = true := by
  unfold exponentOrEnd at h
  split at h
  · split at h
    · exact isFinite_exponent hs h
    · exact isFinite_map_floatOf hs h
  · exact isFinite_map_floatOf hs h

theorem isFinite_fraction {p : Number × List Char} (hs : significand ≤ natLimit)
    (h : fraction negative significand e cs = some p) : p.1.isFinite = true := by
  unfold fraction at h
  dsimp only at h
  split at h
  · cases h
  · exact isFinite_exponentOrEnd (absorb_le hs) h

theorem isFinite_whole (hs : significand ≤ natLimit) :
    (whole negative significand).isFinite = true := by
  rw [whole]
  split
  · split
    · exact Binary64.isFinite_neg (Binary64.isFinite_ofNat hs)
    · rfl
  · rfl

theorem isFinite_unsigned {p : Number × List Char} (h : unsigned negative cs = some p) :
    p.1.isFinite = true := by
  have hs : ∀ digits, (absorb 0 digits).1 ≤ natLimit := fun _ => absorb_le (Nat.zero_le _)
  unfold unsigned at h
  dsimp only at h
  split at h
  · cases h
  · split at h
    · split at h
      · exact isFinite_fraction (hs _) h
      split at h
      · exact isFinite_exponent (hs _) h
      split at h
      · cases h
        exact isFinite_whole (hs _)
      · exact isFinite_map_floatOf (hs _) h
    · split at h
      · cases h
        exact isFinite_whole (hs _)
      · exact isFinite_map_floatOf (hs _) h

end

/-! ## Values of a text -/

namespace Value

mutual

/-- Whether it is a value that JSON has: all its numbers are. -/
def isFinite : Value → Bool
  | .number n => n.isFinite
  | .array items => allFinite items
  | .object fields => fieldsFinite fields
  | .null => true
  | .bool _ => true
  | .string _ => true
termination_by structural v => v

/-- Whether all items are values that JSON has. -/
def allFinite : List Value → Bool
  | [] => true
  | v :: vs => isFinite v && allFinite vs
termination_by structural vs => vs

/-- Whether all fields hold values that JSON has. -/
def fieldsFinite : List (String × Value) → Bool
  | [] => true
  | (_, v) :: fields => isFinite v && fieldsFinite fields
termination_by structural fs => fs

end

theorem fieldsFinite_insertField {name : String} {v : Value} {fields : List (String × Value)}
    (hv : v.isFinite = true) (h : fieldsFinite fields = true) :
    fieldsFinite (insertField name v fields) = true := by
  induction fields with
  | nil => simp [insertField, fieldsFinite, hv]
  | cons field fields ih =>
    obtain ⟨other, old⟩ := field
    rw [fieldsFinite, Bool.and_eq_true] at h
    rw [insertField]
    split
    · simp [fieldsFinite, hv, h]
    split
    · simp [fieldsFinite, hv, h]
    · simp [fieldsFinite, h, ih h.2]

end Value

/-- What is read with some fuel is what JSON has: one statement for each of the readers, which call
each other. -/
structure ReadsFinite (fuel : Nat) : Prop where
  value : ∀ {depth cs p}, value? fuel depth cs = some p → p.1.isFinite = true
  items : ∀ {depth cs p}, items? fuel depth cs = some p → Value.allFinite p.1 = true
  fields : ∀ {depth fields cs p}, fields? fuel depth fields cs = some p →
    Value.fieldsFinite fields = true → Value.fieldsFinite p.1 = true

/-- A value made of what a reader found. -/
theorem isFinite_of_map {α : Type} {r : Option (α × List Char)} {f : α → Value}
    {p : Value × List Char} (h : r.map (fun (a, rest) => (f a, rest)) = some p)
    (hr : ∀ q, r = some q → (f q.1).isFinite = true) : p.1.isFinite = true := by
  obtain ⟨q, hq, rfl⟩ := Option.map_eq_some_iff.1 h
  exact hr q hq

theorem isFinite_of_word {word : String} {ds : List Char} {v : Value} {p : Value × List Char}
    (hv : v.isFinite = true) (h : (word? word ds).map (fun rest => (v, rest)) = some p) :
    p.1.isFinite = true := by
  obtain ⟨_, _, rfl⟩ := Option.map_eq_some_iff.1 h
  exact hv

section

variable {fuel depth : Nat} {cs : List Char}

theorem ReadsFinite.value_succ (ih : ReadsFinite fuel) {p : Value × List Char}
    (h : value? (fuel + 1) depth cs = some p) : p.1.isFinite = true := by
  rw [value?] at h
  cases hcs : skipBlank cs with
  | nil =>
    rw [hcs] at h
    cases h
  | cons c ds =>
    rw [hcs] at h
    dsimp only at h
    by_cases hnull : c = 'n'
    · rw [if_pos hnull] at h
      exact isFinite_of_word rfl h
    rw [if_neg hnull] at h
    by_cases htrue : c = 't'
    · rw [if_pos htrue] at h
      exact isFinite_of_word rfl h
    rw [if_neg htrue] at h
    by_cases hfalse : c = 'f'
    · rw [if_pos hfalse] at h
      exact isFinite_of_word rfl h
    rw [if_neg hfalse] at h
    by_cases hquote : c = '"'
    · rw [if_pos hquote] at h
      obtain ⟨_, _, rfl⟩ := Option.map_eq_some_iff.1 h
      rfl
    rw [if_neg hquote] at h
    by_cases hminus : c = '-'
    · rw [if_pos hminus] at h
      exact isFinite_of_map h fun _ hq => isFinite_unsigned hq
    rw [if_neg hminus] at h
    by_cases hdigit : Text.isDigit c = true
    · rw [if_pos hdigit] at h
      exact isFinite_of_map h fun _ hq => isFinite_unsigned hq
    rw [if_neg hdigit] at h
    by_cases hbracket : c = '['
    · rw [if_pos hbracket] at h
      split at h
      · cases h
      split at h
      · cases h
      split at h
      · cases h
        rfl
      · exact isFinite_of_map h fun _ hq => ih.items hq
    rw [if_neg hbracket] at h
    split at h
    · split at h
      · cases h
      split at h
      · cases h
      split at h
      · cases h
        rfl
      · exact isFinite_of_map h fun _ hq => ih.fields hq rfl
    · cases h

theorem ReadsFinite.items_succ (ih : ReadsFinite fuel) {p : List Value × List Char}
    (h : items? (fuel + 1) depth cs = some p) : Value.allFinite p.1 = true := by
  rw [items?] at h
  cases hitem : value? fuel depth cs with
  | none =>
    rw [hitem] at h
    cases h
  | some q =>
    obtain ⟨item, rest⟩ := q
    rw [hitem] at h
    dsimp only at h
    have hfinite := ih.value hitem
    split at h
    · cases h
    split at h
    · obtain ⟨q, hq, rfl⟩ := Option.map_eq_some_iff.1 h
      exact (Bool.and_eq_true ..).mpr ⟨hfinite, ih.items hq⟩
    split at h
    · cases h
      exact (Bool.and_eq_true ..).mpr ⟨hfinite, rfl⟩
    · cases h

theorem ReadsFinite.fields_succ (ih : ReadsFinite fuel) {fields : List (String × Value)}
    {p : List (String × Value) × List Char} (h : fields? (fuel + 1) depth fields cs = some p)
    (hfields : Value.fieldsFinite fields = true) : Value.fieldsFinite p.1 = true := by
  rw [fields?] at h
  split at h
  · cases h
  split at h
  · cases h
  split at h
  · cases h
  split at h
  · cases h
  split at h
  · cases h
  split at h
  · cases h
  -- Behind the name, the colon and the value the field is put in its place.
  rename_i value _ hvalue
  have hinsert : ∀ name, Value.fieldsFinite (Value.insertField name value fields) = true :=
    fun _ => Value.fieldsFinite_insertField (ih.value hvalue) hfields
  dsimp only at h
  split at h
  · cases h
  split at h
  · exact ih.fields h (hinsert _)
  split at h
  · cases h
    exact hinsert _
  · cases h

end

theorem readsFinite (fuel : Nat) : ReadsFinite fuel := by
  induction fuel with
  | zero => exact ⟨nofun, nofun, nofun⟩
  | succ fuel ih => exact ⟨ih.value_succ, ih.items_succ, ih.fields_succ⟩

/-- A value that is read from a text is one that JSON has. -/
theorem Value.isFinite_of_read? {text : String} {v : Value} (h : Value.read? text = some v) :
    v.isFinite = true := by
  unfold Value.read? at h
  dsimp only at h
  split at h
  · rename_i p hp
    split at h
    · cases h
      exact (readsFinite _).value hp
    · cases h
  · cases h

end Json

end PipelineScript

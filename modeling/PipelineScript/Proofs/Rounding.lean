import Mathlib.Algebra.Order.Field.Power
import Mathlib.Data.Rat.Cast.Order
import Mathlib.Tactic.FieldSimp
import Mathlib.Tactic.GCongr
import Mathlib.Tactic.Linarith
import Mathlib.Tactic.NormNum
import Mathlib.Tactic.Positivity
import Mathlib.Tactic.Ring
import PipelineScript.Decimal.Shortest

/-!
Rounding, and the decimal that reads back.

`Binary64.ofRatio` works on natural numbers; here it is described by the rational number that it
rounds. A quotient that differs from a value by less than the value over `2 ^ 54` is rounded to it
(`Binary64.ofRatio_of_near`), and the nearest decimal of seventeen digits does not differ by more.
So the search for the shortest decimal always succeeds, and what it finds reads back
(`Decimal.ofDecimal_shortest`).
-/
namespace PipelineScript

theorem twoTo_eq (n : Nat) : twoTo n = 2 ^ n := rfl

theorem tenTo_eq (n : Nat) : tenTo n = 10 ^ n := rfl

namespace Binary64

/-! ## Quotients -/

theorem shift_pos (num : Nat) {den : Nat} (hden : 0 < den) (e : Int) : 0 < (shift num den e).2 := by
  rw [shift]
  split
  · exact Nat.mul_pos hden (Nat.pow_pos (by decide))
  · exact hden

/-- Shifting divides by a power of two. -/
theorem shift_value (num : Nat) {den : Nat} (hden : 0 < den) (e : Int) :
    ((shift num den e).1 : ℚ) / (shift num den e).2 = (num : ℚ) / den / 2 ^ e := by
  have hd : (den : ℚ) ≠ 0 := by exact_mod_cast hden.ne'
  rw [shift]
  split
  · rename_i h
    obtain ⟨k, rfl⟩ := Int.eq_ofNat_of_zero_le h
    simp only [twoTo_eq, Int.toNat_natCast, zpow_natCast]
    push_cast
    field_simp
  · rename_i h
    obtain ⟨k, rfl⟩ : ∃ k : Nat, e = -k := ⟨(-e).toNat, by omega⟩
    simp only [twoTo_eq, Int.neg_neg, Int.toNat_natCast, zpow_neg, zpow_natCast]
    push_cast
    field_simp

/-- A quotient that is nearer to a whole number than one half is rounded to it. -/
theorem roundDiv_of_near {num den m : Nat} (hden : 0 < den)
    (hlow : 2 * (m : ℚ) - 1 < 2 * ((num : ℚ) / den))
    (hhigh : 2 * ((num : ℚ) / den) < 2 * m + 1) : roundDiv num den = m := by
  have hd : (0 : ℚ) < den := by exact_mod_cast hden
  rw [← mul_div_assoc, lt_div_iff₀ hd] at hlow
  rw [← mul_div_assoc, div_lt_iff₀ hd] at hhigh
  have hlow' : den * (2 * m) < den + 2 * num := by
    have : ((den * (2 * m) : Nat) : ℚ) < (den + 2 * num : Nat) := by push_cast; linarith
    exact_mod_cast this
  have hhigh' : 2 * num < den * (2 * m + 1) := by
    have : ((2 * num : Nat) : ℚ) < (den * (2 * m + 1) : Nat) := by push_cast; linarith
    exact_mod_cast this
  have hdiv := Nat.div_add_mod num den
  have hmod := Nat.mod_lt num hden
  have hle : num / den ≤ m := by
    have : den * (2 * (num / den)) < den * (2 * m + 1) := by
      calc den * (2 * (num / den)) = 2 * (den * (num / den)) := by ring
        _ ≤ 2 * num := by omega
        _ < den * (2 * m + 1) := hhigh'
    have := Nat.lt_of_mul_lt_mul_left this
    omega
  have hge : 2 * m < 2 * (num / den) + 3 := by
    have : den * (2 * m) < den * (2 * (num / den) + 3) := by
      calc den * (2 * m) < den + 2 * num := hlow'
        _ ≤ 2 * (den * (num / den)) + 3 * den := by omega
        _ = den * (2 * (num / den) + 3) := by ring
    exact Nat.lt_of_mul_lt_mul_left this
  -- The quotient is `m` or one less, and the remainder says which.
  rcases (by omega : m = num / den ∨ m = num / den + 1) with hm | hm
  · have hrest : 2 * (num % den) < den := by
      rw [hm] at hhigh'
      have : den * (2 * (num / den) + 1) = 2 * (den * (num / den)) + den := by ring
      omega
    simp only [roundDiv, if_pos hrest]
    exact hm.symm
  · have hrest : den < 2 * (num % den) := by
      rw [hm] at hlow'
      have : den * (2 * (num / den + 1)) = 2 * (den * (num / den)) + 2 * den := by ring
      omega
    simp only [roundDiv, if_neg (by omega : ¬2 * (num % den) < den), if_pos hrest]
    exact hm.symm

/-- A factor of both parts of a quotient does not matter. -/
theorem roundDiv_mul {k : Nat} (hk : 0 < k) (num den : Nat) :
    roundDiv (num * k) (den * k) = roundDiv num den := by
  have h₁ : 2 * (num % den * k) < den * k ↔ 2 * (num % den) < den := by
    rw [← Nat.mul_assoc]
    exact Nat.mul_lt_mul_right hk
  have h₂ : den * k < 2 * (num % den * k) ↔ den < 2 * (num % den) := by
    rw [← Nat.mul_assoc]
    exact Nat.mul_lt_mul_right hk
  simp only [roundDiv, Nat.mul_div_mul_right _ _ hk, Nat.mul_mod_mul_right, h₁, h₂]

/-! ## The exponent at which a quotient is rounded -/

/-- The quotient `r` has 53 bits before the point when divided by `2 ^ e`. -/
def Scales (r : ℚ) (e : Int) : Prop := 2 ^ (52 : Int) * 2 ^ e ≤ r ∧ r < 2 ^ (53 : Int) * 2 ^ e

theorem Scales.le {r : ℚ} {e e' : Int} (h : 2 ^ (52 : Int) * 2 ^ e ≤ r)
    (h' : r < 2 ^ (53 : Int) * 2 ^ e') : e ≤ e' := by
  have hlt : (2 : ℚ) ^ (52 + e) < 2 ^ (53 + e') := by
    rw [zpow_add₀ (by norm_num), zpow_add₀ (by norm_num)]
    exact lt_of_le_of_lt h h'
  have := (zpow_lt_zpow_iff_right₀ (by norm_num : (1 : ℚ) < 2)).1 hlt
  omega

/-- There is one such exponent. -/
theorem Scales.unique {r : ℚ} {e e' : Int} (h : Scales r e) (h' : Scales r e') : e = e' :=
  Int.le_antisymm (Scales.le h.1 h'.2) (Scales.le h'.1 h.2)

/-- Products of powers of two are equal if the exponents have the same sum. -/
theorem two_zpow_mul {a b c d : Int} (h : a + b = c + d) :
    (2 : ℚ) ^ a * 2 ^ b = 2 ^ c * 2 ^ d := by
  rw [← zpow_add₀ (by norm_num), ← zpow_add₀ (by norm_num), h]

theorem log2_bounds {n : Nat} (hn : 0 < n) :
    (2 : ℚ) ^ (n.log2 : Int) ≤ n ∧ (n : ℚ) < 2 ^ ((n.log2 : Int) + 1) := by
  constructor
  · rw [zpow_natCast]
    exact_mod_cast Nat.log2_self_le hn.ne'
  · have := @Nat.lt_log2_self n
    rw [show ((n.log2 : Int) + 1) = ((n.log2 + 1 : Nat) : Int) by push_cast; rfl, zpow_natCast]
    exact_mod_cast this

/-- The logarithms of its parts tell a quotient up to a factor of four. -/
theorem log2_div_bounds {num den : Nat} (hnum : 0 < num) (hden : 0 < den) {e : Int}
    (he : e = (num.log2 : Int) - den.log2 - 53) :
    (2 : ℚ) ^ (52 : Int) * 2 ^ e ≤ (num : ℚ) / den ∧
      (num : ℚ) / den < 2 ^ (54 : Int) * 2 ^ e := by
  have hd : (0 : ℚ) < den := by exact_mod_cast hden
  obtain ⟨hn₁, hn₂⟩ := log2_bounds hnum
  obtain ⟨hd₁, hd₂⟩ := log2_bounds hden
  constructor
  · rw [le_div_iff₀ hd]
    calc (2 : ℚ) ^ (52 : Int) * 2 ^ e * den
        ≤ 2 ^ (52 : Int) * 2 ^ e * 2 ^ ((den.log2 : Int) + 1) := by gcongr
      _ = 2 ^ (52 + e) * 2 ^ ((den.log2 : Int) + 1) := by rw [zpow_add₀ (by norm_num) 52 e]
      _ = 2 ^ (num.log2 : Int) * 2 ^ (0 : Int) := two_zpow_mul (by omega)
      _ ≤ num := by simpa using hn₁
  · rw [div_lt_iff₀ hd]
    calc (num : ℚ) < 2 ^ ((num.log2 : Int) + 1) * 2 ^ (0 : Int) := by simpa using hn₂
      _ = 2 ^ (54 + e) * 2 ^ (den.log2 : Int) := two_zpow_mul (by omega)
      _ = 2 ^ (54 : Int) * 2 ^ e * 2 ^ (den.log2 : Int) := by rw [zpow_add₀ (by norm_num)]
      _ ≤ 2 ^ (54 : Int) * 2 ^ e * den := by gcongr

/-- Whether the whole part of a shifted quotient has 53 bits is a question about the quotient. -/
theorem shift_lt_iff (num : Nat) {den : Nat} (hden : 0 < den) (e : Int) :
    (shift num den e).1 / (shift num den e).2 < 2 * fractions ↔
      (num : ℚ) / den < 2 ^ (53 : Int) * 2 ^ e := by
  have hpos := shift_pos num hden e
  have hq : (0 : ℚ) < (shift num den e).2 := by exact_mod_cast hpos
  have hpow : (0 : ℚ) < 2 ^ e := zpow_pos (by norm_num) _
  have hfractions : (2 : ℚ) ^ (53 : Int) = (2 * fractions : Nat) := by norm_num [fractions]
  rw [Nat.div_lt_iff_lt_mul hpos, ← div_lt_iff₀ hpow, ← shift_value num hden, hfractions,
    div_lt_iff₀ hq]
  exact_mod_cast Iff.rfl

/-- `scaleOf` finds it, and takes the least exponent there is in place of a smaller one. -/
theorem scaleOf_eq {num den : Nat} (hnum : 0 < num) (hden : 0 < den) :
    ∃ e, Scales ((num : ℚ) / den) e ∧ scaleOf num den = max (-1074) e := by
  let rough : Int := (num.log2 : Int) - den.log2 - 53
  obtain ⟨hlow, hhigh⟩ := log2_div_bounds hnum hden (rfl : rough = _)
  have hscale : scaleOf num den =
      max (-1074) (if (shift num den rough).1 / (shift num den rough).2 < 2 * fractions then rough
        else rough + 1) := rfl
  rw [hscale]
  split
  · rename_i h
    exact ⟨rough, ⟨hlow, (shift_lt_iff num hden rough).1 h⟩, rfl⟩
  · rename_i h
    have h := not_lt.1 (mt (shift_lt_iff num hden rough).2 h)
    refine ⟨rough + 1, ⟨?_, ?_⟩, rfl⟩
    · rwa [two_zpow_mul (c := 53) (d := rough) (by omega)]
    · rwa [two_zpow_mul (c := 54) (d := rough) (by omega)]

/-! ## Rounding -/

/-- The word of a value below the sign bit, from its significand and exponent. -/
def wordOf (m : Nat) (e : Int) : Nat := (e + 1074).toNat * fractions + m

/-- How a quotient is rounded, once its exponent is known. -/
theorem ofRatio_of_scaleOf {num den m : Nat} {e : Int} (negative : Bool) (hnum : 0 < num)
    (hden : 0 < den) (he : scaleOf num den = e)
    (hlow : (2 * (m : ℚ) - 1) * 2 ^ e < 2 * ((num : ℚ) / den))
    (hhigh : 2 * ((num : ℚ) / den) < (2 * m + 1) * 2 ^ e)
    (hword : wordOf m e < topField * fractions) :
    ofRatio negative num den = ofMagnitude negative (wordOf m e) := by
  have hpow : (0 : ℚ) < 2 ^ e := zpow_pos (by norm_num) _
  have hround : roundDiv (shift num den e).1 (shift num den e).2 = m := by
    refine roundDiv_of_near (shift_pos num hden e) ?_ ?_
    · rw [shift_value num hden, ← mul_div_assoc, lt_div_iff₀ hpow]
      exact hlow
    · rw [shift_value num hden, ← mul_div_assoc, div_lt_iff₀ hpow]
      exact hhigh
  have hratio : ofRatio negative num den =
      if topField * fractions ≤ wordOf (roundDiv (shift num den e).1 (shift num den e).2) e then
        infinity negative
      else ofMagnitude negative (wordOf (roundDiv (shift num den e).1 (shift num den e).2) e) := by
    rw [ofRatio, if_neg hnum.ne', he]
    rfl
  rw [hratio, hround, if_neg (by omega)]

/-- The least significand of an exponent is twice as many steps of the exponent before it. -/
theorem wordOf_double {e : Int} (he : -1074 < e) :
    wordOf (2 * 2 ^ 52) (e - 1) = wordOf (2 ^ 52) e := by
  have hexp : (e + 1074).toNat = (e - 1 + 1074).toNat + 1 := by omega
  have hfractions : fractions = 2 ^ 52 := by norm_num [fractions]
  rw [wordOf, wordOf, hexp, hfractions]
  ring

/-- Right below a power of two the values are nearer to each other than above it, but a quotient
that is near enough to the power is still rounded to it. -/
theorem ofRatio_below_power {num den : Nat} {e : Int} (negative : Bool) (hnum : 0 < num)
    (hden : 0 < den) (he : -1074 < e)
    (hlow : (2 : ℚ) ^ 52 * 2 ^ e * (1 - 1 / 2 ^ 54) < (num : ℚ) / den)
    (hhigh : (num : ℚ) / den < 2 ^ 52 * 2 ^ e)
    (hword : wordOf (2 ^ 52) e < topField * fractions) :
    ofRatio negative num den = ofMagnitude negative (wordOf (2 ^ 52) e) := by
  have hhalf : (2 : ℚ) ^ e = 2 * 2 ^ (e - 1) := by
    rw [zpow_sub_one₀ (by norm_num)]
    ring
  have hpow : (0 : ℚ) < 2 ^ (e - 1) := zpow_pos (by norm_num) _
  have h52 : (2 : ℚ) ^ (52 : Int) = 2 ^ 52 := by norm_num
  have h53 : (2 : ℚ) ^ (53 : Int) = 2 * 2 ^ 52 := by norm_num
  have hm : ((2 * 2 ^ 52 : Nat) : ℚ) = 2 * 2 ^ 52 := by norm_num
  rw [hhalf] at hlow hhigh
  -- Below the power the exponent is one less, so the power is an even significand there.
  obtain ⟨e₀, hscales, hscale⟩ := scaleOf_eq hnum hden
  have he₀ : e₀ = e - 1 := by
    refine Scales.unique hscales ⟨?_, ?_⟩
    · rw [h52]
      linarith
    · rw [h53]
      linarith
  rw [← wordOf_double he] at hword ⊢
  refine ofRatio_of_scaleOf negative hnum hden (by rw [hscale, he₀]; omega) ?_ ?_ hword
  · rw [hm]
    linarith
  · rw [hm]
    linarith

/-- A quotient that differs from `m * 2 ^ e` by less than one part in `2 ^ 54` is rounded to the
value with that significand and exponent. -/
theorem ofRatio_of_near {num den m : Nat} {e : Int} (negative : Bool) (hnum : 0 < num)
    (hden : 0 < den) (hm : m < 2 ^ 53) (he : -1074 ≤ e) (hnormal : 2 ^ 52 ≤ m ∨ e = -1074)
    (hlow : m * 2 ^ e * (1 - 1 / 2 ^ 54) < (num : ℚ) / den)
    (hhigh : (num : ℚ) / den < m * 2 ^ e * (1 + 1 / 2 ^ 54))
    (hword : wordOf m e < topField * fractions) :
    ofRatio negative num den = ofMagnitude negative (wordOf m e) := by
  have hpow : (0 : ℚ) < 2 ^ e := zpow_pos (by norm_num) _
  have h52 : (2 : ℚ) ^ (52 : Int) = 2 ^ 52 := by norm_num
  have h53 : (2 : ℚ) ^ (53 : Int) = 2 ^ 53 := by norm_num
  have hm' : (m : ℚ) + 1 ≤ 2 ^ 53 := by exact_mod_cast Nat.succ_le_of_lt hm
  have hmpow : (m : ℚ) * 2 ^ e ≤ (2 ^ 53 - 1) * 2 ^ e := by
    gcongr
    linarith
  have hnear₁ : (2 * (m : ℚ) - 1) * 2 ^ e < 2 * ((num : ℚ) / den) := by
    linarith
  have hnear₂ : 2 * ((num : ℚ) / den) < (2 * m + 1) * 2 ^ e := by
    linarith
  obtain ⟨e₀, hscales, hscale⟩ := scaleOf_eq hnum hden
  by_cases hr : (2 : ℚ) ^ (52 : Int) * 2 ^ e ≤ (num : ℚ) / den
  · -- The quotient lies in the range of the value.
    have hup : (num : ℚ) / den < 2 ^ (53 : Int) * 2 ^ e := by
      rw [h53]
      linarith
    obtain rfl : e = e₀ := Scales.unique ⟨hr, hup⟩ hscales
    exact ofRatio_of_scaleOf negative hnum hden (by rw [hscale]; omega) hnear₁ hnear₂ hword
  have hr := not_le.1 hr
  by_cases hleast : e = -1074
  · -- There is no smaller exponent, so the quotient is rounded with this one.
    have hlt : e₀ ≤ e - 1 := by
      refine Scales.le hscales.1 ?_
      rwa [two_zpow_mul (c := 52) (d := e) (by omega)]
    exact ofRatio_of_scaleOf negative hnum hden (by rw [hscale]; omega) hnear₁ hnear₂ hword
  · -- The value is a power of two and the quotient lies in the range below it.
    have hm52 : m = 2 ^ 52 := by
      have hge := hnormal.resolve_right hleast
      have hlt : (m : ℚ) * (1 - 1 / 2 ^ 54) * 2 ^ e < 2 ^ 52 * 2 ^ e := by linarith
      have hlt := lt_of_mul_lt_mul_right hlt hpow.le
      have hlt : (m : ℚ) < 2 ^ 52 + 1 := by linarith
      have hlt : m < 2 ^ 52 + 1 := by exact_mod_cast hlt
      omega
    subst hm52
    push_cast at hlow
    exact ofRatio_below_power negative hnum hden (by omega) hlow (h52 ▸ hr) hword

/-- A factor of both parts of a quotient does not matter to how it is rounded. -/
theorem ofRatio_mul {k : Nat} (hk : 0 < k) (negative : Bool) (num : Nat) {den : Nat}
    (hden : 0 < den) : ofRatio negative (num * k) (den * k) = ofRatio negative num den := by
  rcases Nat.eq_zero_or_pos num with rfl | hnum
  · simp [ofRatio]
  have hscale : scaleOf (num * k) (den * k) = scaleOf num den := by
    obtain ⟨e, he, hs⟩ := scaleOf_eq hnum hden
    obtain ⟨e', he', hs'⟩ := scaleOf_eq (Nat.mul_pos hnum hk) (Nat.mul_pos hden hk)
    have hratio : ((num * k : Nat) : ℚ) / (den * k : Nat) = (num : ℚ) / den := by
      have hk' : (k : ℚ) ≠ 0 := by exact_mod_cast hk.ne'
      push_cast
      exact mul_div_mul_right _ _ hk'
    rw [hratio] at he'
    rw [hs, hs', he.unique he']
  have hshift : ∀ e, shift (num * k) (den * k) e =
      ((shift num den e).1 * k, (shift num den e).2 * k) := by
    intro e
    rw [shift, shift]
    split
    · simp only [Prod.mk.injEq, true_and]
      ring
    · simp only [Prod.mk.injEq, and_true]
      ring
  rw [ofRatio, ofRatio, if_neg (Nat.mul_pos hnum hk).ne', if_neg hnum.ne', hscale]
  simp only [hshift, roundDiv_mul hk]

/-! ## Values -/

section

variable {x : Binary64}

theorem wordOf_eq (h : x.negative = false) :
    wordOf x.significand x.exponent = x.bits.toNat := by
  have hbits : x.bits.toNat < signBit := by simpa [negative] using h
  have hdiv := Nat.div_add_mod x.bits.toNat fractions
  have hfield : x.field = x.bits.toNat / fractions := by
    rw [field]
    refine Nat.mod_eq_of_lt ?_
    rw [Nat.div_lt_iff_lt_mul (by decide)]
    calc x.bits.toNat < signBit := hbits
      _ = (topField + 1) * fractions := by decide
  rw [wordOf, significand, exponent, fraction]
  split
  · rename_i h₀
    rw [h₀]
    rw [← hfield, h₀] at hdiv
    simpa using hdiv
  · rename_i h₀
    have hexp : ((max x.field 1 : Nat) - 1075 + 1074 : Int).toNat = x.field - 1 := by omega
    rw [hexp]
    rw [← hfield] at hdiv
    have hsplit : fractions * x.field = (x.field - 1) * fractions + fractions := by
      obtain ⟨k, hk⟩ : ∃ k, x.field = k + 1 := ⟨x.field - 1, by omega⟩
      rw [hk]
      simp only [Nat.add_sub_cancel]
      ring
    omega

theorem wordOf_lt (h : x.negative = false) (hf : x.isFinite = true) :
    wordOf x.significand x.exponent < topField * fractions := by
  have hbits : x.bits.toNat < signBit := by simpa [negative] using h
  rw [wordOf_eq h]
  have hfield : x.bits.toNat / fractions % (topField + 1) ≠ topField := by
    simpa [isFinite, field] using hf
  have hlt : x.bits.toNat / fractions < topField + 1 := by
    rw [Nat.div_lt_iff_lt_mul (by decide)]
    calc x.bits.toNat < signBit := hbits
      _ = (topField + 1) * fractions := by decide
  rw [Nat.mod_eq_of_lt hlt] at hfield
  rw [← Nat.div_lt_iff_lt_mul (by decide)]
  omega

theorem significand_lt (x : Binary64) : x.significand < 2 ^ 53 := by
  have hfraction : x.fraction < fractions := Nat.mod_lt _ (by decide)
  have h : fractions + fractions = 2 ^ 53 := by decide
  rw [significand]
  split <;> omega

theorem exponent_bounds (hf : x.isFinite = true) : -1074 ≤ x.exponent ∧ x.exponent ≤ 971 := by
  have hfield : x.field < topField + 1 := Nat.mod_lt _ (by decide)
  have hne : x.field ≠ topField := by simpa [isFinite] using hf
  rw [topField] at hfield hne
  rw [exponent]
  omega

theorem normal_or_least (x : Binary64) : 2 ^ 52 ≤ x.significand ∨ x.exponent = -1074 := by
  by_cases h : x.field = 0
  · exact .inr (by rw [exponent, h]; rfl)
  · left
    rw [significand, if_neg h]
    exact Nat.le_add_right (2 ^ 52) _

/-- The quotient of a value is its significand times a power of two. -/
theorem toRatio_value (x : Binary64) :
    0 < x.toRatio.2 ∧ (x.toRatio.1 : ℚ) / x.toRatio.2 = x.significand * 2 ^ x.exponent := by
  rw [toRatio]
  split
  · rename_i h
    obtain ⟨k, hk⟩ := Int.eq_ofNat_of_zero_le h
    refine ⟨Nat.one_pos, ?_⟩
    simp only [hk, twoTo_eq, Int.toNat_natCast, zpow_natCast]
    push_cast
    ring
  · rename_i h
    obtain ⟨k, hk⟩ : ∃ k : Nat, x.exponent = -k := ⟨(-x.exponent).toNat, by omega⟩
    simp only [hk, twoTo_eq, Int.neg_neg, Int.toNat_natCast, zpow_neg, zpow_natCast]
    refine ⟨Nat.pow_pos (by decide), ?_⟩
    push_cast
    rw [div_eq_mul_inv]

theorem ofMagnitude_toNat (x : Binary64) : ofMagnitude false x.bits.toNat = x := by
  rw [ofMagnitude]
  simp

/-- A quotient that differs from a value by less than one part in `2 ^ 54` is rounded to it. -/
theorem ofRatio_eq_of_near {num den : Nat} (hn : x.negative = false) (hf : x.isFinite = true)
    (hnum : 0 < num) (hden : 0 < den)
    (hlow : (x.toRatio.1 : ℚ) / x.toRatio.2 * (1 - 1 / 2 ^ 54) < (num : ℚ) / den)
    (hhigh : (num : ℚ) / den < (x.toRatio.1 : ℚ) / x.toRatio.2 * (1 + 1 / 2 ^ 54)) :
    ofRatio false num den = x := by
  obtain ⟨-, hvalue⟩ := x.toRatio_value
  rw [hvalue] at hlow hhigh
  have := ofRatio_of_near false hnum hden x.significand_lt (exponent_bounds hf).1 x.normal_or_least
    hlow hhigh (wordOf_lt hn hf)
  rw [this, wordOf_eq hn, ofMagnitude_toNat]

end

end Binary64

/-! ## Decimals -/

theorem digitCount_bounds {n : Nat} (hn : 0 < n) :
    0 < digitCount n ∧ 10 ^ (digitCount n - 1) ≤ n ∧ n < 10 ^ digitCount n := by
  -- The digits of a number are those of its tenth and one more.
  induction n using Nat.strongRecOn with
  | ind n ih =>
    rw [digitCount, if_neg hn.ne', Nat.toDigits_eq_if (by decide)]
    split
    · exact ⟨Nat.one_pos, hn, by simpa using ‹n < 10›⟩
    · rename_i hge
      obtain ⟨hpos, hlow, hhigh⟩ := ih (n / 10) (by omega) (by omega)
      rw [digitCount, if_neg (by omega)] at hpos hlow hhigh
      rw [List.length_append, List.length_singleton]
      obtain ⟨k, hk⟩ : ∃ k, (Nat.toDigits 10 (n / 10)).length = k + 1 :=
        ⟨_, (Nat.sub_add_cancel hpos).symm⟩
      rw [hk] at hlow hhigh ⊢
      simp only [Nat.add_sub_cancel] at hlow
      refine ⟨by omega, ?_, ?_⟩
      · simp only [Nat.add_sub_cancel, Nat.pow_succ]
        omega
      · rw [Nat.pow_succ]
        omega

theorem digitCount_mul_ten {n : Nat} (hn : 0 < n) : digitCount (n * 10) = digitCount n + 1 := by
  rw [digitCount, digitCount, if_neg (by omega), if_neg hn.ne', Nat.toDigits_eq_if (by decide),
    if_neg (by omega), Nat.mul_div_cancel _ (by decide), List.length_append, List.length_singleton]

theorem digitCount_le {n k : Nat} (h : n < 10 ^ k) : digitCount n ≤ k := by
  rcases Nat.eq_zero_or_pos n with rfl | hn
  · simp [digitCount]
  · obtain ⟨-, hlow, -⟩ := digitCount_bounds hn
    have := (Nat.pow_lt_pow_iff_right (by decide : 1 < 10)).1 (lt_of_le_of_lt hlow h)
    omega

/-- A zero at the end of the digits does not matter to how a decimal is rounded. -/
theorem Binary64.ofDecimal_mul_ten (negative : Bool) {digits : Nat} (hd : 0 < digits) (e : Int) :
    ofDecimal negative ⟨digits * 10, e - 1⟩ = ofDecimal negative ⟨digits, e⟩ := by
  have htop : (digitCount (digits * 10) + (e - 1) : Int) = digitCount digits + e := by
    rw [digitCount_mul_ten hd]
    push_cast
    omega
  have hround :
      (if 0 ≤ e - 1 then ofRatio negative (digits * 10 * tenTo (e - 1).toNat) 1
        else ofRatio negative (digits * 10) (tenTo (-(e - 1)).toNat)) =
      if 0 ≤ e then ofRatio negative (digits * tenTo e.toNat) 1
        else ofRatio negative digits (tenTo (-e).toNat) := by
    by_cases hpos : 0 ≤ e - 1
    · have hexp : e.toNat = (e - 1).toNat + 1 := by omega
      rw [if_pos hpos, if_pos (by omega), hexp, tenTo_eq, tenTo_eq, Nat.pow_succ]
      congr 1
      ring
    · have hexp : (-(e - 1)).toNat = (-e).toNat + 1 := by omega
      have hscale := ofRatio_mul (k := 10) (by decide) negative digits
        (Nat.pow_pos (by decide) : 0 < 10 ^ (-e).toNat)
      rw [if_neg hpos, hexp, tenTo_eq, Nat.pow_succ, hscale]
      split
      · have h₀ : e = 0 := by omega
        simp [h₀, tenTo_eq]
      · rw [tenTo_eq]
  simp only [ofDecimal, htop, if_neg (by omega : ¬digits * 10 = 0), if_neg hd.ne', hround]

theorem Binary64.ofDecimal_zero (negative : Bool) (e : Int) :
    ofDecimal negative ⟨0, e⟩ = zero negative := by
  simp [ofDecimal]

theorem Binary64.ofDecimal_mul_pow (negative : Bool) (digits k : Nat) (e : Int) :
    ofDecimal negative ⟨digits * 10 ^ k, e - k⟩ = ofDecimal negative ⟨digits, e⟩ := by
  rcases Nat.eq_zero_or_pos digits with rfl | hd
  · simp [ofDecimal_zero]
  induction k with
  | zero => simp
  | succ k ih =>
    have hstep := ofDecimal_mul_ten negative (Nat.mul_pos hd (Nat.pow_pos (by decide) : 0 < 10 ^ k))
      (e - k)
    rw [← ih, ← hstep]
    congr 2
    · ring
    · push_cast
      omega

namespace Decimal

theorem ofDecimal_trimZeros (negative : Bool) (fuel : Nat) (d : Decimal) :
    Binary64.ofDecimal negative (trimZeros fuel d) = Binary64.ofDecimal negative d := by
  induction fuel generalizing d with
  | zero => rfl
  | succ fuel ih =>
    rw [trimZeros]
    split
    · rename_i h
      rw [ih]
      have hstep := Binary64.ofDecimal_mul_ten negative
        (by omega : 0 < d.digits / 10) (d.exponent + 1)
      rw [← hstep, Nat.div_mul_cancel (Nat.dvd_of_mod_eq_zero h.1), Int.add_sub_cancel]
    · rfl

/-- The quotient lies between two powers of ten. -/
theorem topOf_bounds {num den : Nat} (hnum : 0 < num) (hden : 0 < den) :
    (10 : ℚ) ^ (topOf num den - 1) ≤ (num : ℚ) / den ∧
      (num : ℚ) / den < 10 ^ topOf num den := by
  have hd : (0 : ℚ) < den := by exact_mod_cast hden
  have hn : (0 : ℚ) < num := by exact_mod_cast hnum
  rw [le_div_iff₀ hd, div_lt_iff₀ hd, topOf]
  split
  -- From one on, the whole part has as many digits as the quotient.
  · rename_i hle
    obtain ⟨hpos, hlow, hhigh⟩ := digitCount_bounds (Nat.div_pos hle hden)
    obtain ⟨k, hk⟩ : ∃ k, digitCount (num / den) = k + 1 := ⟨_, (Nat.sub_add_cancel hpos).symm⟩
    rw [hk] at hlow hhigh ⊢
    rw [Nat.add_sub_cancel, Nat.le_div_iff_mul_le hden] at hlow
    rw [Nat.div_lt_iff_lt_mul hden] at hhigh
    constructor
    · rw [show ((k + 1 : Nat) : Int) - 1 = (k : Int) by push_cast; omega, zpow_natCast]
      exact_mod_cast hlow
    · rw [zpow_natCast]
      exact_mod_cast hhigh
  -- Below one, the digits of the inverse count the zeros behind the point.
  · rename_i hlt
    have hq : 0 < (den - 1) / num := Nat.div_pos (by omega) hnum
    obtain ⟨hpos, hlow, hhigh⟩ := digitCount_bounds hq
    obtain ⟨k, hk⟩ : ∃ k, digitCount ((den - 1) / num) = k + 1 :=
      ⟨_, (Nat.sub_add_cancel hpos).symm⟩
    rw [hk] at hlow hhigh ⊢
    rw [Nat.add_sub_cancel, Nat.le_div_iff_mul_le hnum] at hlow
    rw [Nat.div_lt_iff_lt_mul hnum] at hhigh
    constructor
    · rw [show (1 - ((k + 1 : Nat) : Int) - 1) = -((k + 1 : Nat) : Int) by omega, zpow_neg,
        zpow_natCast, inv_mul_le_iff₀ (by positivity)]
      have : den ≤ 10 ^ (k + 1) * num := by omega
      exact_mod_cast this
    · rw [show (1 - ((k + 1 : Nat) : Int)) = -(k : Int) by push_cast; omega, zpow_neg,
        zpow_natCast, lt_inv_mul_iff₀ (by positivity)]
      have : 10 ^ k * num < den := by omega
      exact_mod_cast this

section

variable {x : Binary64}

/-- The magnitudes of the values that are not zero. -/
theorem toRatio_bounds (hf : x.isFinite = true) (hnum : 0 < x.toRatio.1) :
    (2 : ℚ) ^ (-1074 : Int) ≤ (x.toRatio.1 : ℚ) / x.toRatio.2 ∧
      (x.toRatio.1 : ℚ) / x.toRatio.2 < 2 ^ (1024 : Int) := by
  obtain ⟨hden, hvalue⟩ := x.toRatio_value
  obtain ⟨hlow, hhigh⟩ := Binary64.exponent_bounds hf
  have hm : 1 ≤ x.significand := by
    by_contra hzero
    have hzero : x.significand = 0 := by omega
    have hn : (0 : ℚ) < x.toRatio.1 := by exact_mod_cast hnum
    have hd : (0 : ℚ) < x.toRatio.2 := by exact_mod_cast hden
    have : (0 : ℚ) < (x.toRatio.1 : ℚ) / x.toRatio.2 := div_pos hn hd
    rw [hvalue, hzero] at this
    simp at this
  have hm₁ : (1 : ℚ) ≤ x.significand := by exact_mod_cast hm
  have hm₂ : (x.significand : ℚ) < 2 ^ (53 : Int) := by
    have := x.significand_lt
    have h53 : (2 : ℚ) ^ (53 : Int) = ((2 ^ 53 : Nat) : ℚ) := by norm_num
    rw [h53]
    exact_mod_cast this
  rw [hvalue]
  constructor
  · calc (2 : ℚ) ^ (-1074 : Int) ≤ 2 ^ x.exponent :=
          zpow_le_zpow_right₀ (by norm_num) hlow
      _ = 1 * 2 ^ x.exponent := (one_mul _).symm
      _ ≤ _ := by gcongr
  · calc (x.significand : ℚ) * 2 ^ x.exponent < 2 ^ (53 : Int) * 2 ^ x.exponent := by gcongr
      _ ≤ 2 ^ (53 : Int) * 2 ^ (971 : Int) := by
          gcongr
          norm_num
      _ = 2 ^ (1024 : Int) := by rw [← zpow_add₀ (by norm_num)]; norm_num

theorem topOf_toRatio (hf : x.isFinite = true) (hnum : 0 < x.toRatio.1) :
    -324 < topOf x.toRatio.1 x.toRatio.2 ∧ topOf x.toRatio.1 x.toRatio.2 < 310 := by
  obtain ⟨hlow, hhigh⟩ := toRatio_bounds hf hnum
  obtain ⟨htop₁, htop₂⟩ := topOf_bounds hnum x.toRatio_value.1
  constructor
  · have hnat : 2 ^ 1074 < 10 ^ 324 := by decide +kernel
    have hten : (10 : ℚ) ^ (-324 : Int) < 2 ^ (-1074 : Int) := by
      rw [zpow_neg, zpow_neg]
      exact (inv_lt_inv₀ (by positivity) (by positivity)).2 (by exact_mod_cast hnat)
    have hlt := lt_of_lt_of_le hten (hlow.trans htop₂.le)
    exact (zpow_lt_zpow_iff_right₀ (by norm_num)).1 hlt
  · have hnat : 2 ^ 1024 < 10 ^ 309 := by decide +kernel
    have hten : (2 : ℚ) ^ (1024 : Int) < 10 ^ (309 : Int) := by exact_mod_cast hnat
    have hlt := lt_of_le_of_lt htop₁ (hhigh.trans hten)
    have := (zpow_lt_zpow_iff_right₀ (by norm_num : (1 : ℚ) < 10)).1 hlt
    omega

/-- A decimal that differs from a value by less than one part in `2 ^ 54` reads back as it. -/
theorem ofDecimal_eq_of_near {digits : Nat} {e : Int} (hn : x.negative = false)
    (hf : x.isFinite = true) (hd : 0 < digits)
    (htop : -400 ≤ digitCount digits + e ∧ digitCount digits + e ≤ 400)
    (hlow : (x.toRatio.1 : ℚ) / x.toRatio.2 * (1 - 1 / 2 ^ 54) < digits * 10 ^ e)
    (hhigh : (digits : ℚ) * 10 ^ e < (x.toRatio.1 : ℚ) / x.toRatio.2 * (1 + 1 / 2 ^ 54)) :
    Binary64.ofDecimal false ⟨digits, e⟩ = x := by
  simp only [Binary64.ofDecimal, if_neg hd.ne',
    if_neg (by omega : ¬400 < (digitCount digits : Int) + e),
    if_neg (by omega : ¬(digitCount digits : Int) + e < -400)]
  split
  · rename_i he
    obtain ⟨k, rfl⟩ := Int.eq_ofNat_of_zero_le he
    have hvalue : ((digits * tenTo (k : Int).toNat : Nat) : ℚ) / (1 : Nat) =
        digits * 10 ^ (k : Int) := by
      rw [tenTo_eq, zpow_natCast, Int.toNat_natCast]
      push_cast
      simp
    refine Binary64.ofRatio_eq_of_near hn hf (Nat.mul_pos hd (Nat.pow_pos (by decide))) (by decide)
      ?_ ?_
    · rw [hvalue]
      exact hlow
    · rw [hvalue]
      exact hhigh
  · rename_i he
    obtain ⟨k, rfl⟩ : ∃ k : Nat, e = -k := ⟨(-e).toNat, by omega⟩
    have hvalue :
        (digits : ℚ) / (tenTo (- -(k : Int)).toNat : Nat) = digits * 10 ^ (-(k : Int)) := by
      rw [tenTo_eq, zpow_neg, zpow_natCast, Int.neg_neg, Int.toNat_natCast]
      push_cast
      rw [div_eq_mul_inv]
    refine Binary64.ofRatio_eq_of_near hn hf hd (Nat.pow_pos (by decide)) ?_ ?_
    · rw [hvalue]
      exact hlow
    · rw [hvalue]
      exact hhigh

/-- A quotient divided by a power of ten. -/
theorem tens_value (num : Nat) {den : Nat} (hden : 0 < den) (e : Int) :
    ∃ n d : Nat,
      (if 0 ≤ e then (num, den * tenTo e.toNat) else (num * tenTo (-e).toNat, den)) = (n, d) ∧
      0 < d ∧ (n : ℚ) / d * 10 ^ e = (num : ℚ) / den := by
  have hd : (den : ℚ) ≠ 0 := by exact_mod_cast hden.ne'
  split
  · rename_i he
    obtain ⟨k, rfl⟩ := Int.eq_ofNat_of_zero_le he
    refine ⟨_, _, rfl, Nat.mul_pos hden (Nat.pow_pos (by decide)), ?_⟩
    rw [tenTo_eq, zpow_natCast, Int.toNat_natCast]
    push_cast
    field_simp
  · rename_i he
    obtain ⟨k, rfl⟩ : ∃ k : Nat, e = -k := ⟨(-e).toNat, by omega⟩
    refine ⟨_, _, rfl, hden, ?_⟩
    rw [tenTo_eq, zpow_neg, zpow_natCast, Int.neg_neg, Int.toNat_natCast]
    push_cast
    field_simp

/-- What `nearby?` finds reads back, and it finds something if one of the two decimals next to the
quotient reads back. -/
theorem nearby?_spec {tie : Tie} {num den count n d : Nat} {e : Int}
    (he : topOf num den - count = e)
    (hpair :
      (if 0 ≤ e then (num, den * tenTo e.toNat) else (num * tenTo (-e).toNat, den)) = (n, d)) :
    (∀ r, nearby? tie x num den count = some r → Binary64.ofDecimal false r = x) ∧
      ((Binary64.ofDecimal false ⟨n / d, e⟩ = x ∨ Binary64.ofDecimal false ⟨n / d + 1, e⟩ = x) →
        (nearby? tie x num den count).isSome = true) := by
  simp only [nearby?, he, hpair]
  cases hlow : Binary64.ofDecimal false ⟨n / d, e⟩ == x <;>
    cases hhigh : Binary64.ofDecimal false ⟨n / d + 1, e⟩ == x
  · simp_all
  · refine ⟨?_, fun _ => rfl⟩
    rintro r ⟨⟩
    exact eq_of_beq hhigh
  · refine ⟨?_, fun _ => rfl⟩
    rintro r ⟨⟩
    exact eq_of_beq hlow
  -- If both read back, a tie is broken, and either choice reads back.
  · have hlow := eq_of_beq hlow
    have hhigh := eq_of_beq hhigh
    have heven : Binary64.ofDecimal false ⟨n / d + n / d % 2, e⟩ = x := by
      rcases Nat.mod_two_eq_zero_or_one (n / d) with hmod | hmod
      · rw [hmod]
        exact hlow
      · rw [hmod]
        exact hhigh
    dsimp only
    split_ifs <;> cases tie <;> simp [hlow, hhigh, heven]

/-- A quotient of seventeen digits is near enough to one of the whole numbers next to it. -/
theorem near_div {n d : Nat} (hd : 0 < d) (h : 10 ^ 16 ≤ n / d) :
    ∃ m, (m = n / d ∨ m = n / d + 1) ∧
      (n : ℚ) / d * (1 - 1 / 2 ^ 54) < m ∧ (m : ℚ) < (n : ℚ) / d * (1 + 1 / 2 ^ 54) := by
  have hd' : (0 : ℚ) < d := by exact_mod_cast hd
  have hq : (10 : ℚ) ^ 16 ≤ (n / d : Nat) := by exact_mod_cast h
  have hsplit : (n : ℚ) / d = (n / d : Nat) + ((n % d : Nat) : ℚ) / d := by
    have := Nat.div_add_mod n d
    have : ((d * (n / d) + n % d : Nat) : ℚ) = n := by exact_mod_cast this
    push_cast at this
    rw [eq_comm, ← this]
    field_simp
  have hrest₀ : (0 : ℚ) ≤ ((n % d : Nat) : ℚ) / d := by positivity
  have hrest₁ : ((n % d : Nat) : ℚ) / d < 1 := by
    rw [div_lt_one hd']
    exact_mod_cast Nat.mod_lt n hd
  rw [hsplit]
  rcases le_total (((n % d : Nat) : ℚ) / d) (1 / 2) with hrest | hrest
  · refine ⟨n / d, .inl rfl, ?_, ?_⟩ <;> linarith
  · refine ⟨n / d + 1, .inr rfl, ?_, ?_⟩ <;> push_cast <;> linarith

/-- Seventeen digits are enough. -/
theorem nearby?_seventeen (tie : Tie) (hn : x.negative = false) (hf : x.isFinite = true)
    (hnum : 0 < x.toRatio.1) : (nearby? tie x x.toRatio.1 x.toRatio.2 17).isSome = true := by
  have hden := x.toRatio_value.1
  obtain ⟨htop₁, htop₂⟩ := topOf_bounds hnum hden
  obtain ⟨hmin, hmax⟩ := topOf_toRatio hf hnum
  let e := topOf x.toRatio.1 x.toRatio.2 - 17
  obtain ⟨n, d, hpair, hd, hvalue⟩ := tens_value x.toRatio.1 hden e
  have hd' : (0 : ℚ) < d := by exact_mod_cast hd
  have hpow : (0 : ℚ) < 10 ^ e := zpow_pos (by norm_num) _
  have hten : ∀ k : Nat, (10 : ℚ) ^ k * 10 ^ e = 10 ^ (k + e) := by
    intro k
    rw [zpow_add₀ (by norm_num), zpow_natCast]
  -- The quotient over `10 ^ e` has seventeen digits before the point.
  have hq₁ : (10 : ℚ) ^ 16 ≤ (n : ℚ) / d := by
    refine le_of_mul_le_mul_right ?_ hpow
    rwa [hvalue, hten, show ((16 : Nat) : Int) + e = topOf x.toRatio.1 x.toRatio.2 - 1 by
      simp only [e]; omega]
  have hq₂ : (n : ℚ) / d < 10 ^ 17 := by
    refine lt_of_mul_lt_mul_right ?_ hpow.le
    rwa [hvalue, hten, show ((17 : Nat) : Int) + e = topOf x.toRatio.1 x.toRatio.2 by
      simp only [e]; omega]
  have hlow : 10 ^ 16 ≤ n / d := by
    rw [Nat.le_div_iff_mul_le hd]
    rw [le_div_iff₀ hd'] at hq₁
    exact_mod_cast hq₁
  have hhigh : n / d < 10 ^ 17 := by
    rw [Nat.div_lt_iff_lt_mul hd]
    rw [div_lt_iff₀ hd'] at hq₂
    exact_mod_cast hq₂
  obtain ⟨m, hm, hm₁, hm₂⟩ := near_div hd hlow
  have hback : Binary64.ofDecimal false ⟨m, e⟩ = x := by
    have hcount := (digitCount_bounds (by omega : 0 < m)).1
    have hcount' : digitCount m ≤ 18 := digitCount_le (by omega)
    refine ofDecimal_eq_of_near hn hf (by omega) (by simp only [e]; omega) ?_ ?_
    · rw [← hvalue, mul_right_comm]
      exact mul_lt_mul_of_pos_right hm₁ hpow
    · rw [← hvalue, mul_right_comm]
      exact mul_lt_mul_of_pos_right hm₂ hpow
  refine (nearby?_spec rfl hpair).2 ?_
  rcases hm with rfl | rfl
  · exact .inl hback
  · exact .inr hback

/-- **The shortest decimal reads back** as the value that it was found for. -/
theorem ofDecimal_shortest (tie : Tie) (hn : x.negative = false) (hf : x.isFinite = true) :
    Binary64.ofDecimal false (shortest tie x) = x := by
  have hbits : x.bits.toNat < Binary64.signBit := by simpa [Binary64.negative] using hn
  have hmagnitude : Binary64.ofMagnitude false (x.bits.toNat % Binary64.signBit) = x := by
    rw [Nat.mod_eq_of_lt hbits, Binary64.ofMagnitude_toNat]
  simp only [shortest, hmagnitude]
  split
  · -- Only zero has no digits.
    rename_i hzero
    obtain ⟨hden, hvalue⟩ := x.toRatio_value
    have hpow : (2 : ℚ) ^ x.exponent ≠ 0 := zpow_ne_zero _ (by norm_num)
    have hm : x.significand = 0 := by
      rw [hzero, Nat.cast_zero, zero_div, eq_comm, mul_eq_zero] at hvalue
      exact_mod_cast hvalue.resolve_right hpow
    have he : x.exponent = -1074 := by
      rcases x.normal_or_least with h | h
      · omega
      · exact h
    have hword := Binary64.wordOf_eq hn
    rw [hm, he] at hword
    rw [Binary64.ofDecimal_zero, Binary64.zero, show 0 = x.bits.toNat from hword,
      Binary64.ofMagnitude_toNat]
  · rename_i hnum
    have hsome := nearby?_seventeen tie hn hf (Nat.pos_of_ne_zero hnum)
    split
    · rename_i d hfind
      obtain ⟨i, -, hi⟩ := List.exists_of_findSome?_eq_some hfind
      rw [ofDecimal_trimZeros]
      exact (nearby?_spec rfl rfl).1 d hi
    · rename_i hfind
      have := List.findSome?_eq_none_iff.1 hfind 16 (by simp)
      rw [this] at hsome
      cases hsome

end

end Decimal

end PipelineScript

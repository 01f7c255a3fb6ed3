/-!
Binary floating point of 64 bits.

A value is its word: a sign, eleven bits of exponent and fifty-two bits of fraction. All
arithmetic here is exact on natural numbers and rounds once, to the nearest value and to the even
one of two that are equally near.
-/
namespace PipelineScript

/-- A power of two. -/
def twoTo (n : Nat) : Nat := Nat.pow 2 n

/-- A binary64 value, held as its word. -/
structure Binary64 where
  bits : UInt64
deriving DecidableEq, Repr, Inhabited

namespace Binary64

/-- The sign bit, `2 ^ 63`. -/
def signBit : Nat := 0x8000000000000000

/-- The number of fractions, `2 ^ 52`: the weight of the exponent's lowest bit and of a leading
one. -/
def fractions : Nat := 0x10000000000000

/-- The exponent of the infinities and NaNs. -/
def topField : Nat := 2047

/-- Whether the sign bit is set. -/
def negative (x : Binary64) : Bool := decide (signBit ≤ x.bits.toNat)

/-- The biased exponent. -/
def field (x : Binary64) : Nat := x.bits.toNat / fractions % (topField + 1)

/-- The bits behind the leading one. -/
def fraction (x : Binary64) : Nat := x.bits.toNat % fractions

/-- Neither an infinity nor a NaN. -/
def isFinite (x : Binary64) : Bool := x.field != topField

/-- Not a number. -/
def isNaN (x : Binary64) : Bool := x.field == topField && x.fraction != 0

/-- One of the two zeros. -/
def isZero (x : Binary64) : Bool := x.field == 0 && x.fraction == 0

/-- The whole number `m` of a finite value `± m * 2 ^ exponent`. -/
def significand (x : Binary64) : Nat :=
  if x.field = 0 then x.fraction else fractions + x.fraction

/-- The exponent of a finite value `± significand * 2 ^ exponent`. -/
def exponent (x : Binary64) : Int := (max x.field 1 : Nat) - 1075

/-- Whether two values compare as equal: the two zeros do, and a NaN equals nothing. -/
def same (x y : Binary64) : Bool :=
  !x.isNaN && !y.isNaN && (x.bits == y.bits || (x.isZero && y.isZero))

/-- The value with a sign and a word below the sign bit. -/
def ofMagnitude (negative : Bool) (word : Nat) : Binary64 :=
  ⟨UInt64.ofNat (word + if negative then signBit else 0)⟩

/-- Zero with a sign. -/
def zero (negative : Bool) : Binary64 := ofMagnitude negative 0

/-- Infinity with a sign. -/
def infinity (negative : Bool) : Binary64 := ofMagnitude negative (topField * fractions)

/-- The value with the other sign. -/
def neg (x : Binary64) : Binary64 := ofMagnitude (!x.negative) (x.bits.toNat % signBit)

/-- The whole number nearest to a quotient, the even one of two. -/
def roundDiv (num den : Nat) : Nat :=
  let quotient := num / den
  let rest := num % den
  if 2 * rest < den then quotient
  else if den < 2 * rest then quotient + 1
  else quotient + quotient % 2

/-- A quotient as it stands after division by `2 ^ e`. -/
def shift (num den : Nat) (e : Int) : Nat × Nat :=
  if 0 ≤ e then (num, den * twoTo e.toNat) else (num * twoTo (-e).toNat, den)

/-- The exponent at which a positive quotient keeps 53 bits, or the least exponent there is. -/
def scaleOf (num den : Nat) : Int :=
  let rough : Int := (num.log2 : Int) - den.log2 - 53
  let (n, d) := shift num den rough
  max (-1074) (if n / d < 2 * fractions then rough else rough + 1)

/-- The value nearest to `num / den`; past the greatest value it is an infinity. -/
def ofRatio (negative : Bool) (num den : Nat) : Binary64 :=
  if num = 0 then zero negative
  else
    let e := scaleOf num den
    let (n, d) := shift num den e
    let word := (e + 1074).toNat * fractions + roundDiv n d
    if topField * fractions ≤ word then infinity negative else ofMagnitude negative word

/-- The value nearest to `num / den * 2 ^ e`. -/
def ofScaledRatio (negative : Bool) (num den : Nat) (e : Int) : Binary64 :=
  if 0 ≤ e then ofRatio negative (num * twoTo e.toNat) den
  else ofRatio negative num (den * twoTo (-e).toNat)

/-- The value nearest to a whole number. -/
def ofNat (n : Nat) : Binary64 := ofRatio false n 1

/-- The rounded product of two finite values. -/
def mul (x y : Binary64) : Binary64 :=
  ofScaledRatio (x.negative != y.negative) (x.significand * y.significand) 1
    (x.exponent + y.exponent)

/-- The rounded quotient of two finite values, the second not zero. -/
def div (x y : Binary64) : Binary64 :=
  ofScaledRatio (x.negative != y.negative) x.significand y.significand (x.exponent - y.exponent)

/-- The magnitude of a finite value as a quotient of whole numbers. -/
def toRatio (x : Binary64) : Nat × Nat :=
  if 0 ≤ x.exponent then (x.significand * twoTo x.exponent.toNat, 1)
  else (x.significand, twoTo (-x.exponent).toNat)

end Binary64

end PipelineScript

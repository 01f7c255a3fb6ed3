import PipelineScript.Decimal.Binary64

/-!
Decimal numbers, and the shortest one that reads back.

`Binary64.ofDecimal` rounds a decimal to the nearest value. `Decimal.shortest` goes the other way:
of all decimals that read back as a given value it takes one with the fewest digits, and among
those the nearest to the value. Where two are equally near the caller says which.
-/
namespace PipelineScript

/-- The number `digits * 10 ^ exponent`. -/
structure Decimal where
  digits : Nat
  exponent : Int
deriving DecidableEq, Repr

/-- A power of ten. -/
def tenTo (n : Nat) : Nat := Nat.pow 10 n

/-- The number of decimal digits of a whole number; zero has none. -/
def digitCount (n : Nat) : Nat := if n = 0 then 0 else (Nat.toDigits 10 n).length

/-- The value nearest to a decimal. Exponents far outside the range of values are decided without
computing the power. -/
def Binary64.ofDecimal (negative : Bool) (d : Decimal) : Binary64 :=
  let top : Int := digitCount d.digits + d.exponent
  if d.digits = 0 then zero negative
  else if 400 < top then infinity negative
  else if top < -400 then zero negative
  else if 0 ≤ d.exponent then ofRatio negative (d.digits * tenTo d.exponent.toNat) 1
  else ofRatio negative d.digits (tenTo (-d.exponent).toNat)

/-- Which of two equally near decimals is taken. -/
inductive Tie where
  /-- The greater one. -/
  | up
  /-- The one with the even last digit. -/
  | even
deriving DecidableEq, Repr

namespace Decimal

/-- The same number without zeros at the end of its digits. `fuel` bounds the zeros removed. -/
def trimZeros : Nat → Decimal → Decimal
  | 0, d => d
  | fuel + 1, d =>
    if d.digits % 10 = 0 ∧ d.digits ≠ 0 then trimZeros fuel ⟨d.digits / 10, d.exponent + 1⟩ else d

/-- The least `k` with `num / den < 10 ^ k`, for a positive quotient. -/
def topOf (num den : Nat) : Int :=
  if den ≤ num then digitCount (num / den) else 1 - (digitCount ((den - 1) / num) : Int)

/-- The decimal with `count` digits, next to the quotient `num / den`, that reads back as `x`. -/
def nearby? (tie : Tie) (x : Binary64) (num den : Nat) (count : Nat) : Option Decimal :=
  let e := topOf num den - count
  let (n, d) := if 0 ≤ e then (num, den * tenTo e.toNat) else (num * tenTo (-e).toNat, den)
  let low := n / d
  let rest := n % d
  let readsBack := fun (digits : Nat) => Binary64.ofDecimal false ⟨digits, e⟩ == x
  match readsBack low, readsBack (low + 1) with
  | true, true =>
    if 2 * rest < d then some ⟨low, e⟩
    else if d < 2 * rest then some ⟨low + 1, e⟩
    else
      match tie with
      | .up => some ⟨low + 1, e⟩
      | .even => some ⟨low + low % 2, e⟩
  | true, false => some ⟨low, e⟩
  | false, true => some ⟨low + 1, e⟩
  | false, false => none

/-- The shortest decimal that reads back as the magnitude of a finite value. Seventeen digits are
always enough. -/
def shortest (tie : Tie) (x : Binary64) : Decimal :=
  let magnitude := Binary64.ofMagnitude false (x.bits.toNat % Binary64.signBit)
  let (num, den) := x.toRatio
  if num = 0 then ⟨0, 0⟩
  else
    match (List.range 17).findSome? fun i => nearby? tie magnitude num den (i + 1) with
    | some d => trimZeros 20 d
    | none => ⟨num, 0⟩

end Decimal

end PipelineScript

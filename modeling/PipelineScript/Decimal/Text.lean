import PipelineScript.Decimal.Shortest
import PipelineScript.Text.Class

/-!
Numbers as text.

Whole numbers are read and written in base eight and ten. A decimal is read with an optional sign,
point and exponent; it is written in positional notation, or with an exponent.
-/
namespace PipelineScript

/-- The digits of a whole number, most significant first; zero is `0`. -/
def natText (base n : Nat) : List Char := Nat.toDigits base n

/-- The value of a digit of any base up to ten. -/
def digitValue? (base : Nat) (c : Char) : Option Nat :=
  if Text.isDigit c ∧ c.toNat - 48 < base then some (c.toNat - 48) else none

/-- The value of a run of digits, most significant first, added to what stands before them. -/
def natOfDigits? (base : Nat) : Nat → List Char → Option Nat
  | n, [] => some n
  | n, c :: cs =>
    match digitValue? base c with
    | some d => natOfDigits? base (n * base + d) cs
    | none => none

theorem digitValue?_eq_some_iff {base d : Nat} {c : Char} :
    digitValue? base c = some d ↔ Text.isDigit c = true ∧ d < base ∧ c.toNat - 48 = d := by
  rw [digitValue?, Option.ite_none_right_eq_some, Option.some.injEq]
  constructor
  · rintro ⟨⟨hc, hd⟩, rfl⟩
    exact ⟨hc, hd, rfl⟩
  · rintro ⟨hc, hd, rfl⟩
    exact ⟨⟨hc, hd⟩, rfl⟩

theorem natOfDigits?_cons_eq_some_iff {base n v : Nat} {c : Char} {cs : List Char} :
    natOfDigits? base n (c :: cs) = some v ↔
      ∃ d, digitValue? base c = some d ∧ natOfDigits? base (n * base + d) cs = some v := by
  rw [natOfDigits?]
  cases digitValue? base c <;> simp

/-- A whole number: one or more digits. -/
def readNat? (base : Nat) (cs : List Char) : Option Nat :=
  if cs.isEmpty then none else natOfDigits? base 0 cs

/-- A whole number with an optional sign. -/
def readInt? (base : Nat) (cs : List Char) : Option Int :=
  match cs with
  | c :: ds =>
    if c = '-' then (readNat? base ds).map fun n => -(n : Int)
    else if c = '+' then (readNat? base ds).map fun n => (n : Int)
    else (readNat? base (c :: ds)).map fun n => (n : Int)
  | [] => none

namespace Decimal

/-- The exponent part of a decimal: nothing, or a mark and a whole number. -/
def readExponent? (cs : List Char) : Option Int :=
  match cs with
  | [] => some 0
  | c :: ds => if c = 'e' ∨ c = 'E' then readInt? 10 ds else none

/-- A decimal without sign. At least one digit stands before or behind the point. -/
def readUnsigned? (cs : List Char) : Option Decimal :=
  let whole := cs.takeWhile Text.isDigit
  let rest := cs.dropWhile Text.isDigit
  let (part, rest) :=
    match rest with
    | c :: ds =>
      if c = '.' then (ds.takeWhile Text.isDigit, ds.dropWhile Text.isDigit) else ([], c :: ds)
    | [] => ([], [])
  match readNat? 10 (whole ++ part), readExponent? rest with
  | some digits, some e => some ⟨digits, e - part.length⟩
  | _, _ => none

/-- A decimal with an optional sign, and whether the sign is a minus. -/
def read? (cs : List Char) : Option (Bool × Decimal) :=
  match cs with
  | c :: ds =>
    if c = '-' then (readUnsigned? ds).map fun d => (true, d)
    else if c = '+' then (readUnsigned? ds).map fun d => (false, d)
    else (readUnsigned? (c :: ds)).map fun d => (false, d)
  | [] => none

/-- A decimal in positional notation, with a point only if there is a fraction. -/
def positional (d : Decimal) : List Char :=
  let digits := natText 10 d.digits
  if 0 ≤ d.exponent then digits ++ List.replicate d.exponent.toNat '0'
  else
    let places := (-d.exponent).toNat
    let padded := List.replicate (places + 1 - digits.length) '0' ++ digits
    padded.take (padded.length - places) ++ '.' :: padded.drop (padded.length - places)

/-- The exponent of the first digit. -/
def leading (d : Decimal) : Int := digitCount d.digits - 1 + d.exponent

/-- A decimal with one digit before the point, and a signed exponent. -/
def scientific (d : Decimal) : List Char :=
  let e := d.leading
  let mantissa :=
    match natText 10 d.digits with
    | [] => []
    | [c] => [c]
    | c :: cs => c :: '.' :: cs
  mantissa ++ 'e' :: (if 0 ≤ e then '+' else '-') :: natText 10 e.natAbs

end Decimal

/-- The text with `.0` behind it if it has no point. -/
def withPoint (cs : List Char) : List Char := if cs.contains '.' then cs else cs ++ ['.', '0']

end PipelineScript

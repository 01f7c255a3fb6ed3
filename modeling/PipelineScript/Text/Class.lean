import PipelineScript.Text.Alphabetic
import PipelineScript.Text.Hidden
import PipelineScript.Text.Numeric

/-!
Character classes of script text.

ASCII is decided by comparison and everything else by the tables of the standard, so a fact about
an ASCII character never opens a table.
-/
namespace PipelineScript.Text

/-- Whether a code point lies in one of the closed ranges. -/
def inRanges (ranges : List (Nat × Nat)) (code : Nat) : Bool :=
  ranges.any fun range => decide (range.1 ≤ code) && decide (code ≤ range.2)

/-- An ASCII digit. -/
def isDigit (c : Char) : Bool :=
  decide (48 ≤ c.toNat) && decide (c.toNat ≤ 57)

/-- An ASCII letter. -/
def isAsciiLetter (c : Char) : Bool :=
  (decide (65 ≤ c.toNat) && decide (c.toNat ≤ 90)) ||
    (decide (97 ≤ c.toNat) && decide (c.toNat ≤ 122))

/-- A letter of any script; it can begin a name. -/
def isAlphabetic (c : Char) : Bool :=
  if c.toNat < 128 then isAsciiLetter c else inRanges alphabeticRanges c.toNat

/-- A digit, letter number or other number of any script. -/
def isNumeric (c : Char) : Bool :=
  if c.toNat < 128 then isDigit c else inRanges numericRanges c.toNat

/-- A character that can continue a name. -/
def isNamePart (c : Char) : Bool :=
  isAlphabetic c || isNumeric c || c == '_'

/-- The value of a hexadecimal digit. -/
def hexValue? (c : Char) : Option Nat :=
  let n := c.toNat
  if 48 ≤ n ∧ n ≤ 57 then some (n - 48)
  else if 97 ≤ n ∧ n ≤ 102 then some (n - 87)
  else if 65 ≤ n ∧ n ≤ 70 then some (n - 55)
  else none

/-- The value of a run of hexadecimal digits, added to what stands before them. -/
def hexOf? : Nat → List Char → Option Nat
  | n, [] => some n
  | n, c :: cs =>
    match hexValue? c with
    | some d => hexOf? (n * 16 + d) cs
    | none => none

/-- White space: the blank and line-breaking characters of every script. -/
def isSpace (c : Char) : Bool :=
  let code := c.toNat
  if code < 128 then code == 32 || (decide (9 ≤ code) && decide (code ≤ 13))
  else
    code == 0x85 || code == 0xa0 || code == 0x1680 ||
      (decide (0x2000 ≤ code) && decide (code ≤ 0x200a)) ||
      code == 0x2028 || code == 0x2029 || code == 0x202f || code == 0x205f || code == 0x3000

/-- A character that leaves no mark of its own and is therefore quoted by its code point. -/
def isHidden (c : Char) : Bool :=
  if c.toNat < 128 then decide (c.toNat < 32) || c.toNat == 127
  else inRanges hiddenRanges c.toNat

/-- Drops white space from both ends. -/
def trim (cs : List Char) : List Char :=
  ((cs.dropWhile isSpace).reverse.dropWhile isSpace).reverse

end PipelineScript.Text

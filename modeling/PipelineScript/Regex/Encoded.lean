/-!
Ranges of characters as ranges of bytes.

The UTF-8 forms of a range of characters are those of some sequences of byte ranges: each sequence
stands for all texts that take one byte from each of its ranges.
-/
namespace PipelineScript.Regex

/-- A closed range of bytes. -/
abbrev ByteRange := Nat × Nat

/-- The bytes of a code point. -/
def encodedCode (code : Nat) : List Nat :=
  (String.utf8EncodeChar (Char.ofNat code)).map UInt8.toNat

/-- Where a range of code points falls apart into two because the forms of its ends differ in
length: the last code point of the first part. -/
def lengthSplit? (low high : Nat) : Option Nat :=
  [0x7F, 0x7FF, 0xFFFF].find? fun last => decide (low ≤ last) && decide (last < high)

/-- Where a range of code points falls apart because it does not take all forms of its last
`size`-fold block of code points: the last code point of the first part. -/
def blockSplit? (size low high : Nat) : Option Nat :=
  if low / size = high / size then none
  else if low % size ≠ 0 then some (low / size * size + size - 1)
  else if high % size ≠ size - 1 then some (high / size * size - 1)
  else none

/-- Where a range of code points falls apart. -/
def split? (low high : Nat) : Option Nat :=
  match lengthSplit? low high with
  | some last => some last
  | none =>
    if high ≤ 0x7F then none
    else [0x40, 0x1000, 0x40000].findSome? fun size => blockSplit? size low high

/-- The sequences of byte ranges of a range of characters, in ascending order. `fuel` bounds how
often the range falls apart. -/
def sequences (fuel low high : Nat) : List (List ByteRange) :=
  match fuel with
  | 0 => []
  | fuel + 1 =>
    if low < 0xE000 ∧ 0xD7FF < high then
      (if low ≤ 0xD7FF then sequences fuel low 0xD7FF else []) ++
        (if 0xE000 ≤ high then sequences fuel 0xE000 high else [])
    else
      match split? low high with
      | some last => sequences fuel low last ++ sequences fuel (last + 1) high
      | none => [(encodedCode low).zip (encodedCode high)]

end PipelineScript.Regex

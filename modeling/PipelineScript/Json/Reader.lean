import PipelineScript.Json.Value
import PipelineScript.Text.Class

/-!
JSON text to values.

A text is one value with white space around it. Arrays and objects may be nested less than
`depthLimit` deep. Of two fields with one name the later counts. The functions give `none` for a
text that is malformed.

A number with a point or an exponent, and a whole number of more than 64 bits, becomes a binary64
value: the digits that fit into 64 bits are rounded once, and multiplied or divided by a rounded
power of ten. A value that would be infinite is malformed.
-/
namespace PipelineScript.Json

/-- White space between tokens. -/
def isBlank (c : Char) : Bool := c == ' ' || c == '\n' || c == '\t' || c == '\r'

/-- The text behind its leading white space. -/
def skipBlank (cs : List Char) : List Char := cs.dropWhile isBlank

/-! ## Numbers -/

/-- The greatest whole number of 64 bits. -/
def natLimit : Nat := 0xFFFFFFFFFFFFFFFF

/-- The greatest exponent that is read as a number. -/
def exponentLimit : Nat := 0x7FFFFFFF

/-- The value of a digit. -/
def digitOf (c : Char) : Nat := c.toNat - 48

/-- Appends digits to a number until it would exceed 64 bits; also the number of digits left. -/
def absorb : Nat → List Char → Nat × Nat
  | n, [] => (n, 0)
  | n, c :: cs =>
    if natLimit < n * 10 + digitOf c then (n, (c :: cs).length) else absorb (n * 10 + digitOf c) cs

/-- A rounded power of ten. -/
def powerOfTen (e : Nat) : Binary64 := .ofNat (tenTo e)

/-- A binary64 value times a power of ten, in steps of at most 308. -/
def scale : Nat → Binary64 → Int → Option Binary64
  | 0, x, _ => some x
  | fuel + 1, x, e =>
    if e.natAbs ≤ 308 then
      if 0 ≤ e then
        let y := x.mul (powerOfTen e.natAbs)
        if y.isFinite then some y else none
      else some (x.div (powerOfTen e.natAbs))
    else if x.isZero then some x
    else if 0 ≤ e then none
    else scale fuel (x.div (powerOfTen 308)) (e + 308)

/-- The value of `± significand * 10 ^ e`. Three steps of scaling bring every number of 64 bits to
zero. -/
def floatOf (negative : Bool) (significand : Nat) (e : Int) : Option Number :=
  (scale 4 (.ofNat significand) e).map fun x => .float (if negative then x.neg else x)

/-- The exponent of a number, behind its mark. -/
def exponent (negative : Bool) (significand : Nat) (e : Int) (cs : List Char) :
    Option (Number × List Char) :=
  let (down, cs) :=
    match cs with
    | c :: ds => if c = '+' then (false, ds) else if c = '-' then (true, ds) else (false, c :: ds)
    | [] => (false, [])
  let rest := cs.dropWhile Text.isDigit
  match readNat? 10 (cs.takeWhile Text.isDigit) with
  | none => none
  | some n =>
    if exponentLimit < n then
      if significand ≠ 0 ∧ !down then none else some (.float (.zero negative), rest)
    else (floatOf negative significand (if down then e - n else e + n)).map fun x => (x, rest)

/-- An exponent or the end of a number that is not whole. -/
def exponentOrEnd (negative : Bool) (significand : Nat) (e : Int) (cs : List Char) :
    Option (Number × List Char) :=
  match cs with
  | c :: ds =>
    if c = 'e' ∨ c = 'E' then exponent negative significand e ds
    else (floatOf negative significand e).map fun x => (x, c :: ds)
  | [] => (floatOf negative significand e).map fun x => (x, [])

/-- The digits behind the point of a number. -/
def fraction (negative : Bool) (significand : Nat) (e : Int) (cs : List Char) :
    Option (Number × List Char) :=
  let digits := cs.takeWhile Text.isDigit
  if digits.isEmpty then none
  else
    let (significand, left) := absorb significand digits
    exponentOrEnd negative significand (e - (digits.length - left : Nat))
      (cs.dropWhile Text.isDigit)

/-- A whole number; minus zero and what exceeds 64 bits with sign is a binary64 value. -/
def whole (negative : Bool) (n : Nat) : Number :=
  if negative then
    if n = 0 ∨ 0x8000000000000000 < n then .float (Binary64.ofNat n).neg
    else .neg (Int64.ofInt (-n))
  else .nat (UInt64.ofNat n)

/-- A number without its sign. -/
def unsigned (negative : Bool) (cs : List Char) : Option (Number × List Char) :=
  let digits := cs.takeWhile Text.isDigit
  let rest := cs.dropWhile Text.isDigit
  if digits.isEmpty || (digits.head? == some '0' && decide (1 < digits.length)) then none
  else
    let (significand, left) := absorb 0 digits
    match rest with
    | c :: ds =>
      if c = '.' then fraction negative significand left ds
      else if c = 'e' ∨ c = 'E' then exponent negative significand left ds
      else if left = 0 then some (whole negative significand, rest)
      else (floatOf negative significand left).map fun x => (x, rest)
    | [] =>
      if left = 0 then some (whole negative significand, [])
      else (floatOf negative significand left).map fun x => (x, [])

/-! ## Strings -/

/-- A code unit of four hexadecimal digits. -/
def unit? (a b c d : Char) : Option Nat := Text.hexOf? 0 [a, b, c, d]

/-- The character that a letter behind a backslash stands for. -/
def unescape? (c : Char) : Option Char :=
  if c = '"' ∨ c = '\\' ∨ c = '/' then some c
  else if c = 'b' then some '\x08'
  else if c = 'f' then some '\x0c'
  else if c = 'n' then some '\n'
  else if c = 'r' then some '\r'
  else if c = 't' then some '\t'
  else none

/-- The character of a code unit that is no surrogate. -/
def charOfUnit? (n : Nat) : Option Char :=
  if 0xD800 ≤ n ∧ n ≤ 0xDFFF then none else some (Char.ofNat n)

/-- The character of a surrogate pair. -/
def charOfPair? (high low : Nat) : Option Char :=
  if 0xD800 ≤ high ∧ high ≤ 0xDBFF ∧ 0xDC00 ≤ low ∧ low ≤ 0xDFFF then
    some (Char.ofNat (0x10000 + (high - 0xD800) * 0x400 + (low - 0xDC00)))
  else none

/-- A character written as `\u` and a code unit, or as two of them, behind the first `\u`. -/
def unicode? (cs : List Char) : Option (Char × List Char) :=
  match cs with
  | a :: b :: c :: d :: rest =>
    match unit? a b c d with
    | none => none
    | some n =>
      match charOfUnit? n with
      | some x => some (x, rest)
      | none =>
        match rest with
        | '\\' :: 'u' :: e :: f :: g :: h :: rest =>
          match unit? e f g h with
          | some m => (charOfPair? n m).map fun x => (x, rest)
          | none => none
        | _ => none
  | _ => none

/-- One character of a string, or its end: what it stands for and the rest. -/
def stringStep (cs : List Char) : Option (Option Char × List Char) :=
  match cs with
  | [] => none
  | c :: ds =>
    if c = '"' then some (none, ds)
    else if c = '\\' then
      match ds with
      | [] => none
      | d :: es =>
        if d = 'u' then (unicode? es).map fun (x, rest) => (some x, rest)
        else (unescape? d).map fun x => (some x, es)
    else if c.toNat < 32 then none
    else some (some c, ds)

/-- A string, behind its opening quote. -/
def string? : Nat → List Char → Option (List Char × List Char)
  | 0, _ => none
  | fuel + 1, cs =>
    match stringStep cs with
    | none => none
    | some (none, rest) => some ([], rest)
    | some (some c, rest) => (string? fuel rest).map fun (text, rest) => (c :: text, rest)

/-! ## Values -/

/-- How deep arrays and objects may not be nested. -/
def depthLimit : Nat := 128

/-- The text behind a word. -/
def word? (word : String) (cs : List Char) : Option (List Char) :=
  if word.toList.isPrefixOf cs then some (cs.drop word.toList.length) else none

mutual

/-- A value. `depth` counts the levels of nesting that are left. -/
def value? (fuel depth : Nat) (cs : List Char) : Option (Value × List Char) :=
  match fuel with
  | 0 => none
  | fuel + 1 =>
    match skipBlank cs with
    | [] => none
    | c :: ds =>
      if c = 'n' then (word? "ull" ds).map fun rest => (.null, rest)
      else if c = 't' then (word? "rue" ds).map fun rest => (.bool true, rest)
      else if c = 'f' then (word? "alse" ds).map fun rest => (.bool false, rest)
      else if c = '"' then
        (string? (ds.length + 1) ds).map fun (text, rest) => (.string (String.ofList text), rest)
      else if c = '-' then (unsigned true ds).map fun (n, rest) => (.number n, rest)
      else if Text.isDigit c then (unsigned false (c :: ds)).map fun (n, rest) => (.number n, rest)
      else if c = '[' then
        if depth ≤ 1 then none
        else
          match skipBlank ds with
          | [] => none
          | d :: es =>
            if d = ']' then some (.array [], es)
            else (items? fuel (depth - 1) (d :: es)).map fun (items, rest) => (.array items, rest)
      else if c = '\x7b' then
        if depth ≤ 1 then none
        else
          match skipBlank ds with
          | [] => none
          | d :: es =>
            if d = '\x7d' then some (.object [], es)
            else
              (fields? fuel (depth - 1) [] (d :: es)).map fun (fields, rest) =>
                (.object fields, rest)
      else none
termination_by structural fuel

/-- The items of an array up to its closing bracket. -/
def items? (fuel depth : Nat) (cs : List Char) : Option (List Value × List Char) :=
  match fuel with
  | 0 => none
  | fuel + 1 =>
    match value? fuel depth cs with
    | none => none
    | some (item, rest) =>
      match skipBlank rest with
      | [] => none
      | c :: ds =>
        if c = ',' then (items? fuel depth ds).map fun (items, rest) => (item :: items, rest)
        else if c = ']' then some ([item], ds)
        else none
termination_by structural fuel

/-- The fields of an object up to its closing brace, added to those before them. -/
def fields? (fuel depth : Nat) (fields : List (String × Value)) (cs : List Char) :
    Option (List (String × Value) × List Char) :=
  match fuel with
  | 0 => none
  | fuel + 1 =>
    match skipBlank cs with
    | [] => none
    | c :: ds =>
      if c ≠ '"' then none
      else
        match string? (ds.length + 1) ds with
        | none => none
        | some (name, rest) =>
          match skipBlank rest with
          | [] => none
          | e :: es =>
            if e ≠ ':' then none
            else
              match value? fuel depth es with
              | none => none
              | some (value, rest) =>
                let fields := Value.insertField (String.ofList name) value fields
                match skipBlank rest with
                | [] => none
                | f :: fs =>
                  if f = ',' then fields? fuel depth fields fs
                  else if f = '\x7d' then some (fields, fs)
                  else none
termination_by structural fuel

end

/-- Reads a JSON text. -/
def Value.read? (text : String) : Option Value :=
  let cs := text.toList
  match value? (2 * cs.length + 2) depthLimit cs with
  | some (v, rest) => if (skipBlank rest).isEmpty then some v else none
  | none => none

end PipelineScript.Json

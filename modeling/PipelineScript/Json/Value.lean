import PipelineScript.Decimal.Text
import PipelineScript.Text.Quoted

/-!
JSON values and their text.

A number is a whole number of 64 bits, with or without sign, or a finite binary64 value. The
fields of an object have different names and stand in the order of their names. The text of a
value is compact, or spread over lines with two spaces of indentation.
-/
namespace PipelineScript.Json

/-- A number. -/
inductive Number where
  /-- A whole number that is not negative. -/
  | nat (n : UInt64)
  /-- A negative whole number. -/
  | neg (n : Int64)
  | float (x : Binary64)
deriving DecidableEq, Repr

/-- A JSON value. -/
inductive Value where
  | null
  | bool (b : Bool)
  | number (n : Number)
  | string (s : String)
  | array (items : List Value)
  | object (fields : List (String × Value))
deriving Repr, Inhabited

namespace Value

/-- The value of a signed integer. -/
def ofInt (n : Int64) : Value :=
  if n.toInt < 0 then .number (.neg n) else .number (.nat (UInt64.ofNat n.toInt.toNat))

/-- The value of a binary64 number; a NaN and the infinities have none but `null`. -/
def ofFloat (x : Binary64) : Value := if x.isFinite then .number (.float x) else .null

/-- Puts a field in its place among fields that are ordered by name; an old field of that name
goes. -/
def insertField (name : String) (value : Value) :
    List (String × Value) → List (String × Value)
  | [] => [(name, value)]
  | (other, old) :: rest =>
    if name < other then (name, value) :: (other, old) :: rest
    else if name = other then (name, value) :: rest
    else (other, old) :: insertField name value rest

/-- What a value is called where an object was expected. -/
def sort : Value → String
  | .null => "null"
  | .bool _ => "bool"
  | .number _ => "number"
  | .string _ => "string"
  | .array _ => "array"
  | .object _ => "object"

end Value

/-- The text of a finite binary64 value: positional if its first digit stands for a power of ten
from -5 to 15, and otherwise with an exponent. -/
def floatText (x : Binary64) : List Char :=
  let d := Decimal.shortest .even x
  (if x.negative then ['-'] else []) ++
    (if d.digits = 0 then ['0', '.', '0']
    else if -5 ≤ d.leading ∧ d.leading ≤ 15 then withPoint d.positional
    else d.scientific)

/-- The text of a number. -/
def Number.text : Number → List Char
  | .nat n => natText 10 n.toNat
  | .neg n => '-' :: natText 10 n.toInt.natAbs
  | .float x => floatText x

/-- A hexadecimal number of four digits. -/
def hex4 (n : Nat) : List Char :=
  let digits := Text.hexDigits n
  List.replicate (4 - digits.length) '0' ++ digits

/-- One character inside a JSON string. -/
def escapeChar (c : Char) : List Char :=
  if c = '"' then ['\\', '"']
  else if c = '\\' then ['\\', '\\']
  else if c = '\x08' then ['\\', 'b']
  else if c = '\x0c' then ['\\', 'f']
  else if c = '\n' then ['\\', 'n']
  else if c = '\r' then ['\\', 'r']
  else if c = '\t' then ['\\', 't']
  else if c.toNat < 32 then '\\' :: 'u' :: hex4 c.toNat
  else [c]

/-- A JSON string. -/
def stringText (s : String) : List Char := '"' :: (s.toList.flatMap escapeChar ++ ['"'])

namespace Value

mutual

/-- The compact text of a value. -/
def compact : Value → List Char
  | .null => "null".toList
  | .bool true => "true".toList
  | .bool false => "false".toList
  | .number n => n.text
  | .string s => stringText s
  | .array items => '[' :: (compactItems true items ++ [']'])
  | .object fields => '\x7b' :: (compactFields true fields ++ ['\x7d'])
termination_by structural v => v

/-- Items separated by commas. -/
def compactItems (first : Bool) : List Value → List Char
  | [] => []
  | item :: items => (if first then [] else [',']) ++ compact item ++ compactItems false items
termination_by structural vs => vs

/-- Fields separated by commas. -/
def compactFields (first : Bool) : List (String × Value) → List Char
  | [] => []
  | (name, value) :: fields =>
    (if first then [] else [',']) ++ stringText name ++ ':' :: compact value ++
      compactFields false fields
termination_by structural fs => fs

end

/-- A new line at an indentation. -/
def newLine (depth : Nat) : List Char := '\n' :: List.replicate (2 * depth) ' '

mutual

/-- The text of a value over several lines, `depth` levels deep. -/
def prettyAt (depth : Nat) : Value → List Char
  | .null => "null".toList
  | .bool true => "true".toList
  | .bool false => "false".toList
  | .number n => n.text
  | .string s => stringText s
  | .array [] => "[]".toList
  | .array items => '[' :: (prettyItems (depth + 1) true items ++ newLine depth ++ [']'])
  | .object [] => "\x7b\x7d".toList
  | .object fields =>
    '\x7b' :: (prettyFields (depth + 1) true fields ++ newLine depth ++ ['\x7d'])
termination_by structural v => v

/-- Items, each on a line of its own. -/
def prettyItems (depth : Nat) (first : Bool) : List Value → List Char
  | [] => []
  | item :: items =>
    (if first then [] else [',']) ++ newLine depth ++ prettyAt depth item ++
      prettyItems depth false items
termination_by structural vs => vs

/-- Fields, each on a line of its own. -/
def prettyFields (depth : Nat) (first : Bool) : List (String × Value) → List Char
  | [] => []
  | (name, value) :: fields =>
    (if first then [] else [',']) ++ newLine depth ++ stringText name ++
      ':' :: ' ' :: prettyAt depth value ++ prettyFields depth false fields
termination_by structural fs => fs

end

/-- The compact text of a value. -/
def text (v : Value) : String := String.ofList v.compact

/-- The text of a value over several lines. -/
def prettyText (v : Value) : String := String.ofList (v.prettyAt 0)

end Value

end PipelineScript.Json

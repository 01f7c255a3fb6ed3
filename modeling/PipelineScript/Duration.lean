import PipelineScript.Decimal.Text
import PipelineScript.Text.Quoted

/-!
Spans of time and their literals.

A literal is a run of segments, each a whole number and a unit: `ns`, `u` or `µ`, `ms`, `s`, `m`,
`h`, `d`, `w`. A literal may spell at most `Duration.limit` nanoseconds. The canonical text of a
span uses the largest unit that divides it.
-/
namespace PipelineScript

/-- A span of time in nanoseconds. -/
structure Duration where
  nanos : Nat
deriving DecidableEq, Repr, Inhabited

/-- Why a text is no duration. -/
inductive DurationError where
  /-- It is not a run of numbers and units. -/
  | invalid (text : String)
  /-- It spells more than the longest duration. -/
  | overflow (text : String)
deriving DecidableEq, Repr

/-- The wording of the failure. -/
def DurationError.message : DurationError → String
  | .invalid text => "invalid duration " ++ Text.quote text
  | .overflow text => "overflowed duration " ++ text ++ ": choose a smaller duration"

namespace Duration

/-- The longest duration that a literal may spell: the greatest signed 64-bit number of
nanoseconds. -/
def limit : Nat := 0x7FFFFFFFFFFFFFFF

/-- The number, `2 ^ 128`, that no number of a segment may reach. -/
def measureBound : Nat := 0x100000000000000000000000000000000

def micro : Nat := 1000
def milli : Nat := 1000 * micro
def second : Nat := 1000 * milli
def minute : Nat := 60 * second
def hour : Nat := 60 * minute
def day : Nat := 24 * hour
def week : Nat := 7 * day

/-- The unit that begins with `c`, when `s` tells whether an `s` follows: its nanoseconds and
whether the `s` belongs to it. -/
def unit? (c : Char) (s : Bool) : Option (Nat × Bool) :=
  if c = 'n' then if s then some (1, true) else none
  else if c = 'u' ∨ c = 'µ' then some (micro, false)
  else if c = 'm' then some (if s then (milli, true) else (minute, false))
  else if c = 's' then some (second, false)
  else if c = 'h' then some (hour, false)
  else if c = 'd' then some (day, false)
  else if c = 'w' then some (week, false)
  else none

/-- What went wrong in a literal, without its text. -/
inductive Fault where
  | invalid
  | overflow
deriving DecidableEq, Repr

/-- The sum of a segment and what came before it. -/
def extend (total measure scale : Nat) : Except Fault Nat :=
  if total + measure * scale ≤ limit then .ok (total + measure * scale) else .error .overflow

/-- Sums the segments of a literal. `measure?` is the number of the segment being read, once it
has a digit. -/
def sum : Nat → Option Nat → List Char → Except Fault Nat
  | total, none, [] => .ok total
  | _, some _, [] => .error .invalid
  | total, measure?, c :: cs =>
    match digitValue? 10 c with
    | some d => sum total (some (measure?.getD 0 * 10 + d)) cs
    | none =>
      match measure? with
      | none => .error .invalid
      | some measure =>
        if measureBound ≤ measure then .error .overflow
        else
          match cs with
          | [] =>
            match unit? c false with
            | some (scale, _) => extend total measure scale
            | none => .error .invalid
          | d :: ds =>
            match unit? c (d == 's') with
            | some (scale, true) =>
              match extend total measure scale with
              | .ok total => sum total none ds
              | .error e => .error e
            | some (scale, false) =>
              match extend total measure scale with
              | .ok total => sum total none (d :: ds)
              | .error e => .error e
            | none => .error .invalid

/-- Reads a literal. -/
def parse (text : String) : Except DurationError Duration :=
  if text.toList.isEmpty then .error (.invalid text)
  else
    match sum 0 none text.toList with
    | .ok nanos => .ok ⟨nanos⟩
    | .error .invalid => .error (.invalid text)
    | .error .overflow => .error (.overflow text)

/-- The units of canonical text, from the largest. -/
def units : List (Nat × String) :=
  [(week, "w"), (day, "d"), (hour, "h"), (minute, "m"), (second, "s"), (milli, "ms"),
   (micro, "u"), (1, "ns")]

/-- The canonical text: a whole number of the largest unit that divides the span, and `0s` for no
time at all. -/
def render (d : Duration) : String :=
  if d.nanos = 0 then "0s"
  else
    match units.find? fun unit => d.nanos % unit.1 == 0 with
    | some (scale, name) => String.ofList (natText 10 (d.nanos / scale)) ++ name
    | none => ""

end Duration

end PipelineScript

import PipelineScript.Decimal.Text
import PipelineScript.Regex.Caseless
import PipelineScript.Regex.Sets
import PipelineScript.Text.Class

/-!
Escapes and bracketed classes of a pattern.

An escape stands for a character, for a set of characters or for a place between characters. A
bracketed class lists characters, ranges and sets, nests, and combines with `&&`, `--` and `~~`.
Reading a class gives its characters and how deep it nests: a class is one level deeper than what
it holds, and so are two or more members side by side and the two sides of an operator.
-/
namespace PipelineScript.Regex

/-- A place between characters. -/
inductive Place where
  | textStart
  | textEnd
  | lineStart
  | lineEnd
  /-- A place that the characters around it decide. -/
  | other (name : List Char)
deriving DecidableEq, Repr

/-- What an escape or a plain character stands for. -/
inductive Item where
  /-- One character. -/
  | char (c : Char)
  /-- A set of characters. -/
  | set (ranges : Ranges)
  | place (place : Place)
deriving DecidableEq, Repr

/-- How deep parts nest that stand side by side: two or more make a level of their own. -/
def sideBySide : List Nat → Nat
  | [] => 0
  | [depth] => depth
  | depths => depths.foldl max 0 + 1

/-- The character with a hexadecimal code point; surrogates are none. -/
def charOfHex? (cs : List Char) : Option Char :=
  match Text.hexOf? 0 cs with
  | some n => if cs.isEmpty ∨ ¬ n.isValidChar then none else some (Char.ofNat n)
  | none => none

/-- A code point in hexadecimal: `width` digits, or any number of them in braces. -/
def hexEscape? (width : Nat) (cs : List Char) : Option (Item × List Char) :=
  match cs with
  | [] => none
  | c :: ds =>
    if c = '\x7b' then
      match ds.dropWhile (· != '\x7d') with
      | [] => none
      | _ :: rest => (charOfHex? (ds.takeWhile (· != '\x7d'))).map fun x => (.char x, rest)
    else if cs.length < width then none
    else (charOfHex? (cs.take width)).map fun x => (.char x, cs.drop width)

/-- The general categories that a property escape may name. -/
def categories : List String :=
  ["C", "Cc", "Cf", "Cn", "Co", "L", "LC", "Ll", "Lm", "Lo", "Lt", "Lu", "M", "Mc", "Me", "Mn",
   "N", "Nd", "Nl", "No", "P", "Pc", "Pd", "Pe", "Pf", "Pi", "Po", "Ps", "S", "Sc", "Sk", "Sm",
   "So", "Z", "Zl", "Zp", "Zs", "Letter", "Number", "Punctuation", "Symbol", "Alphabetic",
   "Lowercase", "Uppercase", "White_Space", "Any", "ASCII", "Latin", "Greek", "Cyrillic", "Han"]

/-- A property escape: one letter, or a name in braces. Every property is taken for that of being
in a word. -/
def propertyEscape? (cs : List Char) : Option (Item × List Char) :=
  match cs with
  | [] => none
  | c :: ds =>
    if c = '\x7b' then
      match ds.dropWhile (· != '\x7d') with
      | [] => none
      | _ :: rest =>
        let name := ds.takeWhile (· != '\x7d')
        let name := if name.head? = some '^' then name.tail else name
        if categories.contains (String.ofList name) then some (.set wordSet, rest) else none
    else if categories.contains (String.ofList [c]) then some (.set wordSet, ds) else none

/-- The characters that mean something by themselves. -/
def isMeta (c : Char) : Bool := "\\.+*?()|[]\x7b\x7d^$#&-~".toList.contains c

/-- A character that may stand behind a backslash for itself: any ASCII sign that is neither
letter nor digit, except the two angle brackets. -/
def isEscapable (c : Char) : Bool :=
  decide (c.toNat < 128) && !Text.isAsciiLetter c && !Text.isDigit c && c != '<' && c != '>'

/-- The names of the places that `\b` may mention in braces. -/
def boundaries : List String := ["start", "end", "start-half", "end-half"]

/-- A word boundary, behind `\b`. Braces that open with a letter must name one. -/
def boundary? (cs : List Char) : Option (Item × List Char) :=
  match cs with
  | c :: d :: ds =>
    if c = '\x7b' ∧ (Text.isAsciiLetter d ∨ d = '-') then
      match (d :: ds).dropWhile fun x => Text.isAsciiLetter x || x == '-' with
      | e :: rest =>
        let name := (d :: ds).takeWhile fun x => Text.isAsciiLetter x || x == '-'
        if e = '\x7d' ∧ boundaries.contains (String.ofList name) then
          some (.place (.other name), rest)
        else none
      | [] => none
    else some (.place (.other ['b']), cs)
  | _ => some (.place (.other ['b']), cs)

/-- An escape, behind its backslash. Digits would refer back to a group, which is not supported. -/
def escape? (cs : List Char) : Option (Item × List Char) :=
  match cs with
  | [] => none
  | c :: ds =>
    if c = 'x' then hexEscape? 2 ds
    else if c = 'u' then hexEscape? 4 ds
    else if c = 'U' then hexEscape? 8 ds
    else if c = 'p' ∨ c = 'P' then propertyEscape? ds
    else if c = 'd' then some (.set digitSet, ds)
    else if c = 'D' then some (.set digitSet.complement, ds)
    else if c = 's' then some (.set spaceSet, ds)
    else if c = 'S' then some (.set spaceSet.complement, ds)
    else if c = 'w' then some (.set wordSet, ds)
    else if c = 'W' then some (.set wordSet.complement, ds)
    else if isMeta c || isEscapable c then some (.char c, ds)
    else if c = 'a' then some (.char '\x07', ds)
    else if c = 'f' then some (.char '\x0c', ds)
    else if c = 't' then some (.char '\t', ds)
    else if c = 'n' then some (.char '\n', ds)
    else if c = 'r' then some (.char '\r', ds)
    else if c = 'v' then some (.char '\x0b', ds)
    else if c = 'b' then boundary? ds
    else if c = 'A' then some (.place .textStart, ds)
    else if c = 'z' then some (.place .textEnd, ds)
    else if "B<>".toList.contains c then some (.place (.other [c]), ds)
    else none

/-- A character of a class, or an escape. -/
def classItem? (cs : List Char) : Option (Item × List Char) :=
  match cs with
  | [] => none
  | c :: ds => if c = '\\' then escape? ds else some (.char c, ds)

/-- An item of a class on its own: a place is no member. -/
def member? : Item → List Char → Option (Ranges × List Char)
  | .place _, _ => none
  | .set ranges, rest => some (ranges, rest)
  | .char c, rest => some ([(c.toNat, c.toNat)], rest)

/-- An item of a class or a range from one character up to another. A minus before the closing
bracket or before a second minus makes no range. -/
def classRange? (cs : List Char) : Option (Ranges × List Char) :=
  match classItem? cs with
  | none => none
  | some (first, rest) =>
    match rest with
    | [] => none
    | c :: ds =>
      if c ≠ '-' then member? first rest
      else
        match ds with
        | [] => none
        | d :: _ =>
          if d = ']' ∨ d = '-' then member? first rest
          else
            match first, classItem? ds with
            | .char low, some (.char high, rest) =>
              if low ≤ high then some (Ranges.span low.toNat high.toNat, rest) else none
            | _, _ => none

/-- A set with the case variants of its characters, if case does not count, or the characters that
are not in it. -/
def closeSet (caseless negated : Bool) (set : Ranges) : Ranges :=
  let set := if caseless then set.caseless else set
  if negated then set.complement else set

/-- A named set such as `[:alpha:]`, behind its opening bracket. -/
def namedSet? (caseless : Bool) (cs : List Char) : Option (Ranges × List Char) :=
  match cs with
  | c :: ds =>
    if c = ':' then
      let negated : Bool := ds.head? = some '^'
      let ds := if negated then ds.tail else ds
      match ds.dropWhile (· != ':') with
      | _ :: d :: rest =>
        if d = ']' then
          (namedSets.lookup (String.ofList (ds.takeWhile (· != ':')))).map fun set =>
            (closeSet caseless negated set, rest)
        else none
      | _ => none
    else none
  | [] => none

/-- An operator between sets. -/
inductive SetOp where
  | intersection | difference | exclusive
deriving DecidableEq, Repr

/-- The operator that a sign stands for when it is doubled. -/
def SetOp.ofSign? (c : Char) : Option SetOp :=
  if c = '&' then some .intersection
  else if c = '-' then some .difference
  else if c = '~' then some .exclusive
  else none

/-- What an operator makes of two sets. -/
def SetOp.apply (op : SetOp) (left right : Ranges) : Ranges :=
  match op with
  | .intersection => left.intersection right
  | .difference => left.difference right
  | .exclusive => left.exclusive right

/-- A set and how deep the text that describes it nests. -/
structure Described where
  depth : Nat
  set : Ranges
deriving DecidableEq, Repr

/-- A class that is being read: whether it is negated, its last operator and what stands before
it, how deep the members behind that nest, and the characters of these members. -/
structure ClassLevel where
  negated : Bool
  left : Option (SetOp × Described)
  depths : List Nat
  members : Ranges
deriving DecidableEq, Repr

namespace ClassLevel

/-- Adds a member. -/
def add (level : ClassLevel) (member : Described) : ClassLevel :=
  { level with
    depths := member.depth :: level.depths
    members := level.members.union member.set }

/-- The class so far: what the last operator makes of its two sides. -/
def described (caseless : Bool) (level : ClassLevel) : Described :=
  let right : Described := ⟨sideBySide level.depths, level.members⟩
  match level.left with
  | none => right
  | some (op, left) =>
    ⟨max left.depth right.depth + 1,
      op.apply (closeSet caseless false left.set) (closeSet caseless false right.set)⟩

/-- The whole class. -/
def close (caseless : Bool) (level : ClassLevel) : Described :=
  let inner := level.described caseless
  ⟨inner.depth + 1, closeSet caseless level.negated inner.set⟩

/-- Goes on behind an operator. -/
def operate (caseless : Bool) (level : ClassLevel) (op : SetOp) : ClassLevel :=
  { level with left := some (op, level.described caseless), depths := [], members := [] }

end ClassLevel

/-- What may stand only at the beginning of a class: a negation, any number of minus signs, and a
closing bracket that then counts as a member. -/
def classHead (cs : List Char) : ClassLevel × List Char :=
  let negated : Bool := cs.head? = some '^'
  let cs := if negated then cs.tail else cs
  let minuses := cs.takeWhile (· == '-')
  let body := cs.dropWhile (· == '-')
  if minuses.isEmpty ∧ body.head? = some ']' then
    (⟨negated, none, [0], [(0x5d, 0x5d)]⟩, body.tail)
  else
    (⟨negated, none, minuses.map fun _ => 0, minuses.take 1 |>.map fun c => (c.toNat, c.toNat)⟩,
      body)

/-- Reads a class to its end. `outer` are the classes around it. -/
def class? (caseless : Bool) :
    Nat → List ClassLevel → ClassLevel → List Char → Option (Described × List Char)
  | 0, _, _, _ => none
  | _ + 1, _, _, [] => none
  | fuel + 1, outer, level, c :: cs =>
    if c = '[' then
      match namedSet? caseless cs with
      | some (set, rest) => class? caseless fuel outer (level.add ⟨0, set⟩) rest
      | none =>
        let (inner, rest) := classHead cs
        class? caseless fuel (level :: outer) inner rest
    else if c = ']' then
      match outer with
      | [] => some (level.close caseless, cs)
      | parent :: outer => class? caseless fuel outer (parent.add (level.close caseless)) cs
    else
      match if cs.head? = some c then SetOp.ofSign? c else none with
      | some op => class? caseless fuel outer (level.operate caseless op) cs.tail
      | none =>
        match classRange? (c :: cs) with
        | some (set, rest) => class? caseless fuel outer (level.add ⟨0, set⟩) rest
        | none => none

end PipelineScript.Regex

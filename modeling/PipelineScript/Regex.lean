import PipelineScript.Pattern
import PipelineScript.Regex.Program
import PipelineScript.Text.Escape

/-!
An engine for regular expressions: which texts it takes as patterns.

The reader goes through a text from left to right and keeps what later text depends on: the groups
that are open and what they hold so far, the flags that are set, which names groups already have,
and whether there is something that a repetition could repeat. Groups that look around and
references back to a group are not supported.

A text is valid if it can be read, nests no deeper than `depthLimit`, and its programs have the
room that they need. Groups, repetitions and bracketed classes add a level to what they hold; so do
two or more parts side by side and two or more branches of a choice.
-/
namespace PipelineScript

namespace Regex

/-- The most levels that a pattern may have. -/
def depthLimit : Nat := 250

/-- The flags that change what a pattern means. -/
structure Flags where
  /-- Case does not count. -/
  caseless : Bool
  /-- A line has a beginning and an end of its own. -/
  multiLine : Bool
  /-- A point matches a newline too. -/
  dotAll : Bool
deriving DecidableEq, Repr

namespace Flags

/-- No flag is set. -/
def none : Flags := ⟨false, false, false⟩

/-- Sets or clears the flag with a given letter. The other flags are accepted and have no effect. -/
def change (flags : Flags) (c : Char) (value : Bool) : Flags :=
  if c = 'i' then { flags with caseless := value }
  else if c = 'm' then { flags with multiLine := value }
  else if c = 's' then { flags with dotAll := value }
  else flags

end Flags

/-- What a group opens with. -/
inductive GroupHead where
  /-- A group, which may be remembered and have a name, and the flags in it. -/
  | opens (captures : Bool) (name : Option (List Char)) (flags : Flags)
  /-- Flags that hold from here on; nothing is opened. -/
  | flags (flags : Flags)
deriving DecidableEq, Repr

/-- A character that a group's name may begin with. -/
def isNameStart (c : Char) : Bool := c == '_' || Text.isAlphabetic c

/-- A character that a group's name may go on with. -/
def isNameRest (c : Char) : Bool :=
  Text.isNamePart c || c == '.' || c == '[' || c == ']'

/-- The name of a group, up to its closing angle bracket. -/
def groupName? (flags : Flags) (cs : List Char) : Option (GroupHead × List Char) :=
  match cs.dropWhile (· != '>') with
  | [] => none
  | _ :: rest =>
    match cs.takeWhile (· != '>') with
    | [] => none
    | c :: ds =>
      if isNameStart c && ds.all isNameRest then some (.opens true (some (c :: ds)) flags, rest)
      else none

/-- The flags of a group up to a colon or the closing parenthesis. `seen` holds the letters so
far, `negated` whether a minus has come, and `dangling` whether it came last. -/
def flags? (flags : Flags) (seen : List Char) (negated dangling : Bool) :
    List Char → Option (GroupHead × List Char)
  | [] => none
  | c :: cs =>
    if c = ':' then if dangling then none else some (.opens false none flags, cs)
    else if c = ')' then
      if dangling || (seen.isEmpty && !negated) then none else some (.flags flags, cs)
    else if c = '-' then if negated then none else flags? flags seen true true cs
    else if "imsUuxR".toList.contains c && !seen.contains c then
      flags? (flags.change c !negated) (c :: seen) negated false cs
    else none

/-- What stands behind the opening parenthesis of a group. -/
def groupHead? (flags : Flags) (cs : List Char) : Option (GroupHead × List Char) :=
  match cs with
  | c :: ds =>
    if c ≠ '?' then some (.opens true none flags, cs)
    else
      match ds with
      | '=' :: _ => none
      | '!' :: _ => none
      | '<' :: '=' :: _ => none
      | '<' :: '!' :: _ => none
      | '<' :: rest => groupName? flags rest
      | 'P' :: '<' :: rest => groupName? flags rest
      | _ => flags? flags [] false false ds
  | [] => some (.opens true none flags, [])

/-- A count of a repetition, with the white space around it. Counts have 32 bits. -/
def count? (cs : List Char) : Option (Nat × List Char) :=
  let cs := cs.dropWhile Text.isSpace
  match readNat? 10 (cs.takeWhile Text.isDigit) with
  | some n =>
    if n < 0x100000000 then some (n, (cs.dropWhile Text.isDigit).dropWhile Text.isSpace) else none
  | none => none

/-- The counts of a repetition, behind its opening brace. -/
def counts? (cs : List Char) : Option (Counts × List Char) :=
  match count? cs with
  | none => none
  | some (low, rest) =>
    match rest with
    | c :: ds =>
      if c = '\x7d' then some (⟨low, some low⟩, ds)
      else if c = ',' then
        match ds with
        | d :: es =>
          if d = '\x7d' then some (⟨low, none⟩, es)
          else
            match count? ds with
            | some (high, e :: rest) =>
              if e = '\x7d' ∧ low ≤ high then some (⟨low, some high⟩, rest) else none
            | _ => none
        | [] => none
      else none
    | [] => none

/-- The counts that a sign of repetition stands for. -/
def signCounts (c : Char) : Counts :=
  if c = '?' then ⟨0, some 1⟩ else if c = '*' then ⟨0, none⟩ else ⟨1, none⟩

/-- What is behind a repetition: a question mark there belongs to it. -/
def lazily (cs : List Char) : List Char := if cs.head? = some '?' then cs.tail else cs

/-- A part of a pattern: how deep it nests and what it means. -/
structure Part where
  depth : Nat
  expr : Expr
deriving Repr

namespace Part

/-- Parts one after the other. -/
def sequence (parts : List Part) : Part :=
  ⟨sideBySide (parts.map (·.depth)), .ofSequence (parts.map (·.expr))⟩

/-- Branches of a choice. -/
def choice (branches : List Part) : Part :=
  ⟨sideBySide (branches.map (·.depth)),
    match branches with
    | [branch] => branch.expr
    | _ => .ofChoice branches.length (branches.map (·.expr))⟩

/-- A part in parentheses, which may be remembered under a number. -/
def group (index : Option Nat) (part : Part) : Part :=
  ⟨part.depth + 1,
    match index with
    | some index => .capture index part.expr
    | none => part.expr⟩

/-- A repeated part. -/
def repeated (counts : Counts) (greedy : Bool) (part : Part) : Part :=
  ⟨part.depth + 1, .ofRepeated counts greedy part.expr⟩

end Part

/-- A character under flags. -/
def charExpr (flags : Flags) (c : Char) : Expr :=
  if flags.caseless then .ofCaseless c else .ofChar c

/-- Any character, or any but a newline. -/
def dotExpr (flags : Flags) : Expr :=
  .set (if flags.dotAll then Ranges.complement [] else Ranges.complement [(10, 10)])

/-- The beginning or the end of a text, or of a line. -/
def anchorExpr (flags : Flags) (c : Char) : Expr :=
  .place
    (if c = '^' then if flags.multiLine then .lineStart else .textStart
    else if flags.multiLine then .lineEnd
    else .textEnd)

/-- What an escape means under flags. -/
def itemExpr (flags : Flags) : Item → Expr
  | .char c => charExpr flags c
  | .set ranges => .ofSet ranges
  | .place place => .place place

/-- A group that is being read, or the whole pattern: the number under which it is remembered, the
branches that are complete, and the parts of the last branch, in both the last one first. -/
structure Level where
  index : Option Nat
  flags : Flags
  branches : List Part
  parts : List Part
  /-- Whether the last part can be repeated. -/
  operand : Bool
deriving Repr

namespace Level

/-- A group of which nothing has been read. -/
def opening (index : Option Nat) (flags : Flags) : Level := ⟨index, flags, [], [], false⟩

/-- Adds a part. -/
def add (level : Level) (part : Part) : Level :=
  { level with parts := part :: level.parts, operand := true }

/-- Adds a part that holds no other parts. -/
def addExpr (level : Level) (expr : Expr) : Level := level.add ⟨0, expr⟩

/-- Sets flags. They count as a part, which cannot be repeated. -/
def setFlags (level : Level) (flags : Flags) : Level :=
  { level with flags, parts := ⟨0, .empty⟩ :: level.parts, operand := false }

/-- Ends a branch. -/
def nextBranch (level : Level) : Level :=
  { level with
    branches := .sequence level.parts.reverse :: level.branches
    parts := []
    operand := false }

/-- Repeats the last part. -/
def repeatLast? (level : Level) (counts : Counts) (greedy : Bool) : Option Level :=
  match level.operand, level.parts with
  | true, part :: parts => some { level with parts := part.repeated counts greedy :: parts }
  | _, _ => none

/-- What has been read. -/
def part (level : Level) : Part :=
  .choice (.sequence level.parts.reverse :: level.branches).reverse

end Level

/-- Whether a repetition takes as much as it can: no question mark follows. -/
def isGreedy (cs : List Char) : Bool := cs.head? ≠ some '?'

/-- Reads a pattern. `outer` are the groups around the current one, `captures` counts the groups
that are remembered, and `names` are taken. -/
def scan : Nat → List Level → Level → Nat → List (List Char) → List Char → Option Part
  | _, outer, level, _, _, [] => if outer.isEmpty then some level.part else none
  | 0, _, _, _, _, _ :: _ => none
  | fuel + 1, outer, level, captures, names, c :: cs =>
    if c = '(' then
      match groupHead? level.flags cs with
      | some (.flags flags, rest) => scan fuel outer (level.setFlags flags) captures names rest
      | some (.opens false _ flags, rest) =>
        scan fuel (level :: outer) (.opening none flags) captures names rest
      | some (.opens true name flags, rest) =>
        if name.any names.contains then none
        else
          scan fuel (level :: outer) (.opening (some (captures + 1)) flags) (captures + 1)
            (name.toList ++ names) rest
      | none => none
    else if c = ')' then
      match outer with
      | [] => none
      | parent :: outer =>
        scan fuel outer (parent.add (.group level.index level.part)) captures names cs
    else if c = '|' then scan fuel outer level.nextBranch captures names cs
    else if c = '[' then
      let (head, rest) := classHead cs
      match class? level.flags.caseless cs.length [] head rest with
      | some (described, rest) =>
        scan fuel outer (level.add ⟨described.depth, .ofSet described.set⟩) captures names rest
      | none => none
    else if c = '?' ∨ c = '*' ∨ c = '+' then
      match level.repeatLast? (signCounts c) (isGreedy cs) with
      | some level => scan fuel outer level captures names (lazily cs)
      | none => none
    else if c = '\x7b' then
      match counts? cs with
      | some (counts, rest) =>
        match level.repeatLast? counts (isGreedy rest) with
        | some level => scan fuel outer level captures names (lazily rest)
        | none => none
      | none => none
    else if c = '\\' then
      match escape? cs with
      | some (item, rest) =>
        scan fuel outer (level.addExpr (itemExpr level.flags item)) captures names rest
      | none => none
    else if c = '.' then scan fuel outer (level.addExpr (dotExpr level.flags)) captures names cs
    else if c = '^' ∨ c = '$' then
      scan fuel outer (level.addExpr (anchorExpr level.flags c)) captures names cs
    else scan fuel outer (level.addExpr (charExpr level.flags c)) captures names cs

/-- The pattern that a text spells, if it can be read as one. -/
def read? (cs : List Char) : Option Part := scan cs.length [] (.opening none .none) 0 [] cs

/-- Why a text is no pattern. -/
inductive Fault where
  /-- It cannot be read, or nests too deep. -/
  | malformed
  /-- Its programs would take too much room. -/
  | tooLarge
deriving DecidableEq, Repr

/-- The wording of the fault. -/
def Fault.message (text : String) : Fault → String
  | .malformed => "regex parse error:\n    " ++ text
  | .tooLarge => "Compiled regex exceeds size limit of " ++ toString roomLimit ++ " bytes."

/-- What is wrong with a text as a pattern. -/
def fault? (cs : List Char) : Option Fault :=
  match read? cs with
  | none => some .malformed
  | some part =>
    if depthLimit < part.depth then some .malformed
    else if Program.fits part.expr then none
    else some .tooLarge

/-- The engine that takes the texts which can be read and whose programs have the room. -/
@[reducible] def engine : PatternEngine where
  fault? text := (fault? text.toList).map (Fault.message text)

end Regex

end PipelineScript

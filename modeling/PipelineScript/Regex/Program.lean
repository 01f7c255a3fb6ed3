import Std.Data.HashMap
import PipelineScript.Regex.Encoded
import PipelineScript.Regex.Expr
import PipelineScript.Regex.Trie

/-!
How much room the programs of a regular expression take.

An expression is matched by two programs, one that reads a text forward and one that reads it
backward. A program is a list of states; only their number and the bytes that they need beyond
their fixed size are kept here. Building stops as soon as a program is larger than `roomLimit`.

A repetition with counts holds its part as often as the counts say. A set of characters beyond
ASCII is spelled out in bytes, and states that would go on alike are shared. What can be shared is
remembered in a table with a fixed number of slots, in which a newcomer takes the place of an older
entry of the same slot, so now and then a state is made twice.
-/
namespace PipelineScript.Regex

/-- The bytes that a program may take. -/
def roomLimit : Nat := 10485760

/-- The fixed size of a state. -/
def stateSize : Nat := 32

/-- The size of one way on from a state that leads to several others. -/
def forkSize : Nat := 4

/-- The size of one way on that is open to a range of bytes. -/
def waySize : Nat := 8

/-- A program that is being built: the number of its states and the bytes beyond their size. -/
structure Program where
  states : Nat
  heap : Nat
deriving DecidableEq, Repr

namespace Program

/-- The bytes of a program. -/
def room (p : Program) : Nat := stateSize * p.states + p.heap

/-- A step of building; `none` says that the program has become too large. -/
abbrev Step := Program → Option Program

/-- Adds states and the bytes that they need beyond their size. -/
def grow (states heap : Nat) : Step := fun p =>
  let q : Program := ⟨p.states + states, p.heap + heap⟩
  if q.room ≤ roomLimit then some q else none

/-- One step after another. -/
def andThen (first second : Step) : Step := fun p =>
  match first p with
  | some p => second p
  | none => none

/-- A step several times over. -/
def times (step : Step) : Nat → Step
  | 0, p => some p
  | n + 1, p =>
    match step p with
    | some p => times step n p
    | none => none

/-- A state from which there are two ways on. -/
def fork : Step := grow 1 (2 * forkSize)

/-! ## Sets -/

/-- The slot of a list of numbers in a table: each is mixed into a word of 64 bits, which is then
multiplied by a prime, and the last word is reduced to the number of slots. -/
def slot (slots : Nat) (key : List Nat) : Nat :=
  (key.foldl (fun h n => (h ^^^ UInt64.ofNat n) * 1099511628211)
    (14695981039346656037 : UInt64)).toNat % slots

/-- A table that remembers the states made for some keys, by their slots. -/
abbrev Table := Std.HashMap Nat (List Nat × Nat)

/-- The state that a table remembers for a key. -/
def remembered? (slots : Nat) (table : Table) (key : List Nat) : Option Nat :=
  match table[slot slots key]? with
  | some (key', state) => if key' = key then some state else none
  | none => none

/-- Remembers the state made for a key. -/
def remember (slots : Nat) (table : Table) (key : List Nat) (state : Nat) : Table :=
  table.insert (slot slots key) (key, state)

/-- The state for a key, which is made unless the table remembers it. -/
def shared (slots heap : Nat) (key : List Nat) (table : Table) (p : Program) :
    Option (Nat × Table × Program) :=
  match remembered? slots table key with
  | some state => some (state, table, p)
  | none =>
    match grow 1 heap p with
    | some q => some (p.states, remember slots table key p.states, q)
    | none => none

/-- The slots of the table for sets that are read backward. -/
def backwardSlots : Nat := 1000

/-- The slots of the table for sets that are read forward. -/
def forwardSlots : Nat := 10000

/-- The states for a sequence of byte ranges that is read backward. Its first range, which is read
last, leads to `target`. -/
def chain : List ByteRange → Nat → Table → Program → Option (Table × Program)
  | [], _, table, p => some (table, p)
  | (low, high) :: ranges, target, table, p =>
    match shared backwardSlots 0 [target, low, high] table p with
    | some (state, table, p) => chain ranges state table p
    | none => none

/-- The states for several sequences of byte ranges that are read backward. -/
def chains (target : Nat) : List (List ByteRange) → Table → Step
  | [], _, p => some p
  | ranges :: rest, table, p =>
    match chain ranges target table p with
    | some (table, p) =>
      match grow 0 forkSize p with
      | some p => chains target rest table p
      | none => none
    | none => none

/-- Sequences in groups that begin with the same range of bytes, without that range. -/
def byFirst : List (List ByteRange) → List (ByteRange × List (List ByteRange))
  | [] => []
  | [] :: rest => byFirst rest
  | (range :: ranges) :: rest =>
    match byFirst rest with
    | (range', group) :: groups =>
      if range' = range then (range, ranges :: group) :: groups
      else (range, [ranges]) :: (range', group) :: groups
    | [] => [(range, [ranges])]

/-- The state from which sequences of byte ranges are read forward to `target`, made behind the
states that follow it. `fuel` bounds the length of the sequences. -/
def node (target : Nat) (fuel : Nat) (sequences : List (List ByteRange)) (table : Table)
    (p : Program) : Option (Nat × Table × Program) :=
  match fuel with
  | 0 => some (target, table, p)
  | fuel + 1 =>
    let ways (acc : Option (List Nat × Table × Program))
        (group : ByteRange × List (List ByteRange)) : Option (List Nat × Table × Program) :=
      match acc with
      | none => none
      | some (key, table, p) =>
        let next :=
          if group.2.all List.isEmpty then some (target, table, p)
          else node target fuel group.2 table p
        next.map fun (state, table, p) => (key ++ [group.1.1, group.1.2, state], table, p)
    let groups := byFirst sequences
    match groups.foldl ways (some ([], table, p)) with
    | some (key, table, p) => shared forwardSlots (waySize * groups.length) key table p
    | none => none

/-- The sequences of byte ranges of a set. -/
def setSequences (set : Ranges) : List (List ByteRange) :=
  set.flatMap fun range => sequences 16 range.1 range.2

/-- The states for one character of a set. A set within ASCII takes two. -/
def addSet (backward : Bool) (set : Ranges) : Step := fun p =>
  if set.all fun range => decide (range.2 < 128) then grow 2 (waySize * set.length) p
  else if backward then
    match grow 2 0 p with
    | some q => chains (p.states + 1) (setSequences set) ∅ q
    | none => none
  else
    match grow 1 0 p with
    | some q =>
      (node p.states 5 (setSequences set) ∅ q).map fun (_, _, p) => p
    | none => none

/-! ## Expressions -/

/-- The states for a repetition of a part. `positive` says that the part never matches the empty
text. -/
def addRepeated (counts : Counts) (positive : Bool) (body : Step) : Step :=
  match counts.high with
  | none =>
    if counts.low = 0 then
      if positive then andThen fork body
      else andThen body (andThen fork (andThen fork (grow 1 0)))
    else andThen (times body counts.low) fork
  | some high =>
    if counts.low = 0 ∧ high = 1 then andThen fork (andThen body (grow 1 0))
    else
      let always := if counts.low = 0 then grow 1 0 else times body counts.low
      if counts.low = high then always
      else andThen always (andThen (grow 1 0) (times (andThen fork body) (high - counts.low)))

/-- The literals that branches consist of, if all do. -/
def literals? : List Expr → Option (List (List UInt8))
  | [] => some []
  | .literal bytes :: es => (literals? es).map (bytes :: ·)
  | _ => none

/-- The states for a choice of literals. -/
def addLiterals (backward : Bool) (literals : List (List UInt8)) : Step :=
  let literals := if backward then literals.map List.reverse else literals
  let cost := (Trie.ofLiterals literals).cost
  andThen (grow 1 0) (grow cost.1 cost.2)

mutual

/-- The states for an expression. What is remembered is marked only when a text is read
forward. -/
def add (backward : Bool) : Expr → Step
  | .empty => grow 1 0
  | .literal bytes => grow bytes.length 0
  | .set ranges => addSet backward ranges
  | .place _ => grow 1 0
  | .repeated counts _ body =>
    addRepeated counts (body.shortest?.any (0 < ·)) (add backward body)
  | .capture _ body =>
    if backward then add backward body
    else andThen (grow 1 0) (andThen (add backward body) (grow 1 0))
  | .concat parts => addParts backward parts
  | .choice branches =>
    match literals? branches with
    | some literals => addLiterals backward literals
    | none => addBranches backward 0 branches
termination_by structural e => e

/-- The states for a sequence, in the order in which it is read. -/
def addParts (backward : Bool) : List Expr → Step
  | [] => fun p => some p
  | part :: parts =>
    if backward then andThen (addParts backward parts) (add backward part)
    else andThen (add backward part) (addParts backward parts)
termination_by structural es => es

/-- The states for the branches of a choice. Behind the second of them come a state that leads to
all branches and one that they lead to. -/
def addBranches (backward : Bool) (index : Nat) : List Expr → Step
  | [] => fun p => some p
  | branch :: branches =>
    andThen (add backward branch)
      (andThen (grow (if index = 1 then 2 else 0) forkSize)
        (addBranches backward (index + 1) branches))
termination_by structural es => es

end

/-- The states that let a program begin at any place of a text, or only at its end. -/
def opening (anchored : Bool) : Step :=
  if anchored then grow 1 0 else grow 3 (waySize + 2 * forkSize)

/-- The program that reads forward. It marks the beginning and the end of a match. -/
def forward (e : Expr) : Option Program :=
  andThen (opening e.opensText)
    (andThen (grow 1 0) (andThen (add false e) (grow 2 0))) ⟨0, 0⟩

/-- The program that reads backward. -/
def backward (e : Expr) : Option Program :=
  andThen (opening e.closesText) (andThen (add true e) (grow 1 0)) ⟨0, 0⟩

/-- Whether both programs of an expression have the room that they need. -/
def fits (e : Expr) : Bool := (forward e).isSome && (backward e).isSome

end Program

end PipelineScript.Regex

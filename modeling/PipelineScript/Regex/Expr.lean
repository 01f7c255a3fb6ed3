import PipelineScript.Regex.Class

/-!
Regular expressions in simplified form.

What a pattern means is built up by functions that simplify as they go: parts that match nothing
but the empty text are left out of a sequence, adjacent characters become one literal, sequences
inside sequences and choices inside choices are flattened, a choice of single characters or of
sets becomes one set, and a choice whose branches all begin alike has that beginning taken out.
-/
namespace PipelineScript.Regex

/-- How often a part is repeated; without `high` there is no upper bound. -/
structure Counts where
  low : Nat
  high : Option Nat
deriving DecidableEq, Repr

/-- A regular expression. -/
inductive Expr where
  /-- The empty text. -/
  | empty
  /-- A text as bytes. -/
  | literal (bytes : List UInt8)
  /-- One character of a set; nothing matches the empty set. -/
  | set (ranges : Ranges)
  | place (place : Place)
  | repeated (counts : Counts) (greedy : Bool) (body : Expr)
  /-- A part that is remembered under a number. -/
  | capture (index : Nat) (body : Expr)
  | concat (parts : List Expr)
  | choice (branches : List Expr)
deriving Repr, Inhabited

namespace Expr

mutual

/-- Whether two expressions are equal. -/
def same : Expr → Expr → Bool
  | .empty, .empty => true
  | .literal a, .literal b => a == b
  | .set a, .set b => a == b
  | .place a, .place b => a == b
  | .repeated counts greedy a, .repeated counts' greedy' b =>
    counts == counts' && greedy == greedy' && same a b
  | .capture i a, .capture j b => i == j && same a b
  | .concat as, .concat bs => sameAll as bs
  | .choice as, .choice bs => sameAll as bs
  | _, _ => false
termination_by structural e => e

/-- Whether two lists of expressions are equal. -/
def sameAll : List Expr → List Expr → Bool
  | [], [] => true
  | a :: as, b :: bs => same a b && sameAll as bs
  | _, _ => false
termination_by structural es => es

end

mutual

/-- The bytes of the shortest text that matches, or `none` if nothing does. -/
def shortest? : Expr → Option Nat
  | .empty => some 0
  | .literal bytes => some bytes.length
  | .set [] => none
  | .set (_ :: _) => some 1
  | .place _ => some 0
  | .repeated counts _ body => (shortest? body).map (· * counts.low)
  | .capture _ body => shortest? body
  | .concat parts => shortestSum? parts
  | .choice branches => shortestOf? branches
termination_by structural e => e

/-- The bytes of the shortest text that matches a sequence. -/
def shortestSum? : List Expr → Option Nat
  | [] => some 0
  | part :: parts =>
    match shortest? part, shortestSum? parts with
    | some a, some b => some (a + b)
    | _, _ => none
termination_by structural es => es

/-- The bytes of the shortest text that matches a choice, if every branch matches some text. -/
def shortestOf? : List Expr → Option Nat
  | [] => none
  | [branch] => shortest? branch
  | branch :: branches =>
    match shortest? branch, shortestOf? branches with
    | some a, some b => some (min a b)
    | _, _ => none
termination_by structural es => es

end

mutual

/-- Whether only the empty text can match. -/
def isBlank : Expr → Bool
  | .empty => true
  | .literal bytes => bytes.isEmpty
  | .set _ => false
  | .place _ => true
  | .repeated counts _ body => counts.high == some 0 || (counts.high.isSome && isBlank body)
  | .capture _ body => isBlank body
  | .concat parts => allBlank parts
  | .choice branches => allBlank branches
termination_by structural e => e

/-- Whether only the empty text can match each of some expressions. -/
def allBlank : List Expr → Bool
  | [] => true
  | e :: es => isBlank e && allBlank es
termination_by structural es => es

end

mutual

/-- Whether every match begins at the beginning of the text. -/
def opensText : Expr → Bool
  | .place spot => spot == .textStart
  | .repeated counts _ body => decide (0 < counts.low) && opensText body
  | .capture _ body => opensText body
  | .concat parts => firstOpensText parts
  | .choice branches => allOpenText branches
  | .empty | .literal _ | .set _ => false
termination_by structural e => e

/-- Whether one of the parts before the first that matches more than the empty text, or that part
itself, begins at the beginning of the text. -/
def firstOpensText : List Expr → Bool
  | [] => false
  | part :: parts => opensText part || (isBlank part && firstOpensText parts)
termination_by structural es => es

/-- Whether every branch begins at the beginning of the text. -/
def allOpenText : List Expr → Bool
  | [] => true
  | branch :: branches => opensText branch && allOpenText branches
termination_by structural es => es

end

mutual

/-- Whether every match ends at the end of the text. -/
def closesText : Expr → Bool
  | .place spot => spot == .textEnd
  | .repeated counts _ body => decide (0 < counts.low) && closesText body
  | .capture _ body => closesText body
  | .concat parts => lastClosesText parts
  | .choice branches => allCloseText branches
  | .empty | .literal _ | .set _ => false
termination_by structural e => e

/-- Whether one of the parts behind the last that matches more than the empty text, or that part
itself, ends at the end of the text. -/
def lastClosesText : List Expr → Bool
  | [] => false
  | part :: parts => lastClosesText parts || (allBlank parts && closesText part)
termination_by structural es => es

/-- Whether every branch ends at the end of the text. -/
def allCloseText : List Expr → Bool
  | [] => true
  | branch :: branches => closesText branch && allCloseText branches
termination_by structural es => es

end

/-! ## Building -/

/-- A character. -/
def ofChar (c : Char) : Expr := .literal (String.utf8EncodeChar c)

/-- One character of a set; a set of one character is that character. -/
def ofSet (ranges : Ranges) : Expr :=
  match ranges with
  | [(low, high)] => if low = high then ofChar (Char.ofNat low) else .set ranges
  | _ => .set ranges

/-- A character or any of its case variants. -/
def ofCaseless (c : Char) : Expr :=
  match caseVariants c.toNat with
  | [] => ofChar c
  | variants =>
    ofSet (variants.foldl (fun set code => set.insert code code) [(c.toNat, c.toNat)])

/-- A repeated part. The empty text is repeated at most once, a part that is repeated once is the
part itself, and one that is never there is the empty text. -/
def ofRepeated (counts : Counts) (greedy : Bool) (body : Expr) : Expr :=
  let counts : Counts :=
    if isBlank body then ⟨min counts.low 1, some (min (counts.high.getD 1) 1)⟩ else counts
  if counts = ⟨0, some 0⟩ then .empty
  else if counts = ⟨1, some 1⟩ then body
  else .repeated counts greedy body

/-- The parts that an expression brings into a sequence. -/
def partsOf : Expr → List Expr
  | .empty => []
  | .concat parts => parts
  | e => [e]

/-- Puts a part in front of a sequence. -/
def joinPart (part : Expr) (parts : List Expr) : List Expr :=
  match part, parts with
  | .literal a, .literal b :: rest => .literal (a ++ b) :: rest
  | _, _ => part :: parts

/-- A sequence. -/
def ofSequence (es : List Expr) : Expr :=
  match (es.flatMap partsOf).foldr joinPart [] with
  | [] => .empty
  | [e] => e
  | parts => .concat parts

/-- The branches that an expression brings into a choice. -/
def branchesOf : Expr → List Expr
  | .choice branches => branches
  | e => [e]

/-- The character that a literal consists of, if it is a single one. -/
def singleChar? : Expr → Option Char
  | .literal bytes =>
    match (String.fromUTF8? ⟨bytes.toArray⟩).map String.toList with
    | some [c] => some c
    | _ => none
  | _ => none

/-- The set that an expression matches one character of. -/
def set? : Expr → Option Ranges
  | .set ranges => some ranges
  | _ => none

/-- The length of the longest common beginning of two sequences. -/
def commonLength : List Expr → List Expr → Nat
  | a :: as, b :: bs => if same a b then commonLength as bs + 1 else 0
  | _, _ => 0

/-- The parts of an expression that is a sequence. -/
def concat? : Expr → Option (List Expr)
  | .concat parts => some parts
  | _ => none

/-- The beginning that all branches have in common, and what is left of each. -/
def commonStart? (branches : List Expr) : Option (List Expr × List (List Expr)) :=
  match branches.mapM concat? with
  | some (first :: others) =>
    let length := others.foldl (fun n parts => min n (commonLength first parts)) first.length
    if length = 0 then none
    else some (first.take length, (first :: others).map (·.drop length))
  | _ => none

/-- A choice. `fuel` bounds how often a common beginning is taken out. -/
def ofChoice (fuel : Nat) (es : List Expr) : Expr :=
  match es.flatMap branchesOf with
  | [] => .set []
  | [e] => e
  | branches =>
    match branches.mapM singleChar?, branches.mapM set? with
    | some chars, _ =>
      ofSet (chars.foldl (fun set c => set.insert c.toNat c.toNat) [])
    | none, some sets => ofSet (sets.foldl Ranges.union [])
    | none, none =>
      match fuel, commonStart? branches with
      | fuel + 1, some (start, rests) =>
        ofSequence (start ++ [ofChoice fuel (rests.map ofSequence)])
      | _, _ => .choice branches

end Expr

end PipelineScript.Regex

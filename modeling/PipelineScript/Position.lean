import PipelineScript.Text.Bytes

/-!
Places in a script.

A place is a byte offset together with its line and its column, both counted from one; a column
counts bytes. A node that no script was read for stands at offset, line and column zero.
-/
namespace PipelineScript

/-- A byte offset with its line and column. -/
structure Position where
  offset : Nat
  line : Nat
  column : Nat
deriving DecidableEq, Repr, Inhabited

namespace Position

/-- The place of a node that was not read from a script. -/
def nowhere : Position := ⟨0, 0, 0⟩

/-- The byte that ends a line. -/
def newline : UInt8 := 10

/-- The number of bytes after the last newline, or `none` if there is no newline. -/
def sinceNewline (bytes : List UInt8) : Option Nat :=
  bytes.reverse.idxOf? newline

/-- The line and column of an offset. Lines are counted in the bytes before the offset; past the
end of the text the column goes on growing with the offset. -/
def locate (bytes : List UInt8) (offset : Nat) : Position :=
  let before := bytes.take offset
  { offset
    line := 1 + before.count newline
    column :=
      match sinceNewline before with
      | some n => n + 1 + (offset - before.length)
      | none => offset + 1 }

/-- The place as a diagnostic names it. -/
def describe (p : Position) : String := s!"line {p.line} char {p.column}"

end Position

end PipelineScript

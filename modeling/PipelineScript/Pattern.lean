/-!
Patterns: texts that an engine takes as regular expressions.

What a regular expression looks like is for the engine to say. Of an engine nothing is known here
but what it finds wrong with a text, if anything.
-/
namespace PipelineScript

/-- An engine for regular expressions. -/
class PatternEngine where
  /-- What is wrong with a text, in the words of the engine. -/
  fault? (text : String) : Option String

namespace PatternEngine

/-- An engine that takes every text, to try things out with. -/
scoped instance lenient : PatternEngine where
  fault? _ := none

end PatternEngine

/-- A text that the engine takes. -/
structure Pattern [PatternEngine] where
  text : String
  valid : PatternEngine.fault? text = none
deriving DecidableEq, Repr

namespace Pattern

variable [PatternEngine]

/-- The pattern with a given text, or what is wrong with it. -/
def ofText (text : String) : Except String Pattern :=
  match h : PatternEngine.fault? text with
  | none => .ok ⟨text, h⟩
  | some fault => .error fault

theorem ofText_eq_ok_iff {text : String} {p : Pattern} : ofText text = .ok p ↔ p.text = text := by
  constructor
  · intro h
    unfold ofText at h
    split at h <;> cases h
    rfl
  · rintro rfl
    unfold ofText
    split
    · rfl
    · rename_i h
      rw [p.valid] at h
      cases h

end Pattern

end PipelineScript

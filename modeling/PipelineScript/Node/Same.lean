import PipelineScript.Node

/-!
Equality of meaning.

Two trees are the same if they differ at most in places, comments, the text of comment nodes and
layout: parentheses, line breaks, quoting, the base of an integer, the spelling of a duration or
of a regex. Binary64 values compare as numbers do, so a NaN is not the same as itself.
-/
namespace PipelineScript

variable [PatternEngine]

/-- Whether two numbers have the same value and are of one sort. -/
def Number.same : Number → Number → Bool
  | .int a _, .int b _ => a == b
  | .float a, .float b => a.same b
  | _, _ => false

namespace Node

mutual

/-- Whether two trees have the same meaning. -/
def same : Node → Node → Bool
  | .number _ a, .number _ b => a.same b
  | .duration _ a _, .duration _ b _ => a == b
  | .bool _ a, .bool _ b => a == b
  | .string _ a _, .string _ b _ => a == b
  | .regex _ a _, .regex _ b _ => a.text == b.text
  | .reference _ a, .reference _ b => a == b
  | .star _, .star _ => true
  | .list _ as, .list _ bs => sameAll as bs
  | .unary _ op a, .unary _ op' b => op == op' && same a b
  | .binary _ op a c _ _, .binary _ op' b d _ _ => op == op' && same a b && same c d
  | .identifier a, .identifier b => a.name == b.name
  | .chain _ op a c, .chain _ op' b d => op == op' && same a b && same c d
  | .func _ kind name as _, .func _ kind' name' bs _ =>
    kind == kind' && name == name' && sameAll as bs
  | .lambda _ a, .lambda _ b => same a b
  | .declaration _ name a, .declaration _ name' b => name.name == name'.name && same a b
  | .typeDeclaration _ name type, .typeDeclaration _ name' type' =>
    name.name == name'.name && type.name == type'.name
  | .program _ as, .program _ bs => sameAll as bs
  | .comment _, .comment _ => true
  | _, _ => false
termination_by structural n => n

/-- Whether two lists of trees have the same meaning, one by one. -/
def sameAll : List Node → List Node → Bool
  | [], [] => true
  | a :: as, b :: bs => same a b && sameAll as bs
  | _, _ => false
termination_by structural ns => ns

end

end Node

end PipelineScript

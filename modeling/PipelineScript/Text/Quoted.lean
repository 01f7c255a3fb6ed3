import PipelineScript.Text.Class

/-!
Quotations in diagnostics.

A quoted text stands between two equal marks. The backslash, the mark itself, the common line and
tab controls and NUL are written with a backslash; a character without a mark of its own is
written as its hexadecimal code point in braces; all else is written as it is.
-/
namespace PipelineScript.Text

/-- The lower-case hexadecimal digits of a number, without padding. -/
def hexDigits (n : Nat) : List Char := Nat.toDigits 16 n

/-- One character as it stands between two `mark`s. -/
def escapeFor (mark c : Char) : List Char :=
  if c == '\\' || c == mark then ['\\', c]
  else if c == '\n' then ['\\', 'n']
  else if c == '\r' then ['\\', 'r']
  else if c == '\t' then ['\\', 't']
  else if c == '\x00' then ['\\', '0']
  else if isHidden c then "\\u\x7b".toList ++ hexDigits c.toNat ++ "\x7d".toList
  else [c]

/-- A text between two `mark`s. -/
def quoteWith (mark : Char) (cs : List Char) : List Char :=
  mark :: (cs.flatMap (escapeFor mark) ++ [mark])

/-- A text in double quotes. -/
def quote (s : String) : String := String.ofList (quoteWith '"' s.toList)

/-- A single character in single quotes. -/
def quoteChar (c : Char) : String := String.ofList (quoteWith '\'' [c])

end PipelineScript.Text

import PipelineScript.Token.Scanner

/-!
The tokens of a whole script.

A stream holds the tokens that a scanner reads one after the other, and how it stops. Each token
but the last takes at least one byte, so a script of `n` bytes has at most `n + 1` tokens; a
scanner that has more to give is one that stands still, and its stream is `endless`.
-/
namespace PipelineScript

/-- How a stream of tokens stops. -/
inductive StreamEnd where
  /-- After a last token. -/
  | ended
  /-- The scanner is lost. -/
  | lost
  /-- The scanner stands still and goes on giving tokens. -/
  | endless
deriving DecidableEq, Repr, Inhabited

/-- Tokens in order, and how they stop. -/
structure TokenStream where
  tokens : List Token
  ending : StreamEnd
deriving DecidableEq, Repr

namespace Scanner

/-- Reads at most `limit` tokens. -/
def run : Nat → Scanner → TokenStream
  | limit, s =>
    match s.next with
    | .ended => ⟨[], .ended⟩
    | .lost => ⟨[], .lost⟩
    | .token t cursor =>
      match limit with
      | 0 => ⟨[], .endless⟩
      | limit + 1 =>
        let stream := run limit ⟨s.source, cursor⟩
        ⟨t :: stream.tokens, stream.ending⟩

/-- The results of calling `next` a number of times: a token, or nothing once the stream has
ended; `none` if the scanner is lost on the way. -/
def steps : Nat → Scanner → Option (List (Option Token))
  | 0, _ => some []
  | n + 1, s =>
    match s.next with
    | .ended => (steps n s).map (none :: ·)
    | .lost => none
    | .token t cursor => (steps n ⟨s.source, cursor⟩).map (some t :: ·)

end Scanner

/-- The tokens of a script. -/
def TokenStream.ofSource (source : List Char) : TokenStream :=
  Scanner.run (Text.size source + 1) (Scanner.ofSource source)

/-- The tokens of a script given as a string. -/
def tokenize (source : String) : TokenStream := .ofSource source.toList

end PipelineScript

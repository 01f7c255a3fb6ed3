import PipelineScript.Comment
import PipelineScript.Token.Stream

/-!
The tokens of the grammar, with two of them in view.

Comments do not reach the grammar. They are folded into one comment that is kept beside the token
behind them until the grammar takes it. The buffer has two slots; `held` says how many of the
tokens in the slots are still to be given out, the one in `newest` last. A token that was given
out stays in its slot and can be put back.
-/
namespace PipelineScript

/-- A token and the comment before it. -/
structure Slot where
  token : Token
  comment : Option Comment
deriving DecidableEq, Repr

/-- A script that is being read token by token. -/
structure Lookahead where
  /-- The bytes of the script, for places in it. -/
  bytes : List UInt8
  /-- The tokens that have not been read into a slot. -/
  pending : List Token
  /-- How the tokens stop. -/
  ending : StreamEnd
  /-- The slot that was filled last. -/
  newest : Slot
  /-- The slot that was filled before. -/
  older : Slot
  /-- The number of tokens in the slots that are still to be given out. -/
  held : Nat
deriving DecidableEq, Repr

namespace Lookahead

/-- A slot before any token has been read. -/
def emptySlot : Slot := ⟨⟨.eof, 0, ""⟩, none⟩

/-- The beginning of a script. -/
def ofSource (source : List Char) : Lookahead :=
  let stream := TokenStream.ofSource source
  { bytes := Text.bytes source
    pending := stream.tokens
    ending := stream.ending
    newest := emptySlot
    older := emptySlot
    held := 0 }

/-- Whether a token is a comment. -/
def isComment (t : Token) : Bool := t.kind == .comment

/-- The comment that adjacent comment tokens make. -/
def foldComments (bytes : List UInt8) : List Token → Option Comment
  | [] => none
  | t :: ts =>
    some (.ofTexts (.locate bytes t.offset) ((t :: ts).map (·.text)))

/-- Reads the next token of the grammar and the comment before it. Behind the last token there
are ends of text without limit. -/
def fetch (s : Lookahead) : Except StreamEnd (Slot × List Token) :=
  let comment := foldComments s.bytes (s.pending.takeWhile isComment)
  match s.pending.dropWhile isComment with
  | t :: rest => .ok (⟨t, comment⟩, rest)
  | [] =>
    match s.ending with
    | .ended => .ok (⟨⟨.eof, s.bytes.length, ""⟩, comment⟩, [])
    | ending => .error ending

/-- The token in the slot that `held` points to, once one more token has been given out. -/
def given (s : Lookahead) : Token :=
  match s.held with
  | 0 => s.newest.token
  | _ => s.older.token

/-- Gives out a token. -/
def next (s : Lookahead) : Except StreamEnd (Token × Lookahead) :=
  match s.held with
  | held + 1 =>
    let s := { s with held }
    .ok (s.given, s)
  | 0 =>
    match s.fetch with
    | .ok (slot, pending) => .ok (slot.token, { s with pending, newest := slot })
    | .error ending => .error ending

/-- Puts the token that was given out last back. -/
def backup (s : Lookahead) : Lookahead := { s with held := s.held + 1 }

/-- Shows the token that `next` would give out. -/
def peek (s : Lookahead) : Except StreamEnd (Token × Lookahead) :=
  match s.held with
  | 0 =>
    match s.fetch with
    | .ok (slot, pending) =>
      .ok (slot.token, { s with pending, newest := slot, older := s.newest, held := 1 })
    | .error ending => .error ending
  | 1 => .ok (s.newest.token, s)
  | _ => .ok (s.older.token, s)

/-- Takes the comment before the token that was given out last, if it is still in its slot. -/
def takeComment (s : Lookahead) : Option Comment × Lookahead :=
  match s.held with
  | 0 => (s.newest.comment, { s with newest := { s.newest with comment := none } })
  | 1 => (s.older.comment, { s with older := { s.older with comment := none } })
  | _ => (none, s)

/-- Takes the comments that are left in the slots, the older one first. -/
def takeRest (s : Lookahead) : List Comment × Lookahead :=
  (s.older.comment.toList ++ s.newest.comment.toList,
    { s with
      older := { s.older with comment := none }
      newest := { s.newest with comment := none } })

/-- A bound on the depth of the grammar that is enough for the tokens still to come. -/
def fuel (s : Lookahead) : Nat := 4 * s.pending.length + 16

end Lookahead

end PipelineScript

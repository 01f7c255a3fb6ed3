import PipelineScript.Proofs.Tiling

/-!
The scanner on bytes.

`Scanner` reads one token after the other from the text that is left. Here the same scanner moves
over the bytes of the script character by character: it remembers where the token begins, where it
stands and how wide the last character was, and it goes back by that width. Any of this may go
wrong. A place may lie outside the script or inside a character, the scanner may go back too far,
and a loop may not end; then it comes to a fault. Every place that it has been to is noted.
-/
namespace PipelineScript

/-- Where a scanner is: the beginning of the token, its own place, and the width of the character
that it read last. -/
structure Head where
  start : Nat
  pos : Nat
  width : Nat
deriving DecidableEq, Repr

/-- What the scanner reads next. -/
inductive ScanState where
  | token
  | unaryOperator
  | binaryOperator
  | word
  | number
  | reference
  | string
  | regex
  | comment
deriving DecidableEq, Repr

/-- How a scanner can go wrong. -/
inductive ScanFault where
  /-- A place is outside the script or inside a character. -/
  | outside
  /-- The scanner goes back farther than the beginning of the script. -/
  | underflow
  /-- A loop has not ended. -/
  | exhausted
deriving DecidableEq, Repr

/-- A scanner that moves over bytes. -/
structure ByteScanner where
  head : Head
  /-- What is read next, if anything. -/
  state : Option ScanState
  /-- A token that is read and not given out yet. -/
  emitted : Option Token
  /-- The places where it has been. -/
  past : List Head
deriving DecidableEq, Repr

/-- Moves of a scanner. -/
abbrev Moves := EStateM ScanFault ByteScanner

namespace ByteScanner

/-- A scanner at the beginning of a script. -/
def initial : ByteScanner := ⟨⟨0, 0, 0⟩, some .token, none, [⟨0, 0, 0⟩]⟩

/-- Goes to a place. -/
def move (head : Head) : Moves Unit :=
  modify fun s => { s with head, past := s.past ++ [head] }

/-- Begins the token where the scanner stands. -/
def ignore : Moves Unit := do
  let head := (← get).head
  move { head with start := head.pos }

/-- Goes back by one character. -/
def backup : Moves Unit := do
  let head := (← get).head
  if head.pos < head.width then throw .underflow
  else move { head with pos := head.pos - head.width }

/-- Ends the stream with a diagnostic. -/
def error (message : String) : Moves (Option ScanState) := do
  let head := (← get).head
  modify fun s => { s with emitted := some ⟨.error, head.start, message⟩ }
  return none

variable (source : List Char)

/-- The steps that are enough for every loop. -/
def fuel : Nat := source.length + 1

/-- The next character, which is taken. -/
def nextChar : Moves (Option Char) := do
  let head := (← get).head
  match Text.suffixAt source head.pos with
  | some (c :: _) =>
    move { head with pos := head.pos + c.utf8Size, width := c.utf8Size }
    return some c
  | some [] =>
    move { head with width := 0 }
    return none
  | none => throw .outside

/-- The next character, which is not taken. -/
def peek : Moves (Option Char) := do
  let c ← nextChar source
  backup
  return c

/-- The text of the token so far. -/
def current : Moves (List Char) := do
  let head := (← get).head
  match Text.slice? source head.start head.pos with
  | some text => return text
  | none => throw .outside

/-- Takes a character if it is one of some. -/
def accept (p : Char → Bool) : Moves Unit := do
  if (← peek source).any p then
    let _ ← nextChar source

/-- Takes characters up to and with the first one that is not of a class, and gives that one. -/
def skip (p : Char → Bool) : Nat → Moves (Option Char)
  | 0 => throw .exhausted
  | fuel + 1 => do
    let c ← nextChar source
    if c.any p then skip p fuel else return c

def ignoreSpaces : Nat → Moves Unit
  | 0 => throw .exhausted
  | fuel + 1 => do
    if (← nextChar source).any Text.isSpace then
      ignore
      ignoreSpaces fuel

/-- Passes over white space. -/
def ignoreSpace : Moves Unit := do
  ignoreSpaces source (fuel source)
  backup

/-- Cuts off a token. -/
def emit (kind : TokenKind) : Moves Unit := do
  let text ← current source
  let head := (← get).head
  modify fun s => { s with emitted := some ⟨kind, head.start, String.ofList text⟩ }
  ignore

def emitThen (kind : TokenKind) (next : ScanState) : Moves (Option ScanState) := do
  emit source kind
  return some next

/-! ### States -/

/-- A token of one character that can only be that, and what comes behind it. -/
def single? (c : Char) : Option (TokenKind × ScanState) :=
  if c = '(' then some (.lparen, .token)
  else if c = ')' then some (.rparen, .binaryOperator)
  else if c = '[' then some (.lbracket, .token)
  else if c = ']' then some (.rbracket, .token)
  else if c = '|' then some (.chain .pipe, .token)
  else if c = '@' then some (.chain .dynamic, .token)
  else if c = ',' then some (.comma, .token)
  else if c = '*' then some (.star, .token)
  else none

def lexToken : Nat → Moves (Option ScanState)
  | 0 => throw .exhausted
  | fuel + 1 => do
    match ← nextChar source with
    | none =>
      emit source .eof
      return none
    | some c =>
      if c = '-' ∨ c = '!' then
        backup
        return some .unaryOperator
      else if Text.isDigit c ∨ c = '.' then
        backup
        return some .number
      else if Text.isAlphabetic c then return some .word
      else if c = '"' then return some .reference
      else if c = '\'' then
        backup
        return some .string
      else if Text.isSpace c then
        ignore
        lexToken fuel
      else
        match single? c with
        | some (kind, next) => emitThen source kind next
        | none =>
          if c = '/' then
            let behind ← peek source
            backup
            return some (if behind = some '/' then .comment else .regex)
          else error ("unknown state, last char: " ++ Text.quoteChar c)

/-- The words for a character that may be missing. -/
def describe : Option Char → String
  | some c => "Some(" ++ Text.quoteChar c ++ ")"
  | none => "None"

def lexUnaryOperator : Moves (Option ScanState) := do
  let c ← nextChar source
  if c = some '-' then emitThen source (.binary .subtract) .token
  else if c = some '!' then emitThen source .not .token
  else error ("unexpected unary operator char " ++ describe c)

def emitOperator : Moves (Option ScanState) := do
  let text := String.ofList (← current source)
  match TokenKind.operator? text with
  | some kind => emitThen source kind .token
  | none => error ("unknown operator " ++ Text.quote text)

def regexOrToken : Moves (Option ScanState) := do
  ignoreSpace source
  return some (if (← peek source) = some '/' then .regex else .token)

/-- Probes for an operator behind a primary. -/
def lexBinaryOperator : Moves (Option ScanState) := do
  ignoreSpace source
  let c ← nextChar source
  if c = some '+' ∨ c = some '-' ∨ c = some '*' ∨ c = some '%' then emitOperator source
  else if c = some '/' then
    if (← peek source) = some '/' then
      backup
      return some .comment
    else emitOperator source
  else if c = some '!' then
    accept source fun d => d == '=' || d == '~'
    let text ← current source
    let _ ← emitOperator source
    if text = ['!', '~'] then regexOrToken source else return some .token
  else if c = some '>' ∨ c = some '<' then
    accept source (· == '=')
    emitOperator source
  else if c = some '=' then
    let behind ← peek source
    if behind = some '~' then
      let _ ← nextChar source
      emit source (.binary .regexEqual)
      regexOrToken source
    else if behind = some '=' then
      let _ ← nextChar source
      emitThen source (.binary .equal) .token
    else
      emit source .assign
      regexOrToken source
  else
    backup
    return some .token

def lexWord : Moves (Option ScanState) := do
  let _ ← skip source Text.isNamePart (fuel source)
  backup
  match TokenKind.keyword? (String.ofList (← current source)) with
  | some .lambda =>
    if (← nextChar source) = some ':' then emit source .lambda
    else
      backup
      emit source .ident
  | some kind => emit source kind
  | none => emit source .ident
  return some .binaryOperator

def lexNumber (first decimal : Bool) : Nat → Moves (Option ScanState)
  | 0 => throw .exhausted
  | fuel + 1 => do
    match ← nextChar source with
    | some c =>
      if c = '.' then
        let chains ← if first then pure (!(← peek source).any Text.isDigit) else pure false
        if chains then emitThen source (.chain .dot) .token
        else if decimal then error "multiple decimals in number"
        else lexNumber false true fuel
      else if Text.isDigit c then lexNumber false decimal fuel
      else if !decimal && Scan.isUnit c then
        if c = 'm' then accept source (· == 's')
        emitThen source .duration .binaryOperator
      else
        backup
        emitThen source .number .binaryOperator
    | none =>
      backup
      emitThen source .number .binaryOperator

/-- Reads up to a mark that no backslash precedes. -/
def lexClosing (mark : Char) (kind : TokenKind) (next : ScanState) (message : String) :
    Nat → Moves (Option ScanState)
  | 0 => throw .exhausted
  | fuel + 1 => do
    match ← nextChar source with
    | some c =>
      if c = '\\' then
        accept source (· == mark)
        lexClosing mark kind next message fuel
      else if c = mark then emitThen source kind next
      else lexClosing mark kind next message fuel
    | none => error message

def lexReference : Moves (Option ScanState) :=
  lexClosing source '"' .reference .binaryOperator "unterminated field reference" (fuel source)

/-- Reads up to the last of the quotes that close a string; `count` are still missing. -/
def lexQuoted (total : Nat) : Nat → Nat → Moves (Option ScanState)
  | _, 0 => throw .exhausted
  | count, fuel + 1 => do
    match ← nextChar source with
    | some c =>
      if c = '\\' ∧ count = 1 then
        accept source (· == '\'')
        lexQuoted total count fuel
      else if c = '\'' then
        if count = 1 then emitThen source .string .binaryOperator
        else lexQuoted total (count - 1) fuel
      else lexQuoted total total fuel
    | none => error "unterminated string"

def lexString : Moves (Option ScanState) := do
  if (← nextChar source) ≠ some '\'' then error "unterminated string"
  else if (← peek source) = some '\'' then
    let _ ← nextChar source
    if (← peek source) ≠ some '\'' then emitThen source .string .binaryOperator
    else
      let _ ← nextChar source
      lexQuoted source 3 3 (fuel source)
  else lexQuoted source 1 1 (fuel source)

def lexRegex : Moves (Option ScanState) := do
  match ← nextChar source with
  | some c =>
    if c = '/' then lexClosing source '/' .regex .token "unterminated regex" (fuel source)
    else error ("unexpected " ++ Text.quoteChar c ++ " expected \"/\"")
  | none => error "unterminated regex"

/-- The blanks that may open a line of a comment. -/
def isMargin (c : Char) : Bool := c != '\n' && Text.isSpace c

def lexCommentLines : Nat → Moves (Option ScanState)
  | 0 => throw .exhausted
  | fuel + 1 => do
    match ← nextChar source with
    | some c =>
      if c = '\n' then
        let opens ← skip source isMargin (ByteScanner.fuel source)
        if opens = some '/' then lexCommentLines fuel
        else
          backup
          emitThen source .comment .token
      else lexCommentLines fuel
    | none => emitThen source .comment .token

def lexComment : Moves (Option ScanState) := do
  if (← nextChar source) ≠ some '/' then error "invalid character '/'"
  else if (← nextChar source) ≠ some '/' then error "invalid character '/'"
  else lexCommentLines source (fuel source)

def step : ScanState → Moves (Option ScanState)
  | .token => lexToken source (fuel source)
  | .unaryOperator => lexUnaryOperator source
  | .binaryOperator => lexBinaryOperator source
  | .word => lexWord source
  | .number => lexNumber source true false (fuel source)
  | .reference => lexReference source
  | .string => lexString source
  | .regex => lexRegex source
  | .comment => lexComment source

/-- Steps from state to state until a token is cut off or none comes any more. -/
def drive : Nat → Moves (Option Token)
  | 0 => throw .exhausted
  | fuel + 1 => do
    let s ← get
    match s.emitted with
    | some t =>
      set { s with emitted := none }
      return some t
    | none =>
      match s.state with
      | some state =>
        set { s with state := none }
        let next ← step source state
        modify fun s => { s with state := next }
        drive fuel
      | none => return none

/-- The next token, or nothing once the stream has ended. Of three states in a row the last one
gives a token at the latest. -/
def nextToken : Moves (Option Token) := drive source 4

/-- The results of calling `nextToken` a number of times. -/
def tokens : Nat → Moves (List (Option Token))
  | 0 => return []
  | n + 1 => do
    let t ← nextToken source
    return t :: (← tokens n)

end ByteScanner

end PipelineScript

import LoxBytecode.Cursor.Stream

/-!
# Scans by single characters

A cursor takes whole stretches off its text.  It can neither read outside of the text nor go on for
ever, since each stretch is there before it is taken.  A scan reads the same tokens by single
characters, and leaves both open.  It looks up the character at an offset, and where the text has
none, it stops there and then.  What keeps it inside the text is that it asks first whether it is
at the end, or that it takes a character only if this is not the null character, which is what a
look ahead gives at the end.  A text may have null characters too, though.

Nothing about the loops says that they end, either.  A scan is given a number of steps, which bounds
how often each loop may go round, and if it gets no further than this it has no result at all.  A
scan that goes on for ever has no result for any number of steps.
-/

namespace LoxBytecode

/-- A character was looked up at an offset where the text has none. -/
structure Overrun where
  offset : Nat
  deriving DecidableEq, Repr

/-- Something done with a cursor that may overrun the text, or may not end within its steps. -/
abbrev Scan (β : Type) : Type := StateT Cursor (ExceptT Overrun Option) β

namespace Scan

/-- There are no steps left. -/
def exhausted {β : Type} : Scan β := fun _ => ExceptT.mk none

/-- Does `body` again and again, up to the first time that it says no. -/
def loop (body : Scan Bool) : Nat → Scan Unit
  | 0 => exhausted
  | steps + 1 => do
    if ← body then loop body steps

/-! ## Single characters -/

def charAt (offset : Nat) : Scan Char := do
  match (← get).source[offset]? with
  | some ch => return ch
  | none => throw ⟨offset⟩

def isAtEnd : Scan Bool := do
  let c ← get
  return c.source.length ≤ c.current

/-- Takes the next character, which has to be there. -/
def advance : Scan Char := do
  let ch ← charAt (← get).current
  modify Cursor.step
  return ch

def peek : Scan Char := do
  if ← isAtEnd then return '\x00'
  else charAt (← get).current

def peekNext : Scan Char := do
  let c ← get
  if c.source.length ≤ c.current + 1 then return '\x00'
  else charAt (c.current + 1)

/-- Takes the next character if it is the expected one. -/
def accept (expected : Char) : Scan Bool := do
  if ← isAtEnd then return false
  else if (← charAt (← get).current) = expected then
    modify Cursor.step
    return true
  else return false

/-! ## Stretches of text -/

def countLine : Scan Unit := modify fun c => { c with line := c.line + 1 }

def countNewline : Scan Unit := do
  if (← peek) = '\n' then countLine

/-- Takes the next character if `p` holds of it, and says whether it did. -/
def takeIf (p : Char → Bool) : Scan Bool := do
  if p (← peek) then
    let _ ← advance
    return true
  else return false

def takeWhile (p : Char → Bool) : Nat → Scan Unit := loop (takeIf p)

/-- Takes the next character unless it is the mark or there is none, and says whether it did.  The
character is visited before it is taken. -/
def takeUnless (mark : Char) (visit : Scan Unit) : Scan Bool := do
  if (← peek) = mark then return false
  else if ← isAtEnd then return false
  else
    visit
    let _ ← advance
    return true

def takeUntil (mark : Char) (visit : Scan Unit) : Nat → Scan Unit := loop (takeUnless mark visit)

/-- Takes a blank, or a comment, which `first` begins if there is one, and says whether it did. -/
def takeLayoutFrom (steps : Nat) (first : Char) : Scan Bool := do
  if first ∈ [' ', '\t', '\r'] then
    let _ ← advance
    return true
  else if first = '\n' then
    countLine
    let _ ← advance
    return true
  else if first = '/' then
    if (← peekNext) = '/' then
      takeUntil '\n' (pure ()) steps
      return true
    else return false
  else return false

/-- Takes a blank or a comment, and says whether there was one. -/
def takeLayout (steps : Nat) : Scan Bool := do
  if ← isAtEnd then return false
  else takeLayoutFrom steps (← peek)

def skipLayout (steps : Nat) : Scan Unit := loop (takeLayout steps) steps

/-- Takes a point and the digits behind it, if there are any. -/
def takeFraction (steps : Nat) : Scan Unit := do
  if (← peek) = '.' then
    if isDigit (← peekNext) then
      let _ ← advance
      takeWhile isDigit steps

/-! ## Tokens -/

def token (kind : Token.Kind) : Scan Token := return (← get).token kind

def errorToken (message : String) : Scan Token := return (← get).errorToken message

def string (steps : Nat) : Scan Token := do
  takeUntil '"' countNewline steps
  if ← isAtEnd then errorToken "Unterminated string."
  else
    let _ ← advance
    token .string

def number (steps : Nat) : Scan Token := do
  takeWhile isDigit steps
  takeFraction steps
  token .number

def identifier (steps : Nat) : Scan Token := do
  takeWhile (fun ch => isAlpha ch || isDigit ch) steps
  token (Token.Kind.ofWord (← get).lexeme)

/-- Reads the remainder of a token whose first character has just been taken. -/
def continueFrom (steps : Nat) (first : Char) : Scan Token := do
  if isAlpha first then identifier steps
  else if isDigit first then number steps
  else
    match Token.Kind.ofMark? first, Token.Kind.ofExtensibleMark? first with
    | some kind, _ => token kind
    | none, some (alone, extended) => if ← accept '=' then token extended else token alone
    | none, none =>
      if first = '"' then string steps else errorToken "Unexpected character."

def nextToken (steps : Nat) : Scan Token := do
  skipLayout steps
  modify Cursor.mark
  if ← isAtEnd then token .eof
  else continueFrom steps (← advance)

/-- Reads every remaining token, the end of the text being the last. -/
def readAll : Nat → Scan (List Token)
  | 0 => exhausted
  | steps + 1 => do
    let t ← nextToken steps
    if t.kind = .eof then return [t]
    else return t :: (← readAll steps)

end Scan

end LoxBytecode

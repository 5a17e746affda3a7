import LoxBytecode.Token.Basic

/-!
# Cursors

A cursor is a place in a source text together with the place where the token
being read began and the number of the current line.  This file holds the moves
by single characters and by stretches of text; reading whole tokens is in
`Cursor.Lexeme`.

Offsets may lie past the end of the text: there `rest` is empty, and nothing
moves any more.
-/

namespace LoxBytecode

/-- A place in a source text. -/
structure Cursor where
  source : List Char
  /-- Where the token being read began. -/
  start : Nat := 0
  /-- The offset of the next character. -/
  current : Nat := 0
  line : Nat := 1
  deriving DecidableEq, Repr

namespace Cursor

def ofText (source : List Char) : Cursor := { source }

/-- The text that is still to be read. -/
def rest (c : Cursor) : List Char := c.source.drop c.current

/-- The text read since the token began. -/
def lexeme (c : Cursor) : List Char := (c.source.drop c.start).take (c.current - c.start)

def isAtEnd (c : Cursor) : Bool := c.rest.isEmpty

/-- The next character, or a null character at the end. -/
def peek (c : Cursor) : Char := c.rest.headD '\x00'

/-- The character after the next one, or a null character where there is none. -/
def peekNext (c : Cursor) : Char := (c.rest.drop 1).headD '\x00'

/-- The cursor one character further.  Lines are not counted. -/
def step (c : Cursor) : Cursor := { c with current := c.current + 1 }

def next? (c : Cursor) : Option (Char × Cursor) := c.rest.head?.map (·, c.step)

/-- Takes the next character if `expected` consists of just that character. -/
def accept (c : Cursor) (expected : List Char) : Bool × Cursor :=
  match c.rest with
  | [] => (false, c)
  | ch :: _ => if expected = [ch] then (true, c.step) else (false, c)

/-- The cursor behind a stretch of text, its newlines counted as lines. -/
def consume (c : Cursor) (taken : List Char) : Cursor :=
  { c with current := c.current + taken.length, line := c.line + taken.count '\n' }

/-- The cursor at which a token begins here. -/
def mark (c : Cursor) : Cursor := { c with start := c.current }

/-- The cursor moved to an offset, ready to begin a token there.  The line number
stays. -/
def seek (c : Cursor) (offset : Nat) : Cursor := { c with start := offset, current := offset }

/-- The text read since the token began, as a token of the given kind. -/
def token (c : Cursor) (kind : Token.Kind) : Token :=
  { kind, lexeme := c.lexeme, start := c.start, stop := c.current, line := c.line }

/-- A token for faulty text that ends here. -/
def errorToken (c : Cursor) (message : String) : Token :=
  { kind := .error, lexeme := [], start := c.current, stop := c.current, line := c.line,
    message := some message }

end Cursor

end LoxBytecode

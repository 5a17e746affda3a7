import LoxBytecode.Cursor.Basic

/-!
# Reading tokens

Blanks, line ends and comments are skipped; then the longest token that begins
there is read.  Each of `string`, `number` and `identifier` reads on from wherever
the cursor stands, so that what it returns spans everything since the token began.

A comment runs from two slashes up to the end of its line.  A string literal may
span lines and is then counted to its last line.  A number has a fraction only if a
digit follows the point.
-/

namespace LoxBytecode

/-- Letters, and the underscore: what a word may begin with.  ASCII only. -/
def isAlpha (c : Char) : Bool := ('a' ≤ c && c ≤ 'z') || ('A' ≤ c && c ≤ 'Z') || c == '_'

/-- The ten ASCII digits. -/
def isDigit (c : Char) : Bool := '0' ≤ c && c ≤ '9'

def isWordChar (c : Char) : Bool := isAlpha c || isDigit c

/-- The characters that may stand between tokens outside of comments. -/
def isBlank (c : Char) : Bool := c == ' ' || c == '\t' || c == '\r' || c == '\n'

/-- The blanks and comments that a text begins with; `inComment` says whether it
begins inside a comment. -/
def leadingLayout (inComment : Bool) : List Char → List Char
  | [] => []
  | c :: rest =>
    if inComment then c :: leadingLayout (c != '\n') rest
    else if isBlank c then c :: leadingLayout false rest
    else if c == '/' && rest.head? == some '/' then c :: leadingLayout true rest
    else []

/-- The numeral, or the remainder of one, that a text begins with: digits, and a
point with further digits where a digit follows it. -/
def leadingNumeral (text : List Char) : List Char :=
  let whole := text.takeWhile isDigit
  match text.dropWhile isDigit with
  | '.' :: digit :: more =>
    if isDigit digit then whole ++ '.' :: (digit :: more).takeWhile isDigit else whole
  | _ => whole

namespace Cursor

def skipLayout (c : Cursor) : Cursor := c.consume (leadingLayout false c.rest)

/-- Reads on to the closing quote of a string literal. -/
def string (c : Cursor) : Token × Cursor :=
  let c := c.consume (c.rest.takeWhile (· != '"'))
  if c.isAtEnd then (c.errorToken "Unterminated string.", c) else (c.step.token .string, c.step)

def number (c : Cursor) : Token × Cursor :=
  let c := c.consume (leadingNumeral c.rest)
  (c.token .number, c)

def identifier (c : Cursor) : Token × Cursor :=
  let c := c.consume (c.rest.takeWhile isWordChar)
  (c.token (Token.Kind.ofWord c.lexeme), c)

/-- Reads the remainder of a token whose first character has just been read. -/
def continueFrom (c : Cursor) (first : Char) : Token × Cursor :=
  if isAlpha first then c.identifier
  else if isDigit first then c.number
  else if first == '"' then c.string
  else
    match Token.Kind.ofMark? first, Token.Kind.ofExtensibleMark? first with
    | some kind, _ => (c.token kind, c)
    | none, some (alone, extended) =>
      match c.accept ['='] with
      | (true, c) => (c.token extended, c)
      | (false, c) => (c.token alone, c)
    | none, none => (c.errorToken "Unexpected character.", c)

def nextToken (c : Cursor) : Token × Cursor :=
  let c := c.skipLayout.mark
  match c.rest with
  | [] => (c.token .eof, c)
  | first :: _ => c.step.continueFrom first

end Cursor

end LoxBytecode

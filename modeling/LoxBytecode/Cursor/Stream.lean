import LoxBytecode.Cursor.Progress

/-!
# Streams of tokens

The tokens from a cursor on, taken all at once, a few at a time, or up to the
first one that is not an error.
-/

namespace LoxBytecode

namespace Cursor

/-- Reads every remaining token, the end of the text being the last. -/
def readAll (c : Cursor) : List Token × Cursor :=
  if _h : c.nextToken.1.kind = .eof then ([c.nextToken.1], c.nextToken.2)
  else
    let later := readAll c.nextToken.2
    (c.nextToken.1 :: later.1, later.2)
termination_by c.rest.length
decreasing_by exact c.length_rest_nextToken_lt _h

/-- Reads at most `n` tokens and none after the end of the text. -/
def readSome : Nat → Cursor → List Token × Cursor
  | 0, c => ([], c)
  | n + 1, c =>
    let (t, d) := c.nextToken
    if t.kind = .eof then ([t], d)
    else
      let later := readSome n d
      (t :: later.1, later.2)

/-- Reads up to the first token that is not an error: the errors on the way, that
token, and the cursor behind it. -/
def nextSound (c : Cursor) : List Token × Token × Cursor :=
  if _h : c.nextToken.1.kind = .error then
    let later := nextSound c.nextToken.2
    (c.nextToken.1 :: later.1, later.2)
  else ([], c.nextToken)
termination_by c.rest.length
decreasing_by exact c.length_rest_nextToken_lt (by rw [_h]; decide)

end Cursor

/-- The tokens of a source text, with the end of the text as the last one.  A source text is a list
of Unicode scalar values, here and everywhere: a text that holds a surrogate on its own is none. -/
def tokens (source : List Char) : List Token := (Cursor.ofText source).readAll.1

end LoxBytecode

/-!
# Line endings

Text that comes from a file or from standard input may end its lines with a
newline, a carriage return, or both in that order.  `unifyLineEndings` writes
each of the three as one newline; `lines` then takes the text apart.
-/

namespace LoxBytecode.Text

/-- Every line ending as a single newline. -/
def unifyLineEndings : List Char → List Char
  | [] => []
  | '\r' :: '\n' :: rest => '\n' :: unifyLineEndings rest
  | '\r' :: rest => '\n' :: unifyLineEndings rest
  | c :: rest => c :: unifyLineEndings rest

/-- The lines of a text without their newlines.  The last line may lack its
newline; after a final newline no further line begins. -/
def lines : List Char → List (List Char)
  | [] => []
  | '\n' :: rest => [] :: lines rest
  | c :: rest =>
    match lines rest with
    | [] => [[c]]
    | line :: later => (c :: line) :: later

end LoxBytecode.Text

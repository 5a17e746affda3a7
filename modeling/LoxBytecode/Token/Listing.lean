import LoxBytecode.Cursor.Stream
import LoxBytecode.Text.Padded

/-!
# Token listings

A listing shows one token after the other, each with its kind and its text.  The
line number stands before a token only where it differs from that of the token
before it.
-/

namespace LoxBytecode

/-- One entry of a listing, given the line of the entry before it. -/
def Token.listingEntry (t : Token) (previousLine : Nat) : String :=
  let margin :=
    if t.line = previousLine then "   | " else Text.alignRight 4 '0' (toString t.line) ++ " "
  margin ++ t.kind.name ++ " '" ++ String.ofList t.shownText ++ "'"

/-- The entries of a listing, given the line of the entry before the first. -/
def listingEntries (previousLine : Nat) : List Token → List String
  | [] => []
  | t :: later => t.listingEntry previousLine :: listingEntries t.line later

def describeTokens (source : List Char) : String :=
  "\n".intercalate (listingEntries 0 (tokens source))

end LoxBytecode

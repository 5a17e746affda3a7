import LoxBytecode.Text.Quoted
import LoxBytecode.Token.Kind

/-!
# Tokens

A token is a piece of the source text with its kind and its place.  A token of
kind `error` stands for text that no token class covers: it has an empty lexeme
and carries a message.
-/

namespace LoxBytecode

/-- A piece of source text, from `start` up to but not including `stop`, with
the number of the line that it ends on. -/
structure Token where
  kind : Token.Kind
  lexeme : List Char
  start : Nat
  stop : Nat
  line : Nat
  message : Option String := none
  deriving DecidableEq, Repr

namespace Token

/-- What a token shows: the message of an error, the lexeme of any other. -/
def shownText (t : Token) : List Char :=
  match t.kind, t.message with
  | .error, some message => message.toList
  | _, _ => t.lexeme

/-- A token for inspection, with its text in quotes. -/
def summary (t : Token) : String :=
  let text := String.ofList (Text.quoted t.shownText)
  s!"Token({t.kind.name}, {text}, line={t.line})"

end Token

end LoxBytecode

import LoxBytecode.Cursor.Stream
import LoxBytecode.Diagnostic

/-!
# The token window

While a source text is compiled, two neighbouring tokens are in view: the one just
passed and the one ahead.  Tokens for faulty text never come into view; they are
reported when the window moves over them.

The first report sends the window into panic.  Until it recovers, further reports
are noted but not kept, so that one fault does not lead to a flood of messages.
-/

namespace LoxBytecode

/-- Two neighbouring tokens of a source text, and what has been reported so far. -/
structure Window where
  cursor : Cursor
  /-- The token just passed; at the beginning there is none. -/
  previous : Option Token := none
  current : Token
  hasFailed : Bool := false
  panicking : Bool := false
  diagnostics : List Diagnostic := []
  deriving DecidableEq, Repr

/-- A token as the place of a fault. -/
def Token.location (t : Token) : String :=
  match t.kind with
  | .eof => " at end"
  | .error => ""
  | _ => " at '" ++ String.ofList t.lexeme ++ "'"

namespace Window

/-- Reports a fault at a token.  In panic the message is dropped. -/
def reportAt (w : Window) (t : Token) (message : String) : Window :=
  if w.panicking then { w with hasFailed := true }
  else
    { w with
      hasFailed := true
      panicking := true
      diagnostics := w.diagnostics ++ [⟨message, some t.line, t.location⟩] }

def reportCurrent (w : Window) (message : String) : Window := w.reportAt w.current message

/-- Reports a fault at the token just passed.  Where there is none, both flags go up all the same,
but there is no place that a diagnostic could name, and none is kept. -/
def reportPrevious (w : Window) (message : String) : Window :=
  match w.previous with
  | some t => w.reportAt t message
  | none => { w with hasFailed := true, panicking := true }

/-- Reports each of the given tokens for faulty text. -/
def reportErrors (w : Window) (errors : List Token) : Window :=
  errors.foldl (fun w t => w.reportAt t (t.message.getD "")) w

/-- The window that comes up at the beginning of a source text, with its flags as they are
already. -/
def comeUp (source : List Char) (hasFailed panicking : Bool) : Window :=
  let (errors, current, cursor) := (Cursor.ofText source).nextSound
  ({ cursor, current, hasFailed, panicking } : Window).reportErrors errors

def ofSource (source : List Char) : Window := comeUp source false false

/-- Moves the window one token further.  At the end of the text the end comes again. -/
def advance (w : Window) : Window :=
  let (errors, current, cursor) := w.cursor.nextSound
  { w with cursor, previous := some w.current, current }.reportErrors errors

def check (w : Window) (kind : Token.Kind) : Bool := w.current.kind == kind

/-- Moves over a token of the given kind; any other token is reported. -/
def expect (w : Window) (kind : Token.Kind) (message : String) : Window :=
  if w.check kind then w.advance else w.reportCurrent message

def recover (w : Window) : Window := { w with panicking := false }

/-- An upper bound for the number of tokens that are still ahead, the end of the
text not counted. -/
def left (w : Window) : Nat :=
  w.cursor.rest.length + if w.current.kind = .eof then 0 else 1

end Window

end LoxBytecode

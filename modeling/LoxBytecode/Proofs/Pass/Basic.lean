import LoxBytecode.Compilation.Expression

/-!
# Passes over a source text

The expression compiler cannot get stuck: its types leave no place for a token without a rule, a
byte out of range, or a recursion that does not end.  A pass compiles the same expressions by
tables, and leaves all of this open.  What a token does is looked up in a table of rules, and the
operation of an operator in another one; the next level is the one with the next rank, if there is
any; a token is taken from the window only if there is one; what is emitted are numbers, which may
or may not be bytes.  Each of these may be lacking, and then the pass stops there and then.

Nothing about the recursion says that it ends, either.  A pass is given a number of steps, which
bounds how deep its calls may go, and if it gets no further than this it has no result at all.  A
pass that goes on for ever has no result for any number of steps.

A pass also counts the tokens that it asks the source text for.
-/

namespace LoxBytecode

/-! ## Tables -/

/-- What a token may have a pass do. -/
inductive Action where
  | number
  | grouping
  | unary
  | binary
  deriving DecidableEq, Repr

/-- What a token does where an operand is expected, what it does behind an operand, and how
tightly it binds that operand. -/
structure ParseRule where
  leading : Option Action := none
  trailing : Option Action := none
  precedence : Precedence := .none
  deriving DecidableEq, Repr

namespace ParseRule

def table : List (Token.Kind × ParseRule) :=
  [(.leftParen, { leading := some .grouping }),
    (.minus, { leading := some .unary, trailing := some .binary, precedence := .term }),
    (.plus, { trailing := some .binary, precedence := .term }),
    (.slash, { trailing := some .binary, precedence := .factor }),
    (.star, { trailing := some .binary, precedence := .factor }),
    (.number, { leading := some .number })]

/-- The rule of a kind of token.  Kinds that are not in the table do nothing. -/
def ofKind (kind : Token.Kind) : ParseRule := (table.lookup kind).getD {}

end ParseRule

/-- The operations of the operators. -/
def operations : List (Token.Kind × Opcode) :=
  [(.plus, .operator .add), (.minus, .operator .subtract), (.star, .operator .multiply),
    (.slash, .operator .divide)]

/-! ## Attempts -/

/-- What a pass may lack. -/
inductive Lack where
  /-- A token has no rule for the place where it stands. -/
  | action
  /-- An operator has no operation. -/
  | operation
  /-- No level has the next rank. -/
  | level
  /-- No token comes before the current one. -/
  | token
  /-- A number to be emitted is no byte. -/
  | byte
  deriving DecidableEq, Repr

/-- The result of something that may lack something, or may not end within its steps. -/
abbrev Attempt (β : Type) : Type := ExceptT Lack Option β

namespace Attempt

variable {β : Type}

/-- There are no steps left. -/
def exhausted : Attempt β := ExceptT.mk none

/-- What has been looked up, or else what was looked for is lacking. -/
def find (lack : Lack) : Option β → Attempt β
  | some found => pure found
  | none => throw lack

theorem find_some (lack : Lack) (found : β) : find lack (some found) = pure found := rfl

end Attempt

/-! ## Single moves -/

/-- The window with another token ahead, and the cursor behind that token. -/
def Window.moved (w : Window) (next : Token × Cursor) : Window :=
  { w with cursor := next.2, current := next.1 }

/-- A compilation, and the number of tokens that the source text has been asked for. -/
structure Pass (α : Type) where
  compilation : Compilation α
  asked : Nat

namespace Pass

variable {α : Type}

def window (p : Pass α) : Window := p.compilation.window

def current (p : Pass α) : Token := p.window.current

def previous (p : Pass α) : Attempt Token := .find .token p.window.previous

def reportAt (p : Pass α) (t : Token) (message : String) : Pass α :=
  { p with compilation := p.compilation.reportAt t message }

def reportPrevious (p : Pass α) (message : String) : Attempt (Pass α) := do
  return p.reportAt (← p.previous) message

/-- Asks the source text for the next token, whatever it is. -/
def ask (p : Pass α) : Pass α where
  compilation := { p.compilation with window := p.window.moved p.window.cursor.nextToken }
  asked := p.asked + 1

/-- Reports tokens for faulty text, and asks for more, until there is another token. -/
def settle : Nat → Pass α → Attempt (Pass α)
  | 0, _ => .exhausted
  | steps + 1, p =>
    if p.current.kind = .error then
      settle steps (p.reportAt p.current (p.current.message.getD "")).ask
    else pure p

/-- The pass with the current token as the previous one. -/
def shift (p : Pass α) : Pass α :=
  { p with compilation :=
      { p.compilation with window := { p.window with previous := some p.current } } }

def advance (steps : Nat) (p : Pass α) : Attempt (Pass α) := settle steps p.shift.ask

/-- The pass that stands in front of the first token of a source text. -/
def ofSource (steps : Nat) (source : List Char) : Attempt (Pass α) :=
  let (t, cursor) := (Cursor.ofText source).nextToken
  settle steps { compilation := { window := { cursor, current := t } }, asked := 1 }

def expect (steps : Nat) (p : Pass α) (kind : Token.Kind) (message : String) : Attempt (Pass α) :=
  if p.current.kind = kind then advance steps p else pure (p.reportAt p.current message)

/-- Emits a number as a byte of code. -/
def emitByte (p : Pass α) (number line : Int) : Attempt (Pass α) := do
  let chunk ← Attempt.find .byte (p.compilation.chunk.write? number line)
  return { p with compilation := { p.compilation with chunk } }

def emit (p : Pass α) (op : Opcode) (line : Int) : Attempt (Pass α) :=
  p.emitByte op.byte.toNat line

/-- Adds a constant, unless the pool is full, and says at which index it can be found. -/
def makeConstant (p : Pass α) (value : α) : Attempt (Int × Pass α) :=
  if Chunk.maxConstants ≤ p.compilation.chunk.constants.size then do
    return (0, ← p.reportPrevious "Too many constants in one chunk.")
  else
    let chunk := p.compilation.chunk.addConstant value
    return (chunk.constants.size - 1, { p with compilation := { p.compilation with chunk } })

/-- Opens a grouping or negation, unless too many are open, and says whether it did. -/
def enter (p : Pass α) : Attempt (Bool × Pass α) :=
  if maxNesting ≤ p.compilation.depth then do
    return (false, ← p.reportPrevious "Expression nested too deeply.")
  else return (true, { p with compilation := p.compilation.enter })

def leave (p : Pass α) : Pass α := { p with compilation := p.compilation.leave }

/-! ## Expressions -/

variable [Number α]

def number (p : Pass α) : Attempt (Pass α) := do
  let t ← p.previous
  let (index, p) ← p.makeConstant (Number.ofNumeral t.lexeme)
  let p ← p.emit .constant t.line
  p.emitByte index t.line

mutual

/-- Compiles an operand and the operators behind it that bind at least as tightly as `level`. -/
def climb : Nat → Precedence → Pass α → Attempt (Pass α)
  | 0, _, _ => .exhausted
  | steps + 1, level, p => do
    let p ← advance steps p
    let t ← p.previous
    match (ParseRule.ofKind t.kind).leading with
    | none => p.reportPrevious "Expect expression."
    | some action =>
      let p ← apply steps action p
      proceed steps level p

/-- Goes on behind an operand, as long as the tokens ahead bind it at least as tightly as
`level`. -/
def proceed : Nat → Precedence → Pass α → Attempt (Pass α)
  | 0, _, _ => .exhausted
  | steps + 1, level, p => do
    if level.rank ≤ (ParseRule.ofKind p.current.kind).precedence.rank then
      let p ← advance steps p
      let t ← p.previous
      let action ← Attempt.find .action (ParseRule.ofKind t.kind).trailing
      let p ← apply steps action p
      proceed steps level p
    else return p

/-- Does what the rule of the previous token says. -/
def apply : Nat → Action → Pass α → Attempt (Pass α)
  | 0, _, _ => .exhausted
  | _ + 1, .number, p => p.number
  | steps + 1, .grouping, p => do
    let p ← nested steps .assignment p
    expect steps p .rightParen "Expect ')' after expression."
  | steps + 1, .unary, p => do
    let sign ← p.previous
    let p ← nested steps .unary p
    if sign.kind = .minus then p.emit .negate sign.line else return p
  | steps + 1, .binary, p => do
    let mark ← p.previous
    let rank := (ParseRule.ofKind mark.kind).precedence.rank
    let level ← Attempt.find .level Precedence.all[rank + 1]?
    let p ← climb steps level p
    let op ← Attempt.find .operation (operations.lookup mark.kind)
    p.emit op mark.line

/-- Compiles what stands inside a grouping or negation, unless too many are open. -/
def nested : Nat → Precedence → Pass α → Attempt (Pass α)
  | 0, _, _ => .exhausted
  | steps + 1, level, p => do
    let (entered, p) ← p.enter
    if entered then
      let p ← climb steps level p
      return p.leave
    else return p

end

/-- Compiles a source text: the chunk or what is wrong with the text, and the number of tokens
that were asked for. -/
def compile (steps : Nat) (source : List Char) :
    Attempt (Except CompileError (Chunk α) × Nat) := do
  let p ← Pass.ofSource steps source
  let p ← climb steps .assignment p
  let p ← expect steps p .eof "Expect end of expression."
  let t ← p.previous
  let p ← p.emit .ret t.line
  let result :=
    if p.window.hasFailed then .error ⟨p.window.diagnostics⟩ else .ok p.compilation.chunk
  return (result, p.asked)

end Pass

end LoxBytecode

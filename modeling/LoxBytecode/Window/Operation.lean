import LoxBytecode.Window.Basic

/-!
# Operations

What may be asked of a window, in any order, and how it is answered.  An operation that looks for a
token where there is none fails; what it has changed by then stays changed.

Before the first move no token is in view at all.  A lookout is a window that need not have come up
yet: up to then there is only the source text, and the flags that reports put up.
-/

namespace LoxBytecode

namespace Window

/-- What may be asked of a window. -/
inductive Operation where
  | advance
  | expect (kind : Token.Kind) (message : String)
  | check (kind : Token.Kind)
  | reportPrevious (message : String)
  | reportCurrent (message : String)
  | recover
  deriving DecidableEq, Repr

/-- How an operation is answered. -/
inductive Answer where
  | done
  | told (answer : Bool)
  /-- It fails: there is no token to look at. -/
  | noToken
  deriving DecidableEq, Repr

/-- The window that an operation leaves. -/
def perform (w : Window) : Operation → Window
  | .advance => w.advance
  | .expect kind message => w.expect kind message
  | .check _ => w
  | .reportPrevious message => w.reportPrevious message
  | .reportCurrent message => w.reportCurrent message
  | .recover => w.recover

/-- The answer to an operation.  In panic a report is dropped before it looks at its token. -/
def answer (w : Window) : Operation → Answer
  | .check kind => .told (w.check kind)
  | .reportPrevious _ => if w.previous.isNone && !w.panicking then .noToken else .done
  | .advance | .expect .. | .reportCurrent _ | .recover => .done

/-- What has been reported. -/
structure Reports where
  hasFailed : Bool := false
  panicking : Bool := false
  diagnostics : List Diagnostic := []
  deriving DecidableEq, Repr

def reports (w : Window) : Reports := ⟨w.hasFailed, w.panicking, w.diagnostics⟩

end Window

/-- A window that need not have come up yet. -/
inductive Lookout where
  | shut (source : List Char) (hasFailed panicking : Bool)
  | up (w : Window)
  deriving DecidableEq, Repr

namespace Lookout

def ofSource (source : List Char) : Lookout := shut source false false

def window? : Lookout → Option Window
  | shut .. => none
  | up w => some w

def reports : Lookout → Window.Reports
  | shut _ hasFailed panicking => { hasFailed, panicking }
  | up w => w.reports

def perform : Lookout → Window.Operation → Lookout
  | up w, operation => up (w.perform operation)
  | shut source hasFailed panicking, operation =>
    match operation with
    | .advance => up (.comeUp source hasFailed panicking)
    | .expect .. | .check _ => shut source hasFailed panicking
    | .reportPrevious _ | .reportCurrent _ => shut source true true
    | .recover => shut source hasFailed false

def answer : Lookout → Window.Operation → Window.Answer
  | up w, operation => w.answer operation
  | shut _ _ panicking, operation =>
    match operation with
    | .advance | .recover => .done
    | .expect .. | .check _ => .noToken
    | .reportPrevious _ | .reportCurrent _ => if panicking then .done else .noToken

end Lookout

end LoxBytecode

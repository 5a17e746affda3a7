/-!
# Events

What a program writes is a list of events in the order of writing.  Debug messages
are always part of it; whether they are shown is up to the one who shows the events.
-/

namespace LoxBytecode

inductive Event where
  /-- Text for standard output. -/
  | output (text : String)
  /-- Text for standard error. -/
  | complaint (text : String)
  /-- A debug message, which goes to standard error as a line of its own. -/
  | debug (message : String)
  deriving DecidableEq, Repr

namespace Event

def outputLine (text : String) : Event := output (text ++ "\n")

def complaintLine (text : String) : Event := complaint (text ++ "\n")

def isDebug : Event → Bool
  | debug _ => true
  | _ => false

/-- The part of an event that goes to standard output. -/
def stdout : Event → String
  | output text => text
  | _ => ""

/-- The part of an event that goes to standard error. -/
def stderr : Event → String
  | output _ => ""
  | complaint text => text
  | debug message => s!"[DEBUG] {message}\n"

end Event

def stdoutText (events : List Event) : String := String.join (events.map Event.stdout)

def stderrText (events : List Event) : String := String.join (events.map Event.stderr)

@[simp] theorem stdoutText_nil : stdoutText [] = "" := rfl

@[simp] theorem stdoutText_cons (e : Event) (events : List Event) :
    stdoutText (e :: events) = e.stdout ++ stdoutText events := by
  simp [stdoutText, String.join_cons]

@[simp] theorem stdoutText_append (earlier later : List Event) :
    stdoutText (earlier ++ later) = stdoutText earlier ++ stdoutText later := by
  simp [stdoutText, String.join_append]

@[simp] theorem stderrText_nil : stderrText [] = "" := rfl

@[simp] theorem stderrText_cons (e : Event) (events : List Event) :
    stderrText (e :: events) = e.stderr ++ stderrText events := by
  simp [stderrText, String.join_cons]

@[simp] theorem stderrText_append (earlier later : List Event) :
    stderrText (earlier ++ later) = stderrText earlier ++ stderrText later := by
  simp [stderrText, String.join_append]

end LoxBytecode

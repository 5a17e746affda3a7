import LoxBytecode.Proofs.Grammar.Phrase
import LoxBytecode.Proofs.Window.Stream

/-!
# Reading an expression from left to right

A reader who takes in one token after the other can tell at each of them whether it
fits.  Nothing more is needed for that than whether an operand is expected or one has
just ended, which groupings and negations are still open, and how many numerals there
have been.  A negation closes as soon as its operand has ended, a grouping at its
closing parenthesis.

`diagnosis?` is what the reader has to say in the end.  It depends on the first token
that does not fit, and on the errors among the tokens: an error that was met before
wins, and where an operand is at fault, one behind it was met before as well.
-/

namespace LoxBytecode

/-- What an operand may stand inside. -/
inductive Opener where
  | grouping
  | negation
  deriving DecidableEq, Repr

/-- What is left open when an operand has ended. -/
def closeNegations (opened : List Opener) : List Opener := opened.dropWhile (· = .negation)

/-- Where a reader of an expression stands. -/
structure Reading where
  /-- An operand is expected.  Otherwise one has just ended. -/
  expecting : Bool := true
  /-- The groupings and negations that are open, the innermost first. -/
  opened : List Opener := []
  numerals : Nat := 0
  deriving DecidableEq, Repr

inductive Misfit where
  | noOperand
  | tooDeep
  | tooManyNumerals
  | unclosed
  | trailing
  deriving DecidableEq, Repr

namespace Misfit

def message : Misfit → String
  | noOperand => "Expect expression."
  | tooDeep => "Expression nested too deeply."
  | tooManyNumerals => "Too many constants in one chunk."
  | unclosed => "Expect ')' after expression."
  | trailing => "Expect end of expression."

/-- Whether the fault lies with an operand, or else with what follows one. -/
def isAtOperand : Misfit → Bool
  | noOperand | tooDeep | tooManyNumerals => true
  | unclosed | trailing => false

/-- The diagnostic for a sound token that does not fit. -/
def diagnostic (m : Misfit) (t : Token) : Diagnostic :=
  ⟨m.message, some t.line,
    if t.kind = .eof then " at end" else " at '" ++ String.ofList t.lexeme ++ "'"⟩

theorem diagnostic_eq (m : Misfit) {t : Token} (h : t.kind ≠ .error) :
    m.diagnostic t = ⟨m.message, some t.line, t.location⟩ := by
  unfold diagnostic Token.location
  split
  · rename_i heof
    simp [heof]
  · split <;> simp_all

end Misfit

namespace Reading

def start : Reading := {}

/-! ## One token -/

/-- Why a token of a kind does not fit here, if it does not. -/
def misfit? (r : Reading) (kind : Token.Kind) : Option Misfit :=
  if r.expecting then
    match kind with
    | .number => if r.numerals < 256 then none else some .tooManyNumerals
    | .leftParen | .minus => if r.opened.length < 128 then none else some .tooDeep
    | _ => some .noOperand
  else if kind ∈ joiningKinds then none
  else if .grouping ∈ r.opened then
    if kind = .rightParen then none else some .unclosed
  else if kind = .eof then none else some .trailing

/-- Where the reader stands behind a token that fits. -/
def after (r : Reading) (kind : Token.Kind) : Reading :=
  match r.expecting, kind with
  | true, .leftParen => { r with opened := .grouping :: r.opened }
  | true, .minus => { r with opened := .negation :: r.opened }
  | true, _ => ⟨false, closeNegations r.opened, r.numerals + 1⟩
  | false, .rightParen => { r with opened := closeNegations r.opened.tail }
  | false, _ => { r with expecting := true }

theorem misfit?_joining (opened : List Opener) (numerals : Nat) {kind : Token.Kind}
    (h : kind ∈ joiningKinds) : misfit? ⟨false, opened, numerals⟩ kind = none := if_pos h

theorem after_joining (opened : List Opener) (numerals : Nat) {kind : Token.Kind}
    (h : kind ∈ joiningKinds) : after ⟨false, opened, numerals⟩ kind = ⟨true, opened, numerals⟩ := by
  simp only [joiningKinds, List.mem_cons, List.not_mem_nil, or_false] at h
  rcases h with rfl | rfl | rfl | rfl <;> rfl

/-! ## All tokens -/

/-- A token that does not fit, between the tokens before it and those behind it. -/
structure Finding where
  before : List Token := []
  token : Token
  misfit : Misfit
  later : List Token

/-- A finding, seen from one token earlier. -/
def Finding.behind (f : Finding) (t : Token) : Finding := { f with before := t :: f.before }

/-- The tokens that have been met when the finding is made: also those for faulty text
right behind an operand at fault. -/
def Finding.met (f : Finding) : List Token :=
  f.before ++ if f.misfit.isAtOperand then f.later.takeWhile (·.kind = .error) else []

@[simp] theorem Finding.met_behind (f : Finding) (t : Token) : (f.behind t).met = t :: f.met := rfl

@[simp] theorem Finding.token_behind (f : Finding) (t : Token) : (f.behind t).token = f.token := rfl

@[simp] theorem Finding.misfit_behind (f : Finding) (t : Token) :
    (f.behind t).misfit = f.misfit := rfl

/-- The first sound token that does not fit. -/
def firstMisfit? (r : Reading) : List Token → Option Finding
  | [] => none
  | t :: later =>
    if t.kind = .error then (r.firstMisfit? later).map (·.behind t)
    else
      match r.misfit? t.kind with
      | some misfit => some { token := t, misfit, later }
      | none => ((r.after t.kind).firstMisfit? later).map (·.behind t)

/-- The diagnostic that a list of tokens calls for, if any. -/
def diagnosis? (r : Reading) (tokens : List Token) : Option Diagnostic :=
  match r.firstMisfit? tokens with
  | some f =>
    match f.met.find? (·.kind = .error) with
    | some t => some t.fault
    | none => some (f.misfit.diagnostic f.token)
  | none => (tokens.find? (·.kind = .error)).map Token.fault

theorem diagnosis?_error (r : Reading) {t : Token} (h : t.kind = .error) (later : List Token) :
    r.diagnosis? (t :: later) = some t.fault := by
  unfold diagnosis?
  rw [firstMisfit?, if_pos h]
  cases r.firstMisfit? later with
  | none => simp [h]
  | some f => simp [h]

theorem diagnosis?_fit {r : Reading} {t : Token} (hsound : t.kind ≠ .error)
    (h : r.misfit? t.kind = none) (later : List Token) :
    r.diagnosis? (t :: later) = (r.after t.kind).diagnosis? later := by
  unfold diagnosis?
  rw [firstMisfit?, if_neg hsound]
  simp only [h]
  cases (r.after t.kind).firstMisfit? later with
  | none => simp [hsound]
  | some f => simp [hsound]

/-- A token that does not fit is reported if no error comes right behind it. -/
theorem diagnosis?_misfit {r : Reading} {t : Token} {m : Misfit} (hsound : t.kind ≠ .error)
    (h : r.misfit? t.kind = some m) {later : List Token}
    (hlater : ∀ u ∈ later.head?, u.kind ≠ .error) :
    r.diagnosis? (t :: later) = some (m.diagnostic t) := by
  have hnone : later.takeWhile (·.kind = .error) = [] := by
    cases later with
    | nil => rfl
    | cons u rest => simp [hlater u rfl]
  unfold diagnosis?
  rw [firstMisfit?, if_neg hsound]
  simp [h, Finding.met, hnone]

theorem diagnosis?_misfit_behind {r : Reading} {t : Token} {m : Misfit} (hsound : t.kind ≠ .error)
    (h : r.misfit? t.kind = some m) (hbehind : m.isAtOperand = false) (later : List Token) :
    r.diagnosis? (t :: later) = some (m.diagnostic t) := by
  unfold diagnosis?
  rw [firstMisfit?, if_neg hsound]
  simp [h, Finding.met, hbehind]

theorem sound_of_diagnosis?_eq_none {r : Reading} {tokens : List Token}
    (h : r.diagnosis? tokens = none) : ∀ t ∈ tokens, t.kind ≠ .error := by
  unfold diagnosis? at h
  split at h
  · split at h <;> cases h
  · intro t ht herror
    have hnone := List.find?_eq_none.1 (Option.map_eq_none_iff.1 h) t ht
    exact hnone (by simp [herror])

theorem isAtOperand_of_expecting {r : Reading} {kind : Token.Kind} {m : Misfit}
    (hexpecting : r.expecting = true) (h : r.misfit? kind = some m) : m.isAtOperand = true := by
  unfold misfit? at h
  rw [if_pos hexpecting] at h
  split at h
  · split at h <;> cases h
    rfl
  · split at h <;> cases h
    rfl
  · split at h <;> cases h
    rfl
  · cases h
    rfl

/-- Where an operand is expected, an error behind the next token is met before anything
is said about that token. -/
theorem diagnosis?_error_behind {r : Reading} (hexpecting : r.expecting = true) {t u : Token}
    (hsound : t.kind ≠ .error) (herror : u.kind = .error) (later : List Token) :
    r.diagnosis? (t :: u :: later) = some u.fault := by
  cases h : r.misfit? t.kind with
  | none => rw [diagnosis?_fit hsound h, diagnosis?_error _ herror]
  | some m =>
      have hoperand := isAtOperand_of_expecting hexpecting h
      unfold diagnosis?
      rw [firstMisfit?, if_neg hsound]
      simp [h, Finding.met, hoperand, herror]

end Reading

end LoxBytecode

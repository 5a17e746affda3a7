import LoxBytecode.Console.Session
import LoxBytecode.Proofs.Machine.Output

/-!
# Dealing with one source text

The console deals with a source text by listing its tokens or by interpreting it.  How that ends,
what it writes to standard output and what it writes to standard error depend on the text and on
the options alone, not on what the machine was used for before; and debug messages, which the
options show or hide, have no part in standard output.
-/

namespace LoxBytecode.Console

/-! ## What is shown -/

theorem Options.shown_append (options : Options) (earlier later : List Event) :
    options.shown (earlier ++ later) = options.shown earlier ++ options.shown later := by
  unfold shown
  split
  · rfl
  · exact List.filter_append earlier later

theorem Options.shown_eq_plain {options : Options} (h : options.verbose = false)
    (events : List Event) : options.shown events = plain events := by
  unfold shown
  rw [h]
  rfl

theorem plain_append_of_debug {earlier later : List Event} (h : ∀ e ∈ later, e.isDebug = true) :
    plain (earlier ++ later) = plain earlier := by
  have hnone : later.filter (fun e => !e.isDebug) = [] := by
    refine List.filter_eq_nil_iff.mpr fun e he => ?_
    simp [h e he]
  unfold plain
  rw [List.filter_append, hnone, List.append_nil]

theorem Options.sublist_shown (options : Options) (events : List Event) :
    (options.shown events).Sublist events := by
  unfold shown
  split
  · exact .refl events
  · exact List.filter_sublist

theorem Options.plain_shown (options : Options) (events : List Event) :
    plain (options.shown events) = plain events := by
  unfold shown
  split
  · rfl
  · exact List.filter_filter.trans (by simp [plain])

/-- Debug messages have no part in standard output. -/
theorem Options.stdoutText_shown (options : Options) (events : List Event) :
    stdoutText (options.shown events) = stdoutText events := by
  cases hverbose : options.verbose with
  | false => rw [shown_eq_plain hverbose, stdoutText_plain]
  | true =>
      unfold shown
      rw [hverbose]
      rfl

/-! ## One text -/

/-- How a source text is dealt with: it is listed, or else whether it compiles decides. -/
def outcomeOf (options : Options) (source : List Char) : Outcome :=
  if options.listing then .ok
  else
    match (compile source : Except CompileError (Chunk Double)) with
    | .error _ => .compileError
    | .ok _ => .ok

/-- What a source text writes to standard output when it is dealt with by itself. -/
def outputOf (options : Options) (source : List Char) : String :=
  if options.listing then describeTokens source ++ "\n"
  else stdoutText (({} : Machine Double).interpret options.toSettings source).events

/-- What a source text writes to standard error when it is dealt with by itself. -/
def complaintsOf (options : Options) (source : List Char) : String :=
  if options.listing then "" else diagnosticsText Double source

section Process

variable (options : Options) (source : List Char) (m : Machine Double)

/-- No source text ends in a fault. -/
theorem result_process : (process options source m).result = .ok (outcomeOf options source) := by
  unfold process outcomeOf
  split
  · rfl
  · rw [Machine.result_interpret]
    cases (compile source : Except CompileError (Chunk Double)) <;> rfl

/-- What happened to a machine before does not show. -/
theorem events_process : (process options source m).events = (process options source {}).events := by
  unfold process
  split
  · rfl
  · exact (m.interpret_eq_interpret_new options.toSettings source).1

theorem stdoutText_process :
    stdoutText (process options source m).events = outputOf options source := by
  rw [events_process]
  unfold process outputOf
  split
  · simp [Event.outputLine, Event.stdout]
  · rfl

theorem stderrText_process :
    stderrText (plain (process options source m).events) = complaintsOf options source := by
  unfold process complaintsOf
  split
  · rfl
  · exact Machine.stderrText_interpret options.toSettings source m

end Process

end LoxBytecode.Console

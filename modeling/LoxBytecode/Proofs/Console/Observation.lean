import LoxBytecode.Proofs.Console.File
import LoxBytecode.Proofs.Console.Prompt

/-!
# Flags that only observe

Three flags show more of a run and change nothing else about it.  Verbose runs write debug messages
in between (`events_runCommand`).  Standard output is a list of segments, most of which are the
same under all settings (`segmented_runCommand`): only where a source text is executed do the
settings decide whether its listing and its trace come before its result.  How a run ends, and what
it complains about, the settings have no part in.  `debugging_flags_observe` says so of the command
line, with a flag put in anywhere.
-/

namespace LoxBytecode.Console

/-! ## Segments of standard output -/

/-- A segment of what is written to standard output: one that is the same under all settings, or
what is shown of a source text that is executed. -/
inductive Segment where
  | fixed (text : String)
  | executed (source : List Char) (listing trace result : String)
  deriving DecidableEq, Repr

namespace Segment

/-- A segment as it is written under the given settings. -/
def text (settings : Settings) : Segment → String
  | fixed text => text
  | executed _ listing trace result =>
    (if settings.dumping then listing else "") ++
      ((if settings.tracing then trace else "") ++ result)

def source? : Segment → Option (List Char)
  | fixed _ => none
  | executed source .. => some source

/-- What is shown of a source text is its own listing, its own trace and its own result. -/
def IsFaithful : Segment → Prop
  | fixed _ => True
  | executed source listing trace result => Machine.Presents Double source listing trace result

end Segment

/-- What is written under each of the settings is made up of segments, in which just these source
texts are executed, in this order. -/
def Segmented (sources : List (List Char)) (written : Settings → String) : Prop :=
  ∃ segments : List Segment, (∀ x ∈ segments, x.IsFaithful) ∧
    segments.filterMap Segment.source? = sources ∧
      ∀ settings, written settings = String.join (segments.map (Segment.text settings))

def compiles (source : List Char) : Bool :=
  (compile source : Except CompileError (Chunk Double)).isOk

/-- The source texts that a command executes: of those that it interprets the ones that
compile. -/
def Command.executed (read : String → Except ReadError ByteArray) (input : List Char) :
    Command → List (List Char)
  | .prompt options =>
    if options.listing then []
    else (Text.lines (Text.unifyLineEndings input)).filter compiles
  | .file options path =>
    if options.listing then []
    else ((read path).bind decode).toOption.toList.filter compiles
  | _ => []

/-- The same options with other settings. -/
def Options.under (options : Options) (settings : Settings) : Options :=
  { options with toSettings := settings }

namespace Segmented

variable {sources sources' : List (List Char)} {written written' : Settings → String}

theorem fixed (text : String) : Segmented [] fun _ => text :=
  ⟨[.fixed text], by simp [Segment.IsFaithful], rfl, fun _ => by simp [Segment.text]⟩

theorem append (h : Segmented sources written) (h' : Segmented sources' written') :
    Segmented (sources ++ sources') fun settings => written settings ++ written' settings := by
  obtain ⟨segments, hfaithful, rfl, hwritten⟩ := h
  obtain ⟨segments', hfaithful', rfl, hwritten'⟩ := h'
  refine ⟨segments ++ segments', List.forall_mem_append.mpr ⟨hfaithful, hfaithful'⟩,
    List.filterMap_append, ?_⟩
  intro settings
  show written settings ++ written' settings = _
  rw [hwritten, hwritten', List.map_append, String.join_append]

theorem congr (h : Segmented sources written)
    (hsame : ∀ settings, written' settings = written settings) : Segmented sources written' := by
  obtain rfl : written' = written := funext hsame
  exact h

theorem executed {source : List Char} {listing trace result : String}
    (h : Machine.Presents Double source listing trace result) :
    Segmented [source] fun settings =>
      (if settings.dumping then listing else "") ++
        ((if settings.tracing then trace else "") ++ result) := by
  refine ⟨[.executed source listing trace result], ?_, rfl, ?_⟩
  · intro x hx
    obtain rfl := List.mem_singleton.mp hx
    exact h
  · intro settings
    simp [Segment.text]

end Segmented

/-- A source text that is interpreted is a segment of its own. -/
theorem segmented_outputOf (options : Options) (source : List Char) :
    Segmented (if options.listing then [] else [source].filter compiles)
      fun settings => outputOf (options.under settings) source := by
  cases hlisting : options.listing with
  | true =>
      refine (Segmented.fixed (describeTokens source ++ "\n")).congr fun settings => ?_
      simp [outputOf, Options.under, hlisting]
  | false =>
      have houtput : ∀ settings, outputOf (options.under settings) source =
          stdoutText (({} : Machine Double).interpret settings source).events := by
        intro settings
        simp [outputOf, Options.under, hlisting]
      cases hcompile : (compile source : Except CompileError (Chunk Double)) with
      | error e =>
          have hnone : [source].filter compiles = [] := by
            simp [compiles, hcompile, Except.isOk, Except.toBool]
          rw [if_neg (by decide), hnone]
          refine (Segmented.fixed "").congr fun settings => ?_
          rw [houtput, Machine.stdoutText_interpret_of_refused hcompile]
      | ok chunk =>
          have hone : [source].filter compiles = [source] := by
            simp [compiles, hcompile, Except.isOk, Except.toBool]
          obtain ⟨listing, trace, result, hpresents, hstdout⟩ := Machine.exists_presents hcompile
          rw [if_neg (by decide), hone]
          refine (Segmented.executed hpresents).congr fun settings => ?_
          rw [houtput, hstdout]

/-- The lines of a session are dealt with one by one, each behind its prompt. -/
theorem segmented_lines (options : Options) (lines : List (List Char)) :
    Segmented (if options.listing then [] else lines.filter compiles)
      fun settings => String.join (lines.map fun line =>
        "> " ++ outputOf (options.under settings) line) := by
  induction lines with
  | nil => simpa using Segmented.fixed ""
  | cons line later ih =>
      -- the prompt, what is shown of the line, and then the later lines
      have hline := ((Segmented.fixed "> ").append (segmented_outputOf options line)).append ih
      have hsources : (if options.listing then [] else (line :: later).filter compiles) =
          [] ++ (if options.listing then [] else [line].filter compiles) ++
            (if options.listing then [] else later.filter compiles) := by
        rw [List.nil_append]
        split
        · rfl
        · rw [← List.filter_append, List.singleton_append]
      rw [hsources]
      refine hline.congr fun settings => ?_
      rw [List.map_cons, String.join_cons]

/-! ## Commands under other options -/

section Commands

variable (command : Command) (options : Options) (read : String → Except ReadError ByteArray)
  (input : List Char) (ending : InputEnd)

/-- What a session at the prompt writes, all of it. -/
theorem runCommand_prompt :
    runCommand (.prompt options) read input ending =
      ⟨transcript options (Text.lines (Text.unifyLineEndings input)) ++
        [promptEvent, ending.farewell], 0⟩ :=
  converse_eq options ending {} _

theorem segmented_runCommand :
    Segmented ((command.withOptions options).executed read input) fun settings =>
      stdoutText
        (runCommand (command.withOptions (options.under settings)) read input ending).events := by
  cases command with
  | help | unknownFlag | tooManyPaths => exact .fixed _
  | prompt _ =>
      have hlines := segmented_lines options (Text.lines (Text.unifyLineEndings input))
      have hwhole := hlines.append (.fixed (stdoutText [promptEvent, ending.farewell]))
      rw [List.append_nil] at hwhole
      refine hwhole.congr fun settings => ?_
      show stdoutText (runCommand (.prompt _) read input ending).events = _
      rw [runCommand_prompt, stdoutText_append, stdoutText_transcript]
  | file _ path =>
      cases hcontents : (read path).bind decode with
      | error e =>
          have hnone : (Command.file options path).executed read input = [] := by
            simp [Command.executed, hcontents, Except.toOption]
          show Segmented ((Command.file options path).executed read input) _
          rw [hnone]
          refine (Segmented.fixed "").congr fun settings => ?_
          exact (runFile_of_unreadable _ path hcontents).2.1
      | ok source =>
          have hone : (Command.file options path).executed read input =
              if options.listing then [] else [source].filter compiles := by
            simp [Command.executed, hcontents, Except.toOption]
          show Segmented ((Command.file options path).executed read input) _
          rw [hone]
          refine (segmented_outputOf options source).congr fun settings => ?_
          exact (runFile_of_text _ path hcontents).2.1

end Commands

section Listing

variable {options options' : Options} (h : options.listing = options'.listing)
  (command : Command) (read : String → Except ReadError ByteArray) (input : List Char)
  (ending : InputEnd)

include h

theorem outcomeOf_congr (source : List Char) :
    outcomeOf options source = outcomeOf options' source := by
  unfold outcomeOf
  rw [h]

theorem complaintsOf_congr (source : List Char) :
    complaintsOf options source = complaintsOf options' source := by
  unfold complaintsOf
  rw [h]

/-- How a run ends does not depend on what is shown of it. -/
theorem status_runCommand :
    (runCommand (command.withOptions options) read input ending).status =
      (runCommand (command.withOptions options') read input ending).status := by
  cases command with
  | help | unknownFlag | tooManyPaths => rfl
  | prompt _ =>
      show (runCommand (.prompt options) read input ending).status =
        (runCommand (.prompt options') read input ending).status
      rw [runCommand_prompt, runCommand_prompt]
  | file _ path =>
      show (runFile options path (read path)).status = (runFile options' path (read path)).status
      cases hcontents : (read path).bind decode with
      | error e =>
          rw [(runFile_of_unreadable _ path hcontents).1,
            (runFile_of_unreadable _ path hcontents).1]
      | ok source =>
          rw [(runFile_of_text _ path hcontents).1, (runFile_of_text _ path hcontents).1,
            outcomeOf_congr h]

/-- What a run complains about does not depend on what is shown of it. -/
theorem stderrText_runCommand (hquiet : options.verbose = false)
    (hquiet' : options'.verbose = false) :
    stderrText (runCommand (command.withOptions options) read input ending).events =
      stderrText (runCommand (command.withOptions options') read input ending).events := by
  cases command with
  | help | unknownFlag | tooManyPaths => rfl
  | prompt _ =>
      show stderrText (runCommand (.prompt options) read input ending).events =
        stderrText (runCommand (.prompt options') read input ending).events
      have hsame : complaintsOf options = complaintsOf options' := funext (complaintsOf_congr h)
      rw [runCommand_prompt, runCommand_prompt, stderrText_append, stderrText_append,
        stderrText_transcript hquiet, stderrText_transcript hquiet', hsame]
  | file _ path =>
      show stderrText (runFile options path (read path)).events =
        stderrText (runFile options' path (read path)).events
      cases hcontents : (read path).bind decode with
      | error e =>
          rw [(runFile_of_unreadable _ path hcontents).2.2 hquiet,
            (runFile_of_unreadable _ path hcontents).2.2 hquiet']
      | ok source =>
          rw [(runFile_of_text _ path hcontents).2.2 hquiet,
            (runFile_of_text _ path hcontents).2.2 hquiet', complaintsOf_congr h]

end Listing

/-! ## Verbose runs -/

/-- A piece of what is written to standard error: one that is written in any case, or a debug
message that only a verbose run shows. -/
inductive Writing where
  | fixed (text : String)
  | added (message : String)
  deriving DecidableEq, Repr

/-- A piece as it is written with the debug messages or without them. -/
def Writing.text (debugging : Bool) : Writing → String
  | fixed text => text
  | added message => if debugging then s!"[DEBUG] {message}\n" else ""

/-- Only a debug message may not be shown. -/
theorem Options.shown_singleton (options : Options) (e : Event) :
    options.shown [e] = [e] ∨ options.shown [e] = [] ∧ ∃ message, e = .debug message := by
  unfold shown
  cases e with
  | output text | complaint text => split <;> exact .inl rfl
  | debug message =>
      split
      · exact .inl rfl
      · exact .inr ⟨rfl, message, rfl⟩

/-- The events that are shown write the pieces that all of them write, up to debug messages. -/
theorem Options.exists_writings (options : Options) (events : List Event) :
    ∃ writings : List Writing,
      stderrText (options.shown events) = String.join (writings.map (Writing.text false)) ∧
        stderrText events = String.join (writings.map (Writing.text true)) := by
  induction events with
  | nil => exact ⟨[], by simp [shown], rfl⟩
  | cons e later ih =>
      obtain ⟨writings, hshown, hall⟩ := ih
      have hsplit : options.shown (e :: later) = options.shown [e] ++ options.shown later :=
        options.shown_append [e] later
      have hcons (w : Writing) (debugging : Bool) :
          String.join ((w :: writings).map (Writing.text debugging)) =
            w.text debugging ++ String.join (writings.map (Writing.text debugging)) := by
        rw [List.map_cons, String.join_cons]
      rw [hsplit, stderrText_append, hshown, stderrText_cons, hall]
      rcases options.shown_singleton e with hkept | ⟨hdropped, message, rfl⟩
      · refine ⟨.fixed e.stderr :: writings, ?_, (hcons (.fixed e.stderr) true).symm⟩
        rw [hcons, hkept, stderrText_cons, stderrText_nil, String.append_empty]
        rfl
      · refine ⟨.added message :: writings, ?_, (hcons (.added message) true).symm⟩
        rw [hcons, hdropped]
        rfl

/-- The same options with debug messages shown. -/
def Options.verbosely (options : Options) : Options := { options with verbose := true }

theorem transcript_verbosely (options : Options) (lines : List (List Char)) :
    transcript options lines = options.shown (transcript options.verbosely lines) := by
  induction lines with
  | nil => simp [transcript, Options.shown]
  | cons line later ih =>
      have hhead : options.verbosely.shown (process options.verbosely line {}).events =
          (process options line {}).events := rfl
      have hprompt : ∀ events, options.shown (promptEvent :: events) =
          promptEvent :: options.shown events := by
        intro events
        unfold Options.shown
        split <;> rfl
      rw [transcript_cons, transcript_cons, hhead, options.shown_append, hprompt, ih]

/-- A run writes what it writes in a verbose run, up to the debug messages. -/
theorem events_runCommand (command : Command) (options : Options)
    (read : String → Except ReadError ByteArray) (input : List Char) (ending : InputEnd) :
    (runCommand (command.withOptions options) read input ending).events =
      options.shown
        (runCommand (command.withOptions options.verbosely) read input ending).events := by
  cases command with
  | help | unknownFlag | tooManyPaths =>
      -- there are no debug messages to be left out
      unfold Options.shown
      split <;> rfl
  | prompt _ =>
      show (runCommand (.prompt options) read input ending).events =
        options.shown (runCommand (.prompt options.verbosely) read input ending).events
      have hfarewell : options.shown [promptEvent, ending.farewell] =
          [promptEvent, ending.farewell] := by
        unfold Options.shown
        cases ending <;> split <;> rfl
      rw [runCommand_prompt, runCommand_prompt, options.shown_append, hfarewell,
        ← transcript_verbosely]
  | file _ path =>
      show (runFile options path (read path)).events =
        options.shown (runFile options.verbosely path (read path)).events
      unfold runFile
      cases (read path).bind decode <;> rfl

/-! ## A flag among the arguments -/

section Insert

variable {before after : List String} {flag : String}

theorem listing_given_insert (h : flag ≠ "--tokens") :
    (Options.given (before ++ flag :: after)).listing =
      (Options.given (before ++ after)).listing := by
  simp [Options.given, h.symm]

theorem verbose_given_insert (h : flag ≠ "-v") (h' : flag ≠ "--verbose") :
    (Options.given (before ++ flag :: after)).verbose =
      (Options.given (before ++ after)).verbose := by
  simp [Options.given, h.symm, h'.symm]

/-- To trace or to dump is a matter of the settings. -/
theorem under_given_insert (h : flag = "--trace" ∨ flag = "--dump") :
    (Options.given (before ++ after)).under (Options.given (before ++ flag :: after)).toSettings =
      Options.given (before ++ flag :: after) := by
  have hlisting : (Options.given (before ++ flag :: after)).listing =
      (Options.given (before ++ after)).listing := by
    apply listing_given_insert
    rintro rfl
    exact absurd h (by decide)
  have hverbose : (Options.given (before ++ flag :: after)).verbose =
      (Options.given (before ++ after)).verbose := by
    apply verbose_given_insert <;> rintro rfl <;> exact absurd h (by decide)
  unfold Options.under
  rw [← hlisting, ← hverbose]

theorem given_insert_verbose (h : flag = "-v" ∨ flag = "--verbose") :
    Options.given (before ++ flag :: after) = (Options.given (before ++ after)).verbosely := by
  rcases h with rfl | rfl <;> simp [Options.given, Options.verbosely]

variable (read : String → Except ReadError ByteArray) (input : List Char) (ending : InputEnd)

theorem runProgram_eq (arguments : List String) :
    runProgram arguments read input ending =
      runCommand ((Command.ofArguments arguments).withOptions (.given arguments))
        read input ending := by
  rw [Command.withOptions_given, runProgram]

/-- With one more flag the same command is carried out, with other options. -/
theorem runProgram_insert (h : flag ∈ flags) (before after : List String) :
    runProgram (before ++ flag :: after) read input ending =
      runCommand ((Command.ofArguments (before ++ after)).withOptions
        (.given (before ++ flag :: after))) read input ending := by
  rw [← Command.ofArguments_insert h, runProgram]

end Insert

/-- **Debugging flags only observe.**  A flag put in anywhere among the arguments leaves the
status.  To trace or to dump leaves standard error, and standard output up to the source texts that
are executed: in front of the result of each of them there comes the listing of its code if that is
asked for, and then its trace if that is.  To be verbose leaves standard output, and adds debug
messages, which are lines of their own, in between what else is written to standard error. -/
theorem debugging_flags_observe (before after : List String) {flag : String}
    (hflag : flag ∈ ["--trace", "--dump", "-v", "--verbose"])
    (read : String → Except ReadError ByteArray) (input : List Char) (ending : InputEnd) :
    let arguments := before ++ after
    let arguments' := before ++ flag :: after
    let r := runProgram arguments read input ending
    let r' := runProgram arguments' read input ending
    r'.status = r.status ∧
      (flag = "--trace" ∨ flag = "--dump" →
        ("-v" ∉ arguments → "--verbose" ∉ arguments →
          stderrText r'.events = stderrText r.events) ∧
        ∃ segments : List Segment, (∀ x ∈ segments, x.IsFaithful) ∧
          segments.filterMap Segment.source? =
            (Command.ofArguments arguments).executed read input ∧
          stdoutText r.events =
            String.join (segments.map (Segment.text (Options.given arguments).toSettings)) ∧
          stdoutText r'.events =
            String.join (segments.map (Segment.text (Options.given arguments').toSettings))) ∧
      (flag = "-v" ∨ flag = "--verbose" →
        stdoutText r'.events = stdoutText r.events ∧ r.events.Sublist r'.events ∧
          plain r'.events = plain r.events ∧
          ∃ writings : List Writing,
            stderrText r.events = String.join (writings.map (Writing.text false)) ∧
              stderrText r'.events = String.join (writings.map (Writing.text true))) := by
  intro arguments arguments' r r'
  have hflags : flag ∈ flags := by
    simp only [List.mem_cons, List.not_mem_nil, or_false] at hflag
    rcases hflag with rfl | rfl | rfl | rfl <;> decide
  have htokens : flag ≠ "--tokens" := by
    rintro rfl
    exact absurd hflag (by decide)
  have hlisting : (Options.given arguments').listing = (Options.given arguments).listing :=
    listing_given_insert htokens
  have hr : r = _ := runProgram_eq read input ending arguments
  have hr' : r' = _ := runProgram_insert read input ending hflags before after
  refine ⟨?_, ?_, ?_⟩
  · rw [hr, hr']
    exact status_runCommand hlisting _ read input ending
  · intro hshows
    have hunder : (Options.given arguments).under (Options.given arguments').toSettings =
        Options.given arguments' := under_given_insert hshows
    constructor
    · intro hv hverbosely
      have hquiet : (Options.given arguments).verbose = false := by
        simp [Options.given, hv, hverbosely]
      have hquiet' : (Options.given arguments').verbose = false := by
        rw [← hunder]
        exact hquiet
      rw [hr, hr']
      exact stderrText_runCommand hlisting _ read input ending hquiet' hquiet
    · obtain ⟨segments, hfaithful, hsources, hwritten⟩ :=
        segmented_runCommand (Command.ofArguments arguments) (.given arguments) read input ending
      rw [Command.withOptions_given] at hsources
      refine ⟨segments, hfaithful, hsources, ?_, ?_⟩
      · rw [← hwritten, hr]
        rfl
      · -- the same segments, under the settings that the new flag asks for
        have hstdout := hwritten (Options.given arguments').toSettings
        dsimp only at hstdout
        rw [hunder] at hstdout
        rw [hr']
        exact hstdout
  · intro hshows
    have hevents : r.events = (Options.given arguments).shown r'.events := by
      rw [hr, hr', given_insert_verbose hshows]
      exact events_runCommand _ _ read input ending
    rw [hevents]
    exact ⟨(Options.stdoutText_shown _ _).symm, Options.sublist_shown _ _,
      (Options.plain_shown _ _).symm, Options.exists_writings _ _⟩

/-- With a trace asked for, only the line that is executed writes more. -/
theorem debugging_flags_observe_trace :
    let read := fun _ : String => (.error .notFound : Except ReadError ByteArray)
    let input := "(\n7".toList
    let r := runProgram ["--dump"] read input .exhausted
    let r' := runProgram ["--dump", "--trace"] read input .exhausted
    "--trace" ∈ ["--trace", "--dump", "-v", "--verbose"] ∧ r'.status = r.status ∧
      stderrText r'.events = stderrText r.events ∧
      (∃ segments : List Segment, (∀ x ∈ segments, x.IsFaithful) ∧
        segments.filterMap Segment.source? = ["7".toList] ∧
        stdoutText r.events = String.join (segments.map (Segment.text ⟨false, true⟩)) ∧
        stdoutText r'.events = String.join (segments.map (Segment.text ⟨true, true⟩))) ∧
      stdoutText r'.events =
        "> > == code ==\n0000    1 OP_CONSTANT         0 '7'\n0002    | OP_RETURN\n" ++
          "          \n0000    1 OP_CONSTANT         0 '7'\n" ++
          "          [ 7 ]\n0002    | OP_RETURN\n7\n" ++
          "> \n" := by
  intro read input r r'
  have hflag : "--trace" ∈ ["--trace", "--dump", "-v", "--verbose"] := by decide
  obtain ⟨hstatus, hshown, -⟩ := debugging_flags_observe ["--dump"] [] hflag read input .exhausted
  obtain ⟨hstderr, segments, hfaithful, hsources, hstdout, hstdout'⟩ := hshown (.inl rfl)
  refine ⟨hflag, hstatus, hstderr (by decide) (by decide), ⟨segments, hfaithful, ?_, ?_, ?_⟩, ?_⟩
  · exact hsources.trans (by decide +kernel)
  · exact hstdout
  · exact hstdout'
  · decide +kernel

end LoxBytecode.Console

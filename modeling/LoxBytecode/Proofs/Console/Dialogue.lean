import LoxBytecode.Proofs.Console.Arguments

/-!
# What a run asks for

A run is told here as a dialogue: it asks for the contents of a file, for a line of input, or for a
source text to be interpreted, and goes on with the answer.  Whatever a run learns it has asked for,
so a run that ends before it asks anything has read nothing and compiled nothing.  Carried out among
real files and real input, the dialogue comes to the report of the run (`carryOut_ofArguments`).

The arguments are taken in from left to right.  `argument_order` says what their order matters for:
only the first one that decides the run by itself does so, and among those that decide nothing there
is no order.
-/

namespace LoxBytecode.Console

/-- A run, by what it asks for next. -/
inductive Dialogue where
  | done (report : Report)
  /-- There are no steps left to go on with. -/
  | cut
  | contents (path : String) (next : Except ReadError ByteArray → Dialogue)
  /-- The next line of input, or how the input has ended. -/
  | line (next : Except InputEnd (List Char) → Dialogue)
  /-- A source text is compiled and executed by a machine. -/
  | interpret (settings : Settings) (source : List Char) (m : Machine Double)
      (next : Interpretation Double → Dialogue)

namespace Dialogue

/-- Carries out a dialogue: requests are answered with the files, the lines of input that are left,
and the interpreter. -/
def carryOut (read : String → Except ReadError ByteArray) (ending : InputEnd) :
    Dialogue → List (List Char) → Option Report
  | done report, _ => some report
  | cut, _ => none
  | contents path next, lines => (next (read path)).carryOut read ending lines
  | line next, [] => (next (.error ending)).carryOut read ending []
  | line next, first :: later => (next (.ok first)).carryOut read ending later
  | interpret settings source m next, lines =>
    (next (m.interpret settings source)).carryOut read ending lines

/-! ## The program as a dialogue -/

/-- Lists the tokens of a text, which takes no interpreter, or has it interpreted. -/
def text (options : Options) (source : List Char) (m : Machine Double)
    (next : Interpretation Double → Dialogue) : Dialogue :=
  if options.listing then next ⟨[.outputLine (describeTokens source)], .ok .ok, m⟩
  else interpret options.toSettings source m next

/-- What is reported of a file whose text has been dealt with. -/
def fileReport (options : Options) (path : String) (i : Interpretation Double) : Report :=
  let verdict :=
    match i.result with
    | .ok .ok => []
    | .ok outcome => [Event.debug s!"{path} finished with {outcome.name}"]
    | .error _ => []
  ⟨options.shown (i.events ++ verdict), statusOf i.result⟩

def file (options : Options) (path : String) : Dialogue :=
  contents path fun bytes =>
    match bytes.bind decode with
    | .error _ => done (runFile options path bytes)
    | .ok source => text options source {} fun i => done (fileReport options path i)

/-- A session that has written some events, for so many lines of input at most. -/
def prompt (options : Options) : Nat → List Event → Machine Double → Dialogue
  | 0, _, _ => cut
  | steps + 1, events, m =>
    line fun
      | .error ending => done ⟨events ++ [promptEvent, ending.farewell], 0⟩
      | .ok first =>
        text options first m fun i =>
          let events := events ++ promptEvent :: options.shown i.events
          match i.result with
          | .error _ => done ⟨events, statusOf i.result⟩
          | .ok _ => prompt options steps events i.machine

/-- The run of a command line: its arguments are taken in one after the other, and only then is
anything else done. -/
def ofArguments (steps : Nat) (arguments : List String) : Dialogue :=
  match (arguments.map Argument.ofText).foldlM Gathered.take {} with
  | .error report => done report
  | .ok g =>
    match g.paths with
    | [] => prompt g.options steps [] {}
    | [path] => file g.options path
    | _ => done ⟨[.complaint usage], usageStatus⟩

/-! ## Carrying it out -/

variable (read : String → Except ReadError ByteArray) (ending : InputEnd)

theorem carryOut_text (options : Options) (source : List Char) (m : Machine Double)
    (next : Interpretation Double → Dialogue) (lines : List (List Char)) :
    (text options source m next).carryOut read ending lines =
      (next (process options source m)).carryOut read ending lines := by
  unfold text process
  cases options.listing <;> rfl

theorem carryOut_file (options : Options) (path : String) (lines : List (List Char)) :
    (file options path).carryOut read ending lines = some (runFile options path (read path)) := by
  show (match (read path).bind decode with
    | .error _ => done (runFile options path (read path))
    | .ok source => text options source {} fun i => done (fileReport options path i)).carryOut
      read ending lines = _
  cases hcontents : (read path).bind decode with
  | error e => rfl
  | ok source =>
      dsimp only
      rw [carryOut_text]
      show some (fileReport options path (process options source {})) = _
      rw [runFile, hcontents]
      rfl

theorem carryOut_prompt (options : Options) {steps : Nat} {lines : List (List Char)}
    (h : lines.length < steps) (events : List Event) (m : Machine Double) :
    (prompt options steps events m).carryOut read ending lines =
      some ⟨events ++ (converse options ending m lines).events,
        (converse options ending m lines).status⟩ := by
  induction lines generalizing steps events m with
  | nil =>
      obtain ⟨fewer, rfl⟩ := Nat.exists_eq_succ_of_ne_zero (Nat.ne_of_gt h)
      rfl
  | cons first later ih =>
      obtain ⟨fewer, rfl⟩ := Nat.exists_eq_succ_of_ne_zero (Nat.ne_of_gt (Nat.zero_lt_of_lt h))
      have hfewer : later.length < fewer := Nat.lt_of_succ_lt_succ h
      show (text options first m _).carryOut read ending later = _
      rw [carryOut_text, converse]
      unfold answer
      dsimp only
      cases (process options first m).result with
      | error fault => rfl
      | ok outcome =>
          dsimp only
          rw [ih hfewer, List.append_assoc]

/-- Taking in the arguments one after the other comes to the command that they stand for.  Where
this is none to be carried out, there is nothing left but the report. -/
theorem ofArguments_eq (steps : Nat) (arguments : List String) (input : List Char) :
    ofArguments steps arguments =
      match Command.ofArguments arguments with
      | .prompt options => prompt options steps [] {}
      | .file options path => file options path
      | command => done (runCommand command read input ending) := by
  have hstart : ({} : Gathered).Of [] := ⟨rfl, rfl⟩
  unfold ofArguments Command.ofArguments
  rcases hstart.foldlM (arguments.map Argument.ofText) with
    ⟨command, report, hdecided, hfold, hreport⟩ | ⟨g, hdecided, hfold, hof⟩
  · obtain ⟨a, -, ha⟩ := List.exists_of_findSome?_eq_some hdecided
    simp only [hfold, hdecided]
    rw [← hreport read input ending]
    cases a <;> cases ha <;> rfl
  · simp only [hfold, hdecided, hof.paths, hof.options, List.nil_append]
    rcases (arguments.map Argument.ofText).filterMap Argument.path? with
      _ | ⟨path, _ | ⟨next, later⟩⟩ <;> rfl

/-- What is refused is refused before anything has been asked for. -/
theorem ofArguments_eq_done {arguments : List String} {command : Command}
    (hcommand : Command.ofArguments arguments = command)
    (h : command = .help ∨ (∃ flag, command = .unknownFlag flag) ∨ command = .tooManyPaths)
    (steps : Nat) (input : List Char) :
    ofArguments steps arguments = done (runProgram arguments read input ending) := by
  rw [ofArguments_eq read ending steps arguments input, runProgram, hcommand]
  rcases h with rfl | ⟨flag, rfl⟩ | rfl <;> rfl

/-- With steps for all the lines of input, the dialogue comes to the report of the run. -/
theorem carryOut_ofArguments (arguments : List String) (input : List Char) {steps : Nat}
    (h : (Text.lines (Text.unifyLineEndings input)).length < steps) :
    (ofArguments steps arguments).carryOut read ending
        (Text.lines (Text.unifyLineEndings input)) =
      some (runProgram arguments read input ending) := by
  rw [ofArguments_eq read ending steps arguments input, runProgram]
  cases Command.ofArguments arguments with
  | help | unknownFlag | tooManyPaths => rfl
  | prompt options => exact carryOut_prompt read ending options h [] {}
  | file options path => exact carryOut_file read ending options path _

end Dialogue

/-! ## What is shown of a refusal -/

/-- The status of a report, and all that it writes to standard output and to standard error. -/
structure Report.Shows (r : Report) (status : Nat) (output complaints : String) : Prop where
  status : r.status = status
  output : stdoutText r.events = output
  complaints : stderrText r.events = complaints

section Refusals

variable (read : String → Except ReadError ByteArray) (input : List Char) (ending : InputEnd)

theorem shows_help : (runCommand .help read input ending).Shows 0 usage "" where
  status := rfl
  output := by simp [runCommand, Event.stdout]
  complaints := by simp [runCommand, Event.stderr]

theorem shows_unknownFlag (flag : String) : (runCommand (.unknownFlag flag) read input ending).Shows
    64 "" ("loxvm: unknown flag '" ++ flag ++ "'\n" ++ usage) where
  status := rfl
  output := by simp [runCommand, Event.complaintLine, Event.stdout]
  complaints := by
    have hline : "loxvm: unknown flag '" ++ flag ++ "'" ++ "\n" =
        "loxvm: unknown flag '" ++ flag ++ "'\n" := by
      rw [String.append_assoc]
      rfl
    rw [← hline]
    show stderrText [.complaintLine _, .complaint usage] = _
    rw [stderrText_cons, stderrText_cons, stderrText_nil, String.append_empty]
    rfl

theorem shows_tooManyPaths : (runCommand .tooManyPaths read input ending).Shows 64 "" usage where
  status := rfl
  output := by simp [runCommand, Event.stdout]
  complaints := by simp [runCommand, Event.stderr]

end Refusals

/-! ## The order of the arguments -/

section Order

variable {arguments arguments' : List String}

theorem find?_eq_none_of_subset (h : arguments.find? (IsDecisive ·) = none)
    (hsubset : arguments' ⊆ arguments) : arguments'.find? (IsDecisive ·) = none := by
  rw [List.find?_eq_none] at h ⊢
  exact fun text htext => h text (hsubset htext)

theorem Options.given_congr (h : ∀ flag ∈ flags, flag ∈ arguments' ↔ flag ∈ arguments) :
    given arguments' = given arguments := by
  unfold given
  simp only [h "--trace" (by decide), h "--dump" (by decide), h "--tokens" (by decide),
    h "-v" (by decide), h "--verbose" (by decide)]

/-- One path at most stays where it is when the arguments are permuted. -/
theorem pathsOf_perm (hperm : arguments.Perm arguments') (hone : (pathsOf arguments).length ≤ 1) :
    pathsOf arguments' = pathsOf arguments := by
  have hpaths : (pathsOf arguments).Perm (pathsOf arguments') := hperm.filter _
  cases hone' : pathsOf arguments with
  | nil =>
      rw [hone'] at hpaths
      exact hpaths.nil_eq.symm
  | cons path later =>
      rw [hone'] at hpaths hone
      obtain rfl : later = [] := List.eq_nil_of_length_eq_zero (by simpa using hone)
      exact (List.singleton_perm.mp hpaths).symm

theorem pathsOf_insert {flag : String} (hflag : flag ∈ flags) (before after : List String) :
    pathsOf (before ++ flag :: after) = pathsOf (before ++ after) := by
  have hpath : ¬IsPath flag := Argument.not_isPath_of_mem_flags hflag
  unfold pathsOf
  rw [List.filter_append, List.filter_append, List.filter_cons, if_neg (by simpa using hpath)]

/-- What is repeated is there already. -/
theorem mem_insert_again {flag text : String} {before after : List String}
    (hagain : flag ∈ before ++ after) :
    text ∈ before ++ flag :: after ↔ text ∈ before ++ after := by
  constructor
  · intro htext
    rcases List.mem_append.mp htext with hbefore | hbehind
    · exact List.mem_append_left _ hbefore
    · rcases List.mem_cons.mp hbehind with rfl | hafter
      · exact hagain
      · exact List.mem_append_right _ hafter
  · intro htext
    rcases List.mem_append.mp htext with hbefore | hafter
    · exact List.mem_append_left _ hbefore
    · exact List.mem_append_right _ (List.mem_cons_of_mem _ hafter)

end Order

/-- **The order of the arguments.**  The first argument that asks for help or is an unknown flag
decides the run alone, whatever stands around it; and where there is none, more than one path is too
many.  Then the report is there before anything has been asked for.  Otherwise the run depends on
which flags are given and on the path: it is the same for the arguments in any order, and when a
flag is repeated. -/
theorem argument_order (arguments : List String) (read : String → Except ReadError ByteArray)
    (input : List Char) (ending : InputEnd) :
    let lines := Text.lines (Text.unifyLineEndings input)
    let first := arguments.find? (IsDecisive ·)
    let r := runProgram arguments read input ending
    (∀ steps, lines.length < steps →
        (Dialogue.ofArguments steps arguments).carryOut read ending lines = some r) ∧
      (∀ text, first = some text →
        (IsHelp text → r.Shows 0 usage "") ∧
        (IsUnknownFlag text →
          r.Shows 64 "" ("loxvm: unknown flag '" ++ text ++ "'\n" ++ usage)) ∧
        ∀ steps, Dialogue.ofArguments steps arguments = .done r) ∧
      (first = none → 2 ≤ (pathsOf arguments).length →
        r.Shows 64 "" usage ∧ ∀ steps, Dialogue.ofArguments steps arguments = .done r) ∧
      (first = none → (pathsOf arguments).length ≤ 1 →
        (∀ arguments', arguments'.find? (IsDecisive ·) = none →
          Options.given arguments' = Options.given arguments →
          pathsOf arguments' = pathsOf arguments →
            runProgram arguments' read input ending = r) ∧
        (∀ arguments', arguments.Perm arguments' →
          runProgram arguments' read input ending = r) ∧
        ∀ before after flag, arguments = before ++ after → flag ∈ flags → flag ∈ arguments →
          runProgram (before ++ flag :: after) read input ending = r) := by
  intro lines first r
  have hshown {command : Command} (hcommand : Command.ofArguments arguments = command) :
      r = runCommand command read input ending := by rw [← hcommand]; rfl
  refine ⟨?_, ?_, ?_, ?_⟩
  · intro steps hsteps
    exact Dialogue.carryOut_ofArguments read ending arguments input hsteps
  · intro text hfirst
    have hdecisive : IsDecisive text := by simpa using List.find?_some hfirst
    refine ⟨?_, ?_, ?_⟩
    · intro hhelp
      rw [hshown (Command.ofArguments_of_help hfirst hhelp)]
      exact shows_help read input ending
    · intro hunknown
      rw [hshown (Command.ofArguments_of_unknown hfirst hunknown)]
      exact shows_unknownFlag read input ending text
    · intro steps
      rcases hdecisive with hhelp | hunknown
      · exact Dialogue.ofArguments_eq_done read ending
          (Command.ofArguments_of_help hfirst hhelp) (.inl rfl) steps input
      · exact Dialogue.ofArguments_eq_done read ending
          (Command.ofArguments_of_unknown hfirst hunknown) (.inr (.inl ⟨text, rfl⟩)) steps input
  · intro hnone hmany
    have hcommand := Command.ofArguments_of_paths hnone hmany
    constructor
    · rw [hshown hcommand]
      exact shows_tooManyPaths read input ending
    · intro steps
      exact Dialogue.ofArguments_eq_done read ending hcommand (.inr (.inr rfl)) steps input
  · intro hnone hone
    have hcongr (arguments' : List String) (hnone' : arguments'.find? (IsDecisive ·) = none)
        (hgiven : Options.given arguments' = Options.given arguments)
        (hpaths : pathsOf arguments' = pathsOf arguments) :
        runProgram arguments' read input ending = r := by
      rw [runProgram, Command.ofArguments_congr hnone hnone' hgiven hpaths]
      rfl
    refine ⟨hcongr, ?_, ?_⟩
    · intro arguments' hperm
      apply hcongr
      · exact find?_eq_none_of_subset hnone hperm.symm.subset
      · exact Options.given_congr fun flag _ => hperm.mem_iff.symm
      · exact pathsOf_perm hperm hone
    · rintro before after flag rfl hflag hagain
      apply hcongr
      · exact find?_eq_none_of_subset hnone fun text htext => (mem_insert_again hagain).mp htext
      · exact Options.given_congr fun text _ => mem_insert_again hagain
      · exact pathsOf_insert hflag before after

/-- Help is asked for behind two paths, and before a flag that is not known; with these flags in
another order and one of them again, a file is run as before. -/
theorem argument_order_help_among_paths :
    let read := fun _ : String => (.ok "1 + 2".toUTF8 : Except ReadError ByteArray)
    let r := runProgram ["a.lox", "--trace", "b.lox", "-h", "--bogus"] read [] .exhausted
    let r' := runProgram ["--tokens", "a.lox", "-v"] read [] .exhausted
    r.Shows 0 usage "" ∧
      (∀ steps, Dialogue.ofArguments steps ["a.lox", "--trace", "b.lox", "-h", "--bogus"] =
        .done r) ∧
      runProgram ["-v", "--tokens", "a.lox"] read [] .exhausted = r' ∧
      runProgram ["--tokens", "a.lox", "--tokens", "-v"] read [] .exhausted = r' ∧
      r'.status = 0 := by
  intro read r r'
  have hfirst : ["a.lox", "--trace", "b.lox", "-h", "--bogus"].find? (IsDecisive ·) =
      some "-h" := by
    decide +kernel
  obtain ⟨-, hdecided, -, -⟩ :=
    argument_order ["a.lox", "--trace", "b.lox", "-h", "--bogus"] read [] .exhausted
  obtain ⟨-, -, -, hfree⟩ := argument_order ["--tokens", "a.lox", "-v"] read [] .exhausted
  obtain ⟨hshown, -, hdone⟩ := hdecided "-h" hfirst
  obtain ⟨-, hperm, hagain⟩ := hfree (by decide +kernel) (by decide +kernel)
  refine ⟨hshown (.inl rfl), hdone, hperm _ ?_, ?_, by decide +kernel⟩
  · decide
  · exact hagain ["--tokens", "a.lox"] ["-v"] "--tokens" rfl (by decide) (by decide)

end LoxBytecode.Console

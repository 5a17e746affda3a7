import LoxBytecode.Proofs.Console.Answer
import LoxBytecode.Proofs.Console.Options
import LoxBytecode.Proofs.Text.LineEnding

/-!
# Running a file

To run a file is to decode its bytes, to write a newline for every end of a line, and to interpret
the text that comes out.  Compiling the file takes the same way up to the text; so the outcome of
the one tells the outcome of the other, and neither sees more of the file than that text
(`runProgram_file`).
-/

namespace LoxBytecode.Console

/-! ## Bytes and texts -/

/-- The text of some bytes is the one that they are the encoding of. -/
theorem fromUTF8?_eq_some_iff {bytes : ByteArray} {text : String} :
    String.fromUTF8? bytes = some text ↔ text.toUTF8 = bytes := by
  unfold String.fromUTF8?
  constructor
  · intro h
    split at h
    · cases h
      rfl
    · cases h
  · rintro rfl
    exact dif_pos text.isValidUTF8

theorem decode_toUTF8 (text : String) :
    decode text.toUTF8 = .ok (Text.unifyLineEndings text.toList) := by
  rw [decode, fromUTF8?_eq_some_iff.mpr rfl]

theorem decode_eq_error {bytes : ByteArray} (h : ∀ text : String, text.toUTF8 ≠ bytes) :
    decode bytes = .error (.notText (Text.flaw bytes)) := by
  unfold decode
  cases htext : String.fromUTF8? bytes with
  | none => rfl
  | some text => exact absurd (fromUTF8?_eq_some_iff.mp htext) (h text)

/-- How a file ends its lines is lost when it is read. -/
theorem decode_congr {text text' : String} (h : Text.SameLines text.toList text'.toList) :
    decode text.toUTF8 = decode text'.toUTF8 := by
  rw [decode_toUTF8, decode_toUTF8, Text.sameLines_iff.mp h]

/-! ## Compiling a file -/

theorem compileFile_of_text {α : Type} [Number α] {bytes : ByteArray} {source : List Char}
    (h : decode bytes = .ok source) :
    (compileFile (.ok bytes) : Except FileError (Chunk α)) =
      (compile source).mapError .compile := by
  show ((decode bytes).mapError FileError.read).bind _ = _
  rw [h]
  rfl

theorem compileFile_of_unreadable {α : Type} [Number α] {bytes : ByteArray} {e : ReadError}
    (h : decode bytes = .error e) :
    (compileFile (.ok bytes) : Except FileError (Chunk α)) = .error (.read e) := by
  show ((decode bytes).mapError FileError.read).bind _ = _
  rw [h]
  rfl

/-! ## Carrying out a command on a file -/

section RunFile

variable (options : Options) (path : String) {contents : Except ReadError ByteArray}

/-- A text is dealt with by a new machine, and the status tells how that ended. -/
theorem exists_runFile_eq {source : List Char} (h : contents.bind decode = .ok source) :
    ∃ verdict, (∀ e ∈ verdict, e.isDebug = true) ∧
      runFile options path contents =
        ⟨options.shown ((process options source {}).events ++ verdict),
          (outcomeOf options source).exitStatus⟩ := by
  unfold runFile
  rw [h]
  simp only [result_process]
  cases outcomeOf options source with
  | ok => exact ⟨[], by simp, rfl⟩
  | compileError | runtimeError => exact ⟨[.debug _], by simp [Event.isDebug], rfl⟩

theorem runFile_of_text {source : List Char} (h : contents.bind decode = .ok source) :
    (runFile options path contents).status = (outcomeOf options source).exitStatus ∧
      stdoutText (runFile options path contents).events = outputOf options source ∧
      (options.verbose = false →
        stderrText (runFile options path contents).events = complaintsOf options source) := by
  obtain ⟨verdict, hverdict, hrun⟩ := exists_runFile_eq options path h
  rw [hrun]
  refine ⟨rfl, ?_, ?_⟩
  · rw [options.stdoutText_shown, ← stdoutText_plain, plain_append_of_debug hverdict,
      stdoutText_plain, stdoutText_process]
  · intro hverbose
    rw [Options.shown_eq_plain hverbose, plain_append_of_debug hverdict, stderrText_process]

theorem runFile_of_unreadable {e : ReadError} (h : contents.bind decode = .error e) :
    (runFile options path contents).status = unreadableStatus ∧
      stdoutText (runFile options path contents).events = "" ∧
      (options.verbose = false → stderrText (runFile options path contents).events =
        "Could not open file \"" ++ path ++ "\".\n") := by
  unfold runFile
  rw [h]
  dsimp only
  refine ⟨rfl, ?_, ?_⟩
  · rw [options.stdoutText_shown]
    simp [Event.complaintLine, Event.stdout]
  · intro hverbose
    rw [Options.shown_eq_plain hverbose]
    show stderrText [.complaintLine _] = _
    rw [stderrText_cons, stderrText_nil, String.append_empty]
    show "Could not open file \"" ++ path ++ "\"." ++ "\n" = _
    rw [String.append_assoc]
    rfl

/-- No file makes a run end as one that fails while it executes. -/
theorem status_runFile_ne (contents : Except ReadError ByteArray) :
    (runFile options path contents).status ≠ 70 := by
  cases h : contents.bind decode with
  | error e =>
      rw [(runFile_of_unreadable options path h).1]
      decide
  | ok source =>
      rw [(runFile_of_text options path h).1]
      unfold outcomeOf
      split
      · decide
      · split <;> decide

/-- Nothing of a file matters but its text. -/
theorem runFile_congr {contents' : Except ReadError ByteArray}
    (h : contents.bind decode = contents'.bind decode) :
    runFile options path contents = runFile options path contents' := by
  unfold runFile
  rw [h]

end RunFile

/-! ## A command line that is a path -/

section Program

variable {path : String}

theorem ofArguments_path (h : path = "-" ∨ path.toList.head? ≠ some '-') :
    Command.ofArguments [path] = .file {} path := by
  have hpath := Argument.ofText_of_path h
  unfold Command.ofArguments
  simp [hpath, Command.decidedBy?, Argument.path?, Command.optionsOf]

theorem runProgram_path (h : path = "-" ∨ path.toList.head? ≠ some '-')
    (read : String → Except ReadError ByteArray) (input : List Char) (ending : InputEnd) :
    runProgram [path] read input ending = runFile {} path (read path) := by
  rw [runProgram, ofArguments_path h]
  rfl

/-- How a run without flags ends on a text that does not compile. -/
structure Report.Rejects (r : Report) (source : List Char) (d : Diagnostic) : Prop where
  compile_eq : (compile source : Except CompileError (Chunk Double)) = .error ⟨[d]⟩
  status : r.status = 65
  stdout : stdoutText r.events = ""
  stderr : stderrText r.events = d.text ++ "\n"

/-- How a run without flags ends on a text that compiles. -/
structure Report.Evaluates (r : Report) (source : List Char) (chunk : Chunk Double) : Prop where
  compile_eq : compile source = .ok chunk
  status : r.status = 0
  exists_value : ∃ value : Double, evaluate source = .ok (.ok value) ∧
    stdoutText r.events = Number.render value ++ "\n"
  stderr : stderrText r.events = ""

theorem rejects_or_evaluates (path : String) {bytes : ByteArray} {source : List Char}
    (h : decode bytes = .ok source) :
    (∃ d, (runFile {} path (.ok bytes)).Rejects source d) ∨
      ∃ chunk, (runFile {} path (.ok bytes)).Evaluates source chunk := by
  have hcontents : (Except.ok bytes : Except ReadError ByteArray).bind decode = .ok source := h
  obtain ⟨hstatus, hstdout, hstderr⟩ := runFile_of_text {} path hcontents
  have hcomplaints := hstderr rfl
  cases hcompile : (compile source : Except CompileError (Chunk Double)) with
  | error e =>
      left
      obtain ⟨d, -, rfl⟩ := exists_diagnostic_of_compile hcompile
      refine ⟨d, hcompile, ?_, ?_, ?_⟩
      · rw [hstatus, outcomeOf, hcompile]
        rfl
      · rw [hstdout]
        exact Machine.stdoutText_interpret_of_refused hcompile {} {}
      · rw [hcomplaints]
        simp [complaintsOf, diagnosticsText, hcompile]
  | ok chunk =>
      right
      obtain ⟨value, hvalue, -⟩ := Machine.exists_value_of_compile hcompile
      refine ⟨chunk, hcompile, ?_, ⟨value, hvalue, ?_⟩, ?_⟩
      · rw [hstatus, outcomeOf, hcompile]
        rfl
      · rw [hstdout]
        exact Machine.stdoutText_interpret hvalue {}
      · rw [hcomplaints]
        simp [complaintsOf, diagnosticsText, hcompile]

/-- What compiling a file comes to is what running it shows. -/
theorem compileFile_agrees (path : String) {text : String} {source : List Char}
    (h : Text.Unified text.toList source) :
    let r := runFile {} path (.ok text.toUTF8)
    let compiled : Except FileError (Chunk Double) := compileFile (.ok text.toUTF8)
    (∃ d, r.Rejects source d ∧ compiled = .error (.compile ⟨[d]⟩)) ∨
      ∃ chunk, r.Evaluates source chunk ∧ compiled = .ok chunk := by
  intro r compiled
  have hdecode : decode text.toUTF8 = .ok source := by
    rw [decode_toUTF8, Text.unified_iff.mp h]
  have hcompiled : compiled = (compile source).mapError .compile := compileFile_of_text hdecode
  rw [hcompiled]
  rcases rejects_or_evaluates path hdecode with ⟨d, hrejects⟩ | ⟨chunk, hevaluates⟩
  · refine .inl ⟨d, hrejects, ?_⟩
    rw [hrejects.compile_eq]
    rfl
  · refine .inr ⟨chunk, hevaluates, ?_⟩
    rw [hevaluates.compile_eq]
    rfl

end Program

/-- **Running a file agrees with compiling it and with evaluating its text.**  With nothing but the
path of a file on the command line: a file that is no UTF-8 is refused as unreadable; one whose
text does not compile is rejected with the diagnostic that compiling the file gives; of any other
the value of its text is written.  These are all the ways to end.  The text has a newline for every
end of a line, however the file writes it, so files that differ in the ends of their lines alone
are run and compiled alike, down to the lines of the code.

A limit that the host sets to the depth of calls is taken as not reached, as for a machine that
interprets the text itself. -/
theorem runProgram_file {path : String} (hpath : path = "-" ∨ path.toList.head? ≠ some '-')
    {read : String → Except ReadError ByteArray} {bytes : ByteArray}
    (hread : read path = .ok bytes) (input : List Char) (ending : InputEnd) :
    let r := runProgram [path] read input ending
    let compiled : Except FileError (Chunk Double) := compileFile (.ok bytes)
    ((∀ text : String, text.toUTF8 ≠ bytes) →
        compiled = .error (.read (.notText (Text.flaw bytes))) ∧ r.status = 74 ∧
          stdoutText r.events = "" ∧
            stderrText r.events = "Could not open file \"" ++ path ++ "\".\n") ∧
      (∀ (text : String) (source : List Char), text.toUTF8 = bytes →
        Text.Unified text.toList source →
          (∃ d, r.Rejects source d ∧ compiled = .error (.compile ⟨[d]⟩)) ∨
            ∃ chunk, r.Evaluates source chunk ∧ compiled = .ok chunk) ∧
      r.status ≠ 70 ∧
      ∀ (text text' : String) (read' : String → Except ReadError ByteArray),
        text.toUTF8 = bytes → Text.SameLines text.toList text'.toList →
          read' path = .ok text'.toUTF8 →
            runProgram [path] read' input ending = r ∧ compileFile (.ok text'.toUTF8) = compiled := by
  intro r compiled
  have hrun : r = runFile {} path (.ok bytes) :=
    (runProgram_path hpath read input ending).trans (congrArg _ hread)
  refine ⟨?_, ?_, ?_, ?_⟩
  · intro hnone
    have hdecode := decode_eq_error hnone
    have hcontents : (Except.ok bytes : Except ReadError ByteArray).bind decode =
      .error (.notText (Text.flaw bytes)) := hdecode
    obtain ⟨hstatus, hstdout, hstderr⟩ := runFile_of_unreadable {} path hcontents
    rw [hrun]
    exact ⟨compileFile_of_unreadable hdecode, hstatus, hstdout, hstderr rfl⟩
  · rintro text source rfl hunified
    rw [hrun]
    exact compileFile_agrees path hunified
  · rw [hrun]
    exact status_runFile_ne {} path _
  · rintro text text' read' rfl hsame hread'
    constructor
    · rw [runProgram_path hpath, hread', hrun]
      exact runFile_congr {} path (decode_congr hsame).symm
    · show compileFile _ = compileFile _
      rw [compileFile_of_text (decode_toUTF8 text), Text.sameLines_iff.mp hsame,
        compileFile_of_text (decode_toUTF8 text')]

/-- A carriage return with a newline and one without are two ends of lines, as two newlines are. -/
theorem runProgram_file_carriage_returns :
    let text := "7 // one\r\n\r8"
    let text' := "7 // one\n\n8"
    let run := fun contents : String =>
      runProgram ["f"] (fun _ => .ok contents.toUTF8) [] .exhausted
    Text.SameLines text.toList text'.toList ∧ run text' = run text ∧ (run text).status = 65 ∧
      stderrText (run text).events = "[line 3] Error at '8': Expect end of expression.\n" := by
  intro text text' run
  have hsame : Text.SameLines text.toList text'.toList := Text.sameLines_iff.mpr (by decide)
  obtain ⟨-, haccepted, -, hrewritten⟩ := @runProgram_file "f" (.inr (by decide))
    (fun _ => .ok text.toUTF8) text.toUTF8 rfl [] .exhausted
  have hdiagnosis : Reading.start.diagnosis? (tokens "7 // one\n\n8".toList) =
      some ⟨"Expect end of expression.", some 3, " at '8'"⟩ := by decide +kernel
  have hcompile := compile_eq_diagnosis (α := Double) "7 // one\n\n8".toList
  rw [hdiagnosis] at hcompile
  refine ⟨hsame, (hrewritten text text' _ rfl hsame rfl).1, ?_⟩
  rcases haccepted text "7 // one\n\n8".toList rfl (Text.unified_iff.mpr (by decide)) with
    ⟨d, hrejects, -⟩ | ⟨chunk, hevaluates, -⟩
  · cases hrejects.compile_eq.symm.trans hcompile
    exact ⟨hrejects.status, hrejects.stderr.trans (by decide +kernel)⟩
  · cases hevaluates.compile_eq.symm.trans hcompile

end LoxBytecode.Console

import LoxBytecode.Proofs.Console.Answer
import LoxBytecode.Proofs.Console.Options
import LoxBytecode.Proofs.Text.LineEnding

/-!
# Sessions at the prompt

One machine answers all the lines of a session, and what a line leaves in it never shows: no
answer ends in a fault, and every answer is that of a new machine.  So a session is the list of
the answers that new machines give to its lines (`converse_eq`), with nothing in between but the
prompts; what is written is put together from what the lines write, each by itself
(`session_line_by_line`).
-/

namespace LoxBytecode.Console

/-! ## Sessions -/

/-- What new machines answer to lines of input, each answer behind its prompt. -/
def transcript (options : Options) (lines : List (List Char)) : List Event :=
  lines.flatMap fun line => promptEvent :: options.shown (process options line {}).events

theorem transcript_cons (options : Options) (line : List Char) (later : List (List Char)) :
    transcript options (line :: later) =
      promptEvent :: options.shown (process options line {}).events ++ transcript options later :=
  rfl

/-- **Step.** An answer is that of a new machine, and the session goes on behind it. -/
theorem converse_cons (options : Options) (ending : InputEnd) (m : Machine Double)
    (line : List Char) (later : List (List Char)) :
    ∃ n : Machine Double, converse options ending m (line :: later) =
      { converse options ending n later with
        events := promptEvent :: options.shown (process options line {}).events ++
          (converse options ending n later).events } := by
  refine ⟨(process options line m).machine, ?_⟩
  rw [converse]
  simp only [answer, result_process, events_process options line m]

/-- **Run.** A session gives all its answers, and they are those of new machines. -/
theorem converse_eq (options : Options) (ending : InputEnd) (m : Machine Double)
    (lines : List (List Char)) :
    converse options ending m lines =
      ⟨transcript options lines ++ [promptEvent, ending.farewell], 0⟩ := by
  -- every line leaves another machine for the next one
  induction lines generalizing m with
  | nil => rfl
  | cons line later ih =>
      obtain ⟨n, hstep⟩ := converse_cons options ending m line later
      rw [hstep, ih n, transcript_cons, List.append_assoc]

theorem runProgram_of_flags {arguments : List String} (hflags : ∀ text ∈ arguments, text ∈ flags)
    {input : List Char} {lines : List (List Char)} (hlines : Text.HasLines input lines)
    (read : String → Except ReadError ByteArray) (ending : InputEnd) :
    runProgram arguments read input ending =
      ⟨transcript (.given arguments) lines ++ [promptEvent, ending.farewell], 0⟩ := by
  rw [runProgram, Command.ofArguments_of_flags hflags]
  show runPrompt _ (Text.lines (Text.unifyLineEndings input)) ending = _
  rw [Text.hasLines_iff.mp hlines, runPrompt, converse_eq]

theorem stdoutText_transcript (options : Options) (lines : List (List Char)) :
    stdoutText (transcript options lines) =
      String.join (lines.map fun line => "> " ++ outputOf options line) := by
  induction lines with
  | nil => rfl
  | cons line later ih =>
      rw [transcript_cons, stdoutText_append, stdoutText_cons, Options.stdoutText_shown,
        stdoutText_process, ih, List.map_cons, String.join_cons]
      rfl

theorem stderrText_transcript {options : Options} (hverbose : options.verbose = false)
    (lines : List (List Char)) :
    stderrText (transcript options lines) = String.join (lines.map (complaintsOf options)) := by
  induction lines with
  | nil => rfl
  | cons line later ih =>
      rw [transcript_cons, stderrText_append, stderrText_cons, Options.shown_eq_plain hverbose,
        stderrText_process, ih, List.map_cons, String.join_cons]
      exact congrArg (· ++ _) (String.empty_append)

/-- **A session answers its lines one by one.**  With any flags and no path, the lines of standard
input are answered up to the end of the input, whichever way it ends, and no answer ends the session
before.  What is written is, line for line, the prompt and what a new machine writes for
that line; so what one line does is never seen in the answer to another one, and two sessions in a
row write what each of them writes. -/
theorem session_line_by_line {arguments : List String}
    (hflags : ∀ text ∈ arguments, text ∈ flags) {input : List Char} {lines : List (List Char)}
    (hlines : Text.HasLines input lines) (read : String → Except ReadError ByteArray)
    (ending : InputEnd) :
    let options := Options.given arguments
    let r := runProgram arguments read input ending
    r.status = 0 ∧
      stdoutText r.events =
        String.join (lines.map fun line => "> " ++ outputOf options line) ++ "> \n" ∧
      ("-v" ∉ arguments → "--verbose" ∉ arguments →
        stderrText r.events = String.join (lines.map (complaintsOf options))) ∧
      ∀ (input' joined : List Char) (lines' : List (List Char)) (ending' : InputEnd),
        Text.HasLines input' lines' → Text.HasLines joined (lines ++ lines') →
          ∃ answers, r.events = answers ++ [promptEvent, ending.farewell] ∧
            (runProgram arguments read joined ending').events =
              answers ++ (runProgram arguments read input' ending').events := by
  intro options r
  have hreport := runProgram_of_flags hflags hlines read ending
  have hevents : r.events = transcript options lines ++ [promptEvent, ending.farewell] :=
    congrArg Report.events hreport
  refine ⟨congrArg Report.status hreport, ?_, ?_, ?_⟩
  · rw [hevents, stdoutText_append, stdoutText_transcript]
    cases ending <;> rfl
  · intro hv hverbose
    have hquiet : options.verbose = false := by simp [options, Options.given, hv, hverbose]
    rw [hevents, stderrText_append, stderrText_transcript hquiet]
    cases ending <;> exact String.append_empty
  · intro input' joined lines' ending' hlines' hjoined
    refine ⟨transcript options lines, hevents, ?_⟩
    rw [runProgram_of_flags hflags hlines' read ending',
      runProgram_of_flags hflags hjoined read ending']
    simp [transcript, options]

/-- The second line is answered although the first one does not compile, and the third one although
its end is missing; with a line end there, more lines can follow. -/
theorem session_line_by_line_mixed_ends :
    let arguments := ["--trace"]
    let input := "(\r7 // seven\r\n8".toList
    let lines := ["(".toList, "7 // seven".toList, "8".toList]
    let run := fun text => runProgram arguments (fun _ => .error .notFound) text .interrupted
    (∀ text ∈ arguments, text ∈ flags) ∧ Text.HasLines input lines ∧ (run input).status = 0 ∧
      stdoutText (run input).events =
        "> > " ++
          "          \n0000    1 OP_CONSTANT         0 '7'\n" ++
          "          [ 7 ]\n0002    | OP_RETURN\n7\n" ++
          "> " ++
          "          \n0000    1 OP_CONSTANT         0 '8'\n" ++
          "          [ 8 ]\n0002    | OP_RETURN\n8\n" ++
          "> \n" ∧
      stderrText (run input).events = "[line 1] Error at end: Expect expression.\n" ∧
      ∃ answers, (run input).events = answers ++ [promptEvent, InputEnd.interrupted.farewell] ∧
        (run (input ++ "\r\n)".toList)).events = answers ++ (run ")".toList).events := by
  intro arguments input lines run
  have hflags : ∀ text ∈ arguments, text ∈ flags := by decide
  have hlines : Text.HasLines input lines := Text.hasLines_iff.mpr (by decide)
  have hlines' : Text.HasLines ")".toList [")".toList] := Text.hasLines_iff.mpr (by decide)
  have hjoined : Text.HasLines (input ++ "\r\n)".toList) (lines ++ [")".toList]) :=
    Text.hasLines_iff.mpr (by decide)
  obtain ⟨hstatus, hstdout, hstderr, hjoin⟩ :=
    session_line_by_line hflags hlines (fun _ => .error .notFound) .interrupted
  refine ⟨hflags, hlines, hstatus, hstdout.trans ?_, (hstderr ?_ ?_).trans ?_, ?_⟩
  · decide +kernel
  · decide
  · decide
  · decide +kernel
  · exact hjoin _ _ _ .interrupted hlines' hjoined

end LoxBytecode.Console

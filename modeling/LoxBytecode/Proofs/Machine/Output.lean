import LoxBytecode.Proofs.Machine.Numeral
import LoxBytecode.Proofs.Machine.Trace

/-!
# What interpretation writes

A source text that compiles has a listing, a trace and a result, and which of the first two are
written to standard output in front of the third is all that the settings decide
(`exists_presents`).  A source text that does not compile has nothing to show there; its
diagnostic goes to standard error, whatever the settings.
-/

namespace LoxBytecode

/-! ## Kinds of events -/

theorem stdoutText_plain (events : List Event) : stdoutText (plain events) = stdoutText events := by
  induction events with
  | nil => rfl
  | cons e events ih =>
      rw [stdoutText_cons, ← ih]
      cases e with
      | output | complaint => exact stdoutText_cons _ _
      | debug => exact String.empty_append.symm

/-- The diagnostics of a source text as they are written to standard error, each on a line of
its own. -/
def diagnosticsText (α : Type) [Number α] (source : List Char) : String :=
  match (compile source : Except CompileError (Chunk α)) with
  | .error e => String.join (e.diagnostics.map fun d => d.text ++ "\n")
  | .ok _ => ""

namespace Machine

variable {α : Type} [Number α] {source : List Char} {chunk : Chunk α}

/-- What there is to show of a source text that is executed: its code, instruction by instruction;
the stack and the instruction at every step; and its value. -/
def Presents (α : Type) [Number α] (source : List Char) (listing trace result : String) : Prop :=
  ∃ (chunk : Chunk α) (entries : List String) (value : α),
    compile source = .ok chunk ∧ chunk.instructionsFrom? 0 = some entries ∧
      evaluate source = .ok (.ok value) ∧
      listing = "\n".intercalate ("== code ==" :: entries) ++ "\n" ∧
      trace = stdoutText (shown (({} : Machine α).load chunk).fetches entries) ∧
      result = Number.render value ++ "\n"

/-! ## The execution of compiled code -/

theorem exists_value_of_compile (h : compile source = .ok chunk) :
    ∃ value : α, evaluate source = .ok (.ok value) ∧
      ∀ (tracing : Bool) (m : Machine α), (m.run tracing chunk).outcome = .ok value := by
  obtain ⟨stop, htokens, hstop⟩ := tokens_eq_body_append source
  obtain ⟨e, hparse⟩ := (acceptable_of_compile h).exists_parse
  have hchunk := eq_extend_of_compile h hparse htokens hstop
  have houtcome : ∀ (tracing : Bool) (m : Machine α), (m.run tracing chunk).outcome = .ok e.value := by
    intro tracing m
    have hresult := result_of_postorder hchunk (size_constants_of_compile h) tracing m
    exact congrArg Prod.fst hresult
  refine ⟨e.value, ?_, houtcome⟩
  unfold evaluate
  rw [h]
  exact congrArg Except.ok (houtcome false {})

theorem exists_entries_of_compile (h : compile source = .ok chunk) :
    ∃ entries, chunk.instructionsFrom? 0 = some entries ∧
      chunk.disassemble? "code" = some ("\n".intercalate ("== code ==" :: entries)) := by
  obtain ⟨listing, hlisting⟩ := exists_disassemble?_of_compile h "code"
  obtain ⟨entries, hentries, rfl⟩ := Chunk.exists_entries_of_disassemble? hlisting
  exact ⟨entries, hentries, hlisting⟩

/-! ## Standard output -/

theorem stdoutText_run_traced {entries : List String}
    (h : chunk.instructionsFrom? 0 = some entries) (m : Machine α) :
    stdoutText (m.run true chunk).events = stdoutText (shown (m.load chunk).fetches entries) := by
  rw [← stdoutText_plain, (plain_run h m).2]

theorem stdoutText_interpret_of_refused {e : CompileError}
    (h : (compile source : Except CompileError (Chunk α)) = .error e) (settings : Settings)
    (m : Machine α) : stdoutText (m.interpret settings source).events = "" := by
  obtain ⟨d, -, rfl⟩ := exists_diagnostic_of_compile h
  exact (refuses_of_compile h settings m).stdout

/-- The settings decide what is written in front of the result, and nothing else. -/
theorem exists_presents (h : compile source = .ok chunk) :
    ∃ listing trace result, Presents α source listing trace result ∧
      ∀ (settings : Settings) (m : Machine α),
        stdoutText (m.interpret settings source).events =
          (if settings.dumping then listing else "") ++
            ((if settings.tracing then trace else "") ++ result) := by
  obtain ⟨value, hvalue, houtcome⟩ := exists_value_of_compile h
  obtain ⟨entries, hentries, hlisting⟩ := exists_entries_of_compile h
  refine ⟨_, _, _, ⟨chunk, entries, value, h, hentries, hvalue, rfl, rfl, rfl⟩, ?_⟩
  intro settings m
  have htrace : stdoutText (({} : Machine α).run settings.tracing chunk).events =
      if settings.tracing then
        stdoutText (shown (({} : Machine α).load chunk).fetches entries) else "" := by
    cases settings.tracing with
    | false => exact stdoutText_run chunk {}
    | true => exact stdoutText_run_traced hentries {}
  rw [(m.interpret_eq_interpret_new settings source).1, ← htrace]
  unfold interpret interpretWith
  rw [h]
  cases settings.dumping with
  | false => simp [houtcome, Event.stdout, Event.outputLine]
  | true =>
      simp [houtcome, Chunk.disassemble_of_listing hlisting, Except.map, Event.stdout,
        Event.outputLine, String.append_assoc]

/-! ## Standard error and the result -/

theorem stderrText_interpret (settings : Settings) (source : List Char) (m : Machine α) :
    stderrText (plain (m.interpret settings source).events) = diagnosticsText α source := by
  unfold diagnosticsText
  rcases m.refuses_or_answers settings source with hrefuses | ⟨value, hanswers⟩
  · obtain ⟨d, hcompile, hstderr⟩ := hrefuses.exists_diagnostic
    rw [hstderr, hcompile]
    simp
  · obtain ⟨chunk, hcompile, -⟩ := exists_run_of_evaluate hanswers.evaluate
    rw [hanswers.stderr, hcompile]

/-- Whether a source text compiles decides how its interpretation ends. -/
theorem result_interpret (settings : Settings) (source : List Char) (m : Machine α) :
    (m.interpret settings source).result =
      match (compile source : Except CompileError (Chunk α)) with
      | .error _ => .ok .compileError
      | .ok _ => .ok .ok := by
  rcases m.refuses_or_answers settings source with hrefuses | ⟨value, hanswers⟩
  · obtain ⟨d, hcompile, -⟩ := hrefuses.exists_diagnostic
    rw [hrefuses.result, hcompile]
  · obtain ⟨chunk, hcompile, -⟩ := exists_run_of_evaluate hanswers.evaluate
    rw [hanswers.result, hcompile]

end Machine

end LoxBytecode

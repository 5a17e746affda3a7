import LoxBytecode.Machine.Interpret
import LoxBytecode.Proofs.Machine.Listing
import LoxBytecode.Proofs.Machine.Memory

/-!
# Machines that are used again

A machine may be called in any way between two source texts: chunks of any kind are executed
on it, its stack is pushed and popped by hand, bytes and constants are read, and any of these
may fail.  None of it shows when a source text is interpreted: the machine answers as a new one
does, and never with a fault.  What it remembers is the value of the last source text that was
interpreted without an error.
-/

namespace LoxBytecode

variable {α : Type} [Number α]

/-! ## Calls -/

/-- What may be asked of a machine. -/
inductive Call (α : Type) where
  | interpret (settings : Settings) (source : List Char)
  | run (tracing : Bool) (chunk : Chunk α)
  | push (value : α)
  | pop
  | readByte
  | readConstant

/-- The value of a source text, if it has one. -/
def valueOf? (source : List Char) : Option α :=
  match evaluate source with
  | .ok (.ok value) => some value
  | _ => none

/-- The machine that a call leaves, whether it fails or not. -/
def Machine.after (m : Machine α) : Call α → Machine α
  | .interpret settings source => (m.interpret settings source).machine
  | .run tracing chunk => (m.run tracing chunk).machine
  | .push value => m.push value
  | .pop => m.pop.2
  | .readByte => m.readByte.2
  | .readConstant => m.readConstant.2

/-- The value of the source text that a call interprets without an error, if it does. -/
def Machine.answered? (m : Machine α) : Call α → Option α
  | .interpret settings source =>
    match (m.interpret settings source).result with
    | .ok .ok => valueOf? source
    | _ => none
  | _ => none

/-- The value of the last source text that is interpreted without an error in the course of
some calls. -/
def Machine.latestAnswer? (m : Machine α) : List (Call α) → Option α
  | [] => none
  | call :: later => ((m.after call).latestAnswer? later).or (m.answered? call)

/-- The events that are shown where debug messages are not. -/
def plain (events : List Event) : List Event := events.filter fun e => !e.isDebug

/-! ## Answers -/

/-- A source text that does not compile has been refused: its diagnostic has been written, and
nothing else has happened. -/
structure Interpretation.Refuses (i : Interpretation α) (source : List Char) (m : Machine α) :
    Prop where
  result : i.result = .ok .compileError
  exists_diagnostic : ∃ d : Diagnostic,
    (compile source : Except CompileError (Chunk α)) = .error ⟨[d]⟩ ∧
      stderrText (plain i.events) = d.text ++ "\n"
  stdout : stdoutText i.events = ""
  machine : i.machine = m

/-- A source text has been answered with its value, which has been written last. -/
structure Interpretation.Answers (i : Interpretation α) (source : List Char) (value : α) :
    Prop where
  result : i.result = .ok .ok
  evaluate : evaluate source = .ok (.ok value)
  stderr : stderrText (plain i.events) = ""
  stdout : ∃ shown, stdoutText i.events = shown ++ (Number.render value ++ "\n")
  stack : i.machine.stack = []
  lastValue : i.machine.lastValue = some value

/-! ## What is written -/

omit [Number α] in
theorem stderrText_plain {events : List Event}
    (h : ∀ e ∈ events, e.isDebug = true ∨ e.stderr = "") : stderrText (plain events) = "" := by
  induction events with
  | nil => rfl
  | cons e events ih =>
      have hlater := ih fun e he => h e (List.mem_cons_of_mem _ he)
      unfold plain at hlater ⊢
      by_cases hdebug : e.isDebug = true
      · simpa [hdebug] using hlater
      · have hsilent := (h e List.mem_cons_self).resolve_left hdebug
        simpa [hdebug, hsilent] using hlater

/-- A source text that does not compile has a single diagnostic. -/
theorem exists_diagnostic_of_compile {source : List Char} {e : CompileError}
    (h : (compile source : Except CompileError (Chunk α)) = .error e) :
    ∃ d, Reading.start.diagnosis? (tokens source) = some d ∧ e = ⟨[d]⟩ := by
  have hdiagnosis := compile_eq_diagnosis (α := α) source
  rw [h] at hdiagnosis
  cases hverdict : Reading.start.diagnosis? (tokens source) with
  | none =>
      rw [hverdict] at hdiagnosis
      cases hdiagnosis
  | some d =>
      rw [hverdict] at hdiagnosis
      exact ⟨d, rfl, Except.error.inj hdiagnosis⟩

namespace Machine

/-- What holds of debug messages, and of lines for standard output where these are traced, holds
of all events of an execution. -/
theorem forall_events_resume {p : Event → Prop} {tracing : Bool}
    (hdebug : ∀ message, p (.debug message))
    (hline : tracing = true → ∀ text, p (.outputLine text)) (m : Machine α) :
    ∀ e ∈ (m.resume tracing).events, p e := by
  induction m using execution_induction with
  | past m hend =>
      rw [resume_of_not_lt tracing hend]
      simp
  | inside m hinside ih =>
      have htrace : ∀ e ∈ (if tracing then m.trace else ([], none)).1, p e := by
        split
        · rename_i htracing
          unfold trace
          split <;> simp [hline htracing]
        · simp
      rw [resume_of_lt tracing hinside]
      dsimp only
      generalize (if tracing then m.trace else ([], none)) = shown at htrace ⊢
      split
      · exact htrace
      · cases hstep : m.step with
        | next n => exact List.forall_mem_append.mpr ⟨htrace, ih n hstep⟩
        | returned value n =>
            exact List.forall_mem_append.mpr ⟨htrace, List.forall_mem_singleton.mpr (hdebug _)⟩
        | failed fault n => exact htrace

theorem forall_events_run {p : Event → Prop} {tracing : Bool}
    (hdebug : ∀ message, p (.debug message))
    (hline : tracing = true → ∀ text, p (.outputLine text)) (chunk : Chunk α) (m : Machine α) :
    ∀ e ∈ (m.run tracing chunk).events, p e :=
  List.forall_mem_cons.mpr ⟨hdebug _, forall_events_resume hdebug hline _⟩

/-- An execution writes nothing to standard error. -/
theorem silent_run (tracing : Bool) (chunk : Chunk α) (m : Machine α) :
    ∀ e ∈ (m.run tracing chunk).events, e.isDebug = true ∨ e.stderr = "" :=
  forall_events_run (fun _ => .inl rfl) (fun _ _ => .inr rfl) chunk m

/-! ## Source texts -/

/-- Nothing that has happened to a machine shows in what it answers. -/
theorem interpret_eq_interpret_new (m : Machine α) (settings : Settings) (source : List Char) :
    (m.interpret settings source).events =
        (({} : Machine α).interpret settings source).events ∧
      (m.interpret settings source).result =
        (({} : Machine α).interpret settings source).result := by
  unfold interpret interpretWith
  cases compile (α := α) source with
  | error e => exact ⟨rfl, rfl⟩
  | ok chunk =>
      dsimp only
      split
      · exact ⟨rfl, rfl⟩
      · rw [run_eq_run_new settings.tracing chunk m]
        obtain ⟨events, outcome, n⟩ := ({} : Machine α).run settings.tracing chunk
        cases outcome with
        | ok value => exact ⟨rfl, rfl⟩
        | error fault => cases fault <;> exact ⟨rfl, rfl⟩

theorem refuses_of_compile {source : List Char} {d : Diagnostic}
    (h : (compile source : Except CompileError (Chunk α)) = .error ⟨[d]⟩) (settings : Settings)
    (m : Machine α) : (m.interpret settings source).Refuses source m := by
  have hinterpret : m.interpret settings source =
      ⟨[.debug s!"compile error: {d.text}", .complaintLine d.text], .ok .compileError, m⟩ := by
    unfold interpret interpretWith
    rw [h]
    rfl
  rw [hinterpret]
  refine ⟨rfl, ⟨d, h, ?_⟩, ?_, rfl⟩
  · simp [plain, Event.isDebug, Event.complaintLine, Event.stderr]
  · simp [Event.complaintLine, Event.stdout]

/-- How a source text is answered whose code can be listed and returns a value. -/
theorem exists_interpret_eq {source : List Char} {chunk : Chunk α} {value : α}
    {listing : String} (h : compile source = .ok chunk)
    (hlisting : chunk.disassemble? "code" = some listing) (settings : Settings) (m : Machine α)
    (houtcome : (m.run settings.tracing chunk).outcome = .ok value) :
    ∃ before, (∀ e ∈ before, e.isDebug = true ∨ e.stderr = "") ∧
      m.interpret settings source = ⟨before ++ [.outputLine (Number.render value)], .ok .ok,
        { (m.run settings.tracing chunk).machine with lastValue := some value }⟩ := by
  have hsilent := silent_run settings.tracing chunk m
  unfold interpret interpretWith
  rw [h]
  dsimp only
  let compiled := Event.debug s!"compiled {chunk.size} bytes, {chunk.constants.size} constants"
  cases settings.dumping with
  | false =>
      refine ⟨compiled :: (m.run settings.tracing chunk).events, ?_, ?_⟩
      · exact List.forall_mem_cons.mpr ⟨.inl rfl, hsilent⟩
      · simp [houtcome, compiled]
  | true =>
      refine ⟨compiled :: .outputLine listing :: (m.run settings.tracing chunk).events, ?_, ?_⟩
      · exact List.forall_mem_cons.mpr ⟨.inl rfl, List.forall_mem_cons.mpr ⟨.inr rfl, hsilent⟩⟩
      · simp [houtcome, Chunk.disassemble_of_listing hlisting, Except.map, compiled]

/-- A source text that compiles is answered with the value of its tree. -/
theorem answers_of_compile {source : List Char} {chunk : Chunk α}
    (h : compile source = .ok chunk) {e : Expr} (hparse : Parse .expression (body source) e)
    (settings : Settings) (m : Machine α) :
    (m.interpret settings source).Answers source e.value := by
  obtain ⟨stop, htokens, hstop⟩ := tokens_eq_body_append source
  have hresult : ∀ (tracing : Bool) (m : Machine α), (m.run tracing chunk).result =
      (.ok e.value, { m.load chunk with ip := chunk.size }) := fun tracing m =>
    result_of_postorder (eq_extend_of_compile h hparse htokens hstop)
      (size_constants_of_compile h) tracing m
  obtain ⟨listing, hlisting⟩ := exists_disassemble?_of_compile h "code"
  obtain ⟨houtcome, hmachine⟩ := Prod.mk.inj (hresult settings.tracing m)
  obtain ⟨before, hbefore, hinterpret⟩ := exists_interpret_eq h hlisting settings m houtcome
  rw [hinterpret]
  refine ⟨rfl, ?_, ?_, ⟨stdoutText before, ?_⟩, congrArg Machine.stack hmachine, rfl⟩
  · have hnew := congrArg Prod.fst (hresult false {})
    unfold evaluate
    rw [h]
    exact congrArg Except.ok hnew
  · refine stderrText_plain fun e he => ?_
    rcases List.mem_append.mp he with he | he
    · exact hbefore e he
    · obtain rfl := List.mem_singleton.mp he
      exact .inr rfl
  · simp [Event.outputLine, Event.stdout]

/-- Every source text is refused or answered. -/
theorem refuses_or_answers (settings : Settings) (source : List Char) (m : Machine α) :
    (m.interpret settings source).Refuses source m ∨
      ∃ value, (m.interpret settings source).Answers source value := by
  cases hcompile : (compile source : Except CompileError (Chunk α)) with
  | error e =>
      left
      obtain ⟨d, -, rfl⟩ := exists_diagnostic_of_compile hcompile
      exact refuses_of_compile hcompile settings m
  | ok chunk =>
      right
      obtain ⟨e, hparse⟩ := (acceptable_of_compile hcompile).exists_parse
      exact ⟨e.value, answers_of_compile hcompile hparse settings m⟩

/-! ## Sessions -/

omit [Number α] in
theorem lastValue_pop (m : Machine α) : m.pop.2.lastValue = m.lastValue := by
  unfold pop
  split <;> rfl

omit [Number α] in
theorem lastValue_readByte (m : Machine α) : m.readByte.2.lastValue = m.lastValue := by
  unfold readByte
  split
  · rfl
  · split <;> rfl

omit [Number α] in
theorem lastValue_readConstant (m : Machine α) :
    m.readConstant.2.lastValue = m.lastValue := by
  have hread := m.lastValue_readByte
  unfold readConstant
  split
  · rfl
  · split
    · simp_all
    · split <;> simp_all

/-- A call leaves what was remembered, unless it answers a source text. -/
theorem lastValue_after (m : Machine α) (call : Call α) :
    (m.after call).lastValue = (m.answered? call).or m.lastValue := by
  cases call with
  | interpret settings source =>
      rcases m.refuses_or_answers settings source with hrefuses | ⟨value, hanswers⟩
      · simp only [after, answered?, hrefuses.result, hrefuses.machine, Option.none_or]
      · simp only [after, answered?, hanswers.result, valueOf?, hanswers.evaluate,
          hanswers.lastValue, Option.some_or]
  | run tracing chunk => exact lastValue_resume tracing _
  | push value => rfl
  | pop => exact m.lastValue_pop
  | readByte => exact m.lastValue_readByte
  | readConstant => exact m.lastValue_readConstant

/-- What is remembered after some calls is the last value that was answered. -/
theorem lastValue_session (calls : List (Call α)) (m : Machine α) :
    (calls.foldl after m).lastValue = (m.latestAnswer? calls).or m.lastValue := by
  induction calls generalizing m with
  | nil => rfl
  | cons call calls ih =>
      rw [List.foldl_cons, ih, lastValue_after, latestAnswer?, Option.or_assoc]

/-- **A machine can be used again after anything.**  Whatever calls it has answered, and
whether these failed or not, it interprets a source text without a fault and writes just what a
new machine writes.  A text that does not compile leaves the machine as it was; any other leaves
its value, on an empty stack.  And what the machine remembers at any time is the value of the
last source text that it interpreted without an error.

Calls nest here as deep as a source text has them: a limit that the host sets to the depth of calls
is taken as not reached. -/
theorem interpret_after_calls (calls : List (Call α)) (settings : Settings)
    (source : List Char) :
    let m : Machine α := calls.foldl after {}
    let i := m.interpret settings source
    i.events = (({} : Machine α).interpret settings source).events ∧
      i.result = (({} : Machine α).interpret settings source).result ∧
      (i.Refuses source m ∨ ∃ value, i.Answers source value) ∧
      m.lastValue = ({} : Machine α).latestAnswer? calls := by
  intro m i
  obtain ⟨hevents, hresult⟩ := m.interpret_eq_interpret_new settings source
  refine ⟨hevents, hresult, m.refuses_or_answers settings source, ?_⟩
  rw [lastValue_session, Option.or_none]

end Machine

end LoxBytecode

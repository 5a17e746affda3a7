import LoxBytecode.Double.Text
import LoxBytecode.Proofs.Machine.Session

/-!
# Traces and listings

The listing of a chunk goes from one instruction to the next by what it shows of them, an
execution by the bytes that it reads.  Both stay in step: with tracing on, an execution shows
the entries of the listing in their order, from the first one on, as many as it fetches
instructions, and the stack before each of them.  The code of a source text is executed to its
last instruction, so all the entries are shown (`trace_follows_listing`).
-/

namespace LoxBytecode

namespace Machine

variable {α : Type} [Number α] {m n : Machine α} {entries : List String}

/-! ## Fetching instructions -/

/-- The machines at which an execution fetches an instruction, one after the other. -/
def fetches (m : Machine α) : List (Machine α) :=
  if m.ip < m.chunk.size then
    m :: match _h : m.step with
      | .next n => fetches n
      | _ => []
  else []
termination_by m.chunk.size - m.ip
decreasing_by
  obtain ⟨hchunk, hip⟩ := forward_of_step _h
  rw [hchunk]
  omega

theorem fetches_of_not_lt (h : ¬m.ip < m.chunk.size) : m.fetches = [] := by
  rw [fetches, if_neg h]

theorem fetches_of_next (hinside : m.ip < m.chunk.size) (hstep : m.step = .next n) :
    m.fetches = m :: n.fetches := by
  rw [fetches, if_pos hinside]
  split
  · rename_i hsame
    cases hsame.symm.trans hstep
    rfl
  · rename_i hlast
    cases hlast n hstep

theorem fetches_of_last (hinside : m.ip < m.chunk.size) (hlast : ∀ n, m.step ≠ .next n) :
    m.fetches = [m] := by
  rw [fetches, if_pos hinside]
  split
  · rename_i n hstep
    cases hlast n hstep
  · rfl

/-! ## The line of the stack -/

/-- A value that is pushed comes last in the line of the stack. -/
theorem stackLine_push (m : Machine α) (value : α) :
    (m.push value).stackLine = m.stackLine ++ s!"[ {Number.render value} ]" := by
  show "          " ++ String.join ((value :: m.stack).reverse.map _) = _
  rw [List.reverse_cons, List.map_append, String.join_append, ← String.append_assoc]
  rfl

example : ((({} : Machine Double).push (.ofNumeral ['1'])).push (.ofNumeral ['2'])).stackLine =
    "          [ 1 ][ 2 ]" := by decide +kernel

/-! ## Keeping in step -/

/-- What is shown of an execution that fetches its instructions at these machines, where the
listing has these entries: for each of the machines its stack and the entry. -/
def shown (fetched : List (Machine α)) (entries : List String) : List Event :=
  (fetched.zip entries).flatMap fun p => [.outputLine p.1.stackLine, .outputLine p.2]

theorem trace_of_entry {text : String} {next : Nat}
    (h : m.chunk.instructionAt? m.ip = some (text, next)) :
    m.trace = ([.outputLine m.stackLine, .outputLine text], none) := by
  rw [trace, Chunk.instructionAt?_eq_some_iff.mp h]

/-- A step leads to the place of the next entry. -/
theorem ip_of_step {text : String} {next : Nat} (hstep : m.step = .next n)
    (h : m.chunk.instructionAt? m.ip = some (text, next)) : n.ip = next := by
  obtain ⟨byte, op, hbyte, hop, hip⟩ := exists_opcode_of_step hstep
  exact hip.trans (Chunk.next_of_instructionAt? hbyte hop h).symm

theorem plain_resume (h : m.chunk.instructionsFrom? m.ip = some entries) :
    m.fetches.length ≤ entries.length ∧
      plain (m.resume true).events = shown m.fetches entries := by
  induction m using execution_induction generalizing entries with
  | past m hpast =>
      rw [resume_of_not_lt true hpast, fetches_of_not_lt hpast]
      exact ⟨Nat.zero_le _, rfl⟩
  | inside m hinside ih =>
      obtain ⟨text, next, later, hentry, hlater, rfl⟩ :=
        Chunk.exists_entry_of_instructionsFrom? hinside h
      rw [resume_of_lt true hinside, if_pos rfl, trace_of_entry hentry]
      cases hstep : m.step with
      | next n =>
          rw [← ip_of_step hstep hentry, ← (forward_of_step hstep).1] at hlater
          obtain ⟨hlength, hevents⟩ := ih n hstep hlater
          rw [fetches_of_next hinside hstep]
          refine ⟨Nat.succ_le_succ hlength, ?_⟩
          show .outputLine m.stackLine :: .outputLine text :: plain (n.resume true).events = _
          rw [hevents]
          rfl
      | returned value n | failed fault n =>
          -- the last instruction that is fetched, whatever the listing has behind it
          rw [fetches_of_last hinside fun n hnext => by cases hstep.symm.trans hnext]
          exact ⟨Nat.succ_le_succ (Nat.zero_le _), rfl⟩

/-! ## Executions up to the last instruction -/

/-- Only a return ends an execution with a value. -/
theorem ret_of_perform {op : Opcode} {value : α} (h : m.perform op = .returned value n) :
    op = .ret ∧ n.ip = m.ip := by
  cases op with
  | ret =>
      have hpop := m.ip_pop
      simp only [perform] at h
      split at h
      · rename_i behind hvalue
        cases h
        rw [hvalue] at hpop
        exact ⟨rfl, hpop⟩
      · cases h
  | operator op =>
      simp only [perform] at h
      split at h
      · cases h
      · split at h <;> cases h
  | constant | negate =>
      simp only [perform] at h
      split at h <;> cases h

theorem ip_of_returned {value : α} {text : String} {next : Nat}
    (hstep : m.step = .returned value n)
    (h : m.chunk.instructionAt? m.ip = some (text, next)) : n.ip = next := by
  obtain ⟨byte, hbyte⟩ := exists_byte_of_step fun fault l hfailed => by
    cases hstep.symm.trans hfailed
  rw [step_of_byte hbyte] at hstep
  split at hstep
  · rename_i op hop
    obtain ⟨rfl, hip⟩ := ret_of_perform hstep
    exact hip.trans (Chunk.next_of_instructionAt? hbyte hop h).symm
  · cases hstep

/-- Where an execution returns at the end of the code, it has come by all the entries ahead. -/
theorem length_fetches_of_returned {value : α} (h : m.chunk.instructionsFrom? m.ip = some entries)
    (hresult : (m.resume true).result = (.ok value, n)) (hend : n.ip = m.chunk.size) :
    m.fetches.length = entries.length := by
  induction m using execution_induction generalizing entries with
  | past m hpast =>
      rw [resume_of_not_lt true hpast] at hresult
      cases hresult
  | inside m hinside ih =>
      obtain ⟨text, next, later, hentry, hlater, rfl⟩ :=
        Chunk.exists_entry_of_instructionsFrom? hinside h
      rw [result_resume true (by rw [hentry]; rfl)] at hresult
      cases hstep : m.step with
      | next k =>
          rw [hstep] at hresult
          have hchunk := (forward_of_step hstep).1
          rw [← ip_of_step hstep hentry, ← hchunk] at hlater
          rw [← hchunk] at hend
          rw [fetches_of_next hinside hstep, List.length_cons, List.length_cons,
            ih k hstep hlater hresult hend]
      | returned value' k =>
          rw [hstep] at hresult
          cases hresult
          have hnext := ip_of_returned hstep hentry
          rw [← hnext, hend, Chunk.instructionsFrom?_of_end (Nat.lt_irrefl _)] at hlater
          cases hlater
          rw [fetches_of_last hinside fun n hnext => by cases hstep.symm.trans hnext]
          rfl
      | failed fault k =>
          rw [hstep] at hresult
          cases hresult

/-! ## Whole executions -/

theorem plain_run {chunk : Chunk α} (h : chunk.instructionsFrom? 0 = some entries)
    (m : Machine α) :
    (m.load chunk).fetches.length ≤ entries.length ∧
      plain (m.run true chunk).events = shown (m.load chunk).fetches entries :=
  plain_resume (m := m.load chunk) h

/-- The code of a source text is executed to its last instruction. -/
theorem length_fetches_of_compile {source : List Char} {chunk : Chunk α}
    (hcompile : compile source = .ok chunk) (h : chunk.instructionsFrom? 0 = some entries)
    (m : Machine α) :
    (m.load chunk).fetches.length = entries.length ∧
      ∃ value, (m.run true chunk).outcome = .ok value := by
  obtain ⟨stop, htokens, hstop⟩ := tokens_eq_body_append source
  obtain ⟨e, hparse⟩ := (acceptable_of_compile hcompile).exists_parse
  have hresult := result_of_postorder (eq_extend_of_compile hcompile hparse htokens hstop)
    (size_constants_of_compile hcompile) true m
  exact ⟨length_fetches_of_returned (m := m.load chunk) h hresult rfl, e.value,
    congrArg Prod.fst hresult⟩

/-- What is shown with the code dumped and its execution traced. -/
theorem plain_interpret {source : List Char} {chunk : Chunk α} {listing : String} {value : α}
    (hcompile : compile source = .ok chunk) (h : chunk.disassemble? "code" = some listing)
    (m : Machine α) (houtcome : (m.run true chunk).outcome = .ok value) :
    plain (m.interpret ⟨true, true⟩ source).events =
      .outputLine listing :: plain (m.run true chunk).events ++
        [.outputLine (Number.render value)] := by
  unfold interpret interpretWith
  rw [hcompile]
  simp [Chunk.disassemble_of_listing h, Except.map, houtcome, plain, Event.isDebug,
    Event.outputLine]

end Machine

variable {α : Type} [Number α]

/-- **Traces follow listings.**  Of a chunk that can be listed, a traced execution shows the first
entries of the listing, as many as it fetches instructions, each below the stack before it.  What
a source text compiles to can be listed, and is executed to the end: dumped and traced, it shows
the listing and then all its entries once more, before the value. -/
theorem trace_follows_listing :
    (∀ (chunk : Chunk α) (name listing : String), chunk.disassemble? name = some listing →
      ∃ entries, chunk.instructionsFrom? 0 = some entries ∧
        listing = "\n".intercalate (s!"== {name} ==" :: entries) ∧
        ∀ m : Machine α, (m.load chunk).fetches.length ≤ entries.length ∧
          plain (m.run true chunk).events = Machine.shown (m.load chunk).fetches entries) ∧
      ∀ (source : List Char) (chunk : Chunk α), compile source = .ok chunk →
        ∃ entries, chunk.instructionsFrom? 0 = some entries ∧
          ∀ m : Machine α, (m.load chunk).fetches.length = entries.length ∧
            ∃ value, (m.run true chunk).outcome = .ok value ∧
              plain (m.interpret ⟨true, true⟩ source).events =
                .outputLine ("\n".intercalate ("== code ==" :: entries)) ::
                  Machine.shown (m.load chunk).fetches entries ++
                    [.outputLine (Number.render value)] := by
  constructor
  · intro chunk name listing hlisting
    obtain ⟨entries, hentries, htext⟩ := Chunk.exists_entries_of_disassemble? hlisting
    exact ⟨entries, hentries, htext, Machine.plain_run hentries⟩
  · intro source chunk hcompile
    obtain ⟨listing, hlisting⟩ := exists_disassemble?_of_compile hcompile "code"
    obtain ⟨entries, hentries, rfl⟩ := Chunk.exists_entries_of_disassemble? hlisting
    refine ⟨entries, hentries, fun m => ?_⟩
    obtain ⟨hlength, value, houtcome⟩ := Machine.length_fetches_of_compile hcompile hentries m
    have hevents := Machine.plain_interpret hcompile hlisting m houtcome
    rw [(Machine.plain_run hentries m).2] at hevents
    exact ⟨hlength, value, houtcome, hevents⟩

/-- Index 5 is missing, so of three instructions the last one is not fetched; of compiled code all
are. -/
theorem trace_missing_constant :
    let chunk : Chunk Double :=
      { code := #[0, 0, 0, 5, 7], lines := #[1, 1, 2, 2, 2], constants := #[⟨0⟩] }
    let m : Machine Double := {}
    let first := "0000    1 OP_CONSTANT         0 '0'"
    let second := "0002    2 OP_CONSTANT         5 '?'"
    (∃ listing, chunk.disassemble? "code" = some listing ∧
        listing = "\n".intercalate
          ["== code ==", first, second, "0004    | Unknown opcode 7"]) ∧
      (m.load chunk).fetches.length = 2 ∧
      plain (m.run true chunk).events =
        [.outputLine "          ", .outputLine first,
          .outputLine "          [ 0 ]", .outputLine second] ∧
      ∃ (compiled : Chunk Double) (entries : List String),
        compile "1+2".toList = .ok compiled ∧ compiled.instructionsFrom? 0 = some entries ∧
          (m.load compiled).fetches.length = entries.length := by
  intro chunk m first second
  have hlisting : chunk.disassemble? "code" = some ("\n".intercalate
      ["== code ==", first, second, "0004    | Unknown opcode 7"]) := by decide +kernel
  have hentries' : chunk.instructionsFrom? 0 =
      some [first, second, "0004    | Unknown opcode 7"] := by decide +kernel
  have hfits : Reading.start.diagnosis? (tokens "1+2".toList) = none := by decide +kernel
  have hcompile := compile_eq_ok (α := Double) hfits
  obtain ⟨hgeneral, hcompiled⟩ := trace_follows_listing (α := Double)
  obtain ⟨entries, hentries, -, hruns⟩ := hgeneral chunk "code" _ hlisting
  obtain rfl := Option.some.inj (hentries'.symm.trans hentries)
  obtain ⟨later, hlater, hwhole⟩ := hcompiled _ _ hcompile
  refine ⟨⟨_, hlisting, rfl⟩, by decide +kernel, ?_, _, later, hcompile, hlater, (hwhole m).1⟩
  rw [(hruns m).2]
  decide +kernel

end LoxBytecode

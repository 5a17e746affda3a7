import LoxBytecode.Proofs.Compilation.Reading

/-!
# The diagnostic of a source text

A source text fails to compile just when a reader of its tokens has something to say,
and then that one diagnostic is all that the failed compilation carries.  What follows
the first fault is still compiled, but nothing is heard of it any more.
-/

namespace LoxBytecode

namespace Compilation

variable {α : Type}

theorem Stops.misfit?_trailing {c : Compilation α} (h : c.Stops .assignment)
    (hkind : c.current.kind ≠ .eof) :
    (c.reading false []).misfit? c.current.kind = some .trailing := by
  simp [Reading.misfit?, reading, hkind, h.not_mem_joiningKinds]

/-- Behind a whole expression only the end of the text fits. -/
theorem expect_eof {c : Compilation α} (hintact : c.Intact) (hstops : c.Stops .assignment) :
    (c.expect .eof Misfit.trailing.message).window.Reported
      ((c.reading false []).diagnosis? c.ahead) := by
  by_cases hkind : c.current.kind = .eof
  · have hlast : c.ahead = [c.current] := Window.ahead_of_eof hkind
    have hfit : (c.reading false []).misfit? c.current.kind = none := by
      simp [Reading.misfit?, reading, hkind]
    rw [expect_of_kind hkind, hlast, Reading.diagnosis?_fit hintact.sound hfit]
    rcases hintact.advance with ⟨hadvance, -⟩ | ⟨t, later, -, hahead, -⟩
    · exact hadvance.clean
    · rw [hlast] at hahead
      cases hahead
  · have hmisfit := hstops.misfit?_trailing hkind
    have hverdict := Reading.diagnosis?_misfit_behind hintact.sound hmisfit rfl c.ahead.tail
    rw [expect_of_ne hkind]
    exact hverdict ▸ hintact.reportAt hintact.sound .trailing

variable [Number α]

theorem reaches_complete (c : Compilation α) : c.Reaches c.complete :=
  .tail (.trans (reaches_climb .assignment c) (reaches_expect _ _ _)) (.emit _ _ _)

/-- The first report of a whole compilation is what a reader of the tokens says. -/
theorem reported_complete (source : List Char) :
    (complete (ofSource source : Compilation α)).window.Reported
      (Reading.start.diagnosis? (tokens source)) := by
  rcases ofSource_intact_or_reported (α := α) source with
    ⟨hintact, htokens⟩ | ⟨t, later, herror, htokens, hreported⟩
  · have hclimb := climbs_climb .assignment (ofSource source : Compilation α) [] hintact rfl
      fun _ => rfl
    rw [htokens]
    cases hclimb with
    | failed hfailed hverdict =>
        have hreaches : (climb .assignment (ofSource source : Compilation α)).1.Reaches
            (complete (ofSource source)) := .tail (reaches_expect _ _ _) (.emit _ _ _)
        exact hverdict ▸ hreaches.reported hfailed
    | passed hpassed _ _ hverdict hphrase =>
        exact hverdict ▸ expect_eof hpassed hphrase.2
  · rw [htokens, Reading.diagnosis?_error _ herror]
    exact Reaches.reported (reaches_complete (ofSource source)) hreported

end Compilation

/-- A source text compiles just when a reader of its tokens has nothing to say. -/
theorem compile_eq_diagnosis {α : Type} [Number α] (source : List Char) :
    (compile source : Except CompileError (Chunk α)) =
      match Reading.start.diagnosis? (tokens source) with
      | some found => .error ⟨[found]⟩
      | none => .ok (Compilation.ofSource source).complete.chunk := by
  have hreported : (Compilation.ofSource source : Compilation α).complete.window.Reported _ :=
    Compilation.reported_complete source
  unfold compile
  dsimp only
  rw [hreported.hasFailed, hreported.diagnostics]
  cases Reading.start.diagnosis? (tokens source) with
  | none => rfl
  | some found => rfl

theorem compile_eq_ok {α : Type} [Number α] {source : List Char}
    (h : Reading.start.diagnosis? (tokens source) = none) :
    compile source = .ok (Compilation.ofSource source : Compilation α).complete.chunk := by
  rw [compile_eq_diagnosis, h]

theorem eq_chunk_of_compile {α : Type} [Number α] {source : List Char} {chunk : Chunk α}
    (h : compile source = .ok chunk) :
    (Compilation.ofSource source : Compilation α).complete.window.hasFailed = false ∧
      (Compilation.ofSource source).complete.chunk = chunk := by
  unfold compile at h
  dsimp only at h
  split at h
  · cases h
  · rename_i hfine
    exact ⟨by simpa using hfine, Except.ok.inj h⟩

/-- **The diagnostic of a source text that does not compile.**  It is the only one, and
it is what a reader says who takes in the tokens from left to right: the first error if
it is met before the first token that does not fit, and otherwise that token. -/
theorem compile_eq_error_iff {α : Type} [Number α] (source : List Char) (e : CompileError) :
    (compile source : Except CompileError (Chunk α)) = .error e ↔
      ∃ found, Reading.start.diagnosis? (tokens source) = some found ∧ e = ⟨[found]⟩ := by
  rw [compile_eq_diagnosis]
  cases Reading.start.diagnosis? (tokens source) with
  | none => simp
  | some found =>
      constructor
      · intro h
        cases h
        exact ⟨found, rfl, rfl⟩
      · rintro ⟨_, h, rfl⟩
        cases h
        rfl

/-- The faulty text behind the operand at fault has been met when the operand is reported. -/
example : Reading.start.diagnosis? (tokens "1 + )@".toList) =
    some ⟨"Unexpected character.", some 1, ""⟩ := by decide +kernel

example : Reading.start.diagnosis? (tokens "(1 2 @".toList) =
    some ⟨"Expect ')' after expression.", some 1, " at '2'"⟩ := by decide +kernel

end LoxBytecode

import LoxBytecode.Proofs.Cursor.Numeral
import LoxBytecode.Proofs.Machine.Session

/-!
# Interpreting a numeral

A source text that is a numeral, with or without a minus sign in front of it, compiles, and its
value is the number that the numeral denotes, or the negation of that number.  Where nothing is
shown beside the results, the value of a source text is all that is written to standard output.
-/

namespace LoxBytecode

/-! ## Reading -/

namespace Reading

variable {sign t stop : Token}

theorem diagnosis?_of_kind {r : Reading} {kind : Token.Kind} (hkind : t.kind = kind)
    (hsound : kind ≠ .error) (hfit : r.misfit? kind = none) (later : List Token) :
    r.diagnosis? (t :: later) = (r.after kind).diagnosis? later := by
  subst hkind
  exact diagnosis?_fit hsound hfit later

/-- Behind a numeral all negations are closed, so the text may end there. -/
theorem diagnosis?_numeral {opened : List Opener} (hopened : closeNegations opened = [])
    (hnumber : t.kind = .number) (hstop : stop.kind = .eof) :
    diagnosis? ⟨true, opened, 0⟩ [t, stop] = none :=
  calc diagnosis? ⟨true, opened, 0⟩ [t, stop]
      = diagnosis? ⟨false, closeNegations opened, 1⟩ [stop] :=
        diagnosis?_of_kind hnumber (by decide) rfl [stop]
    _ = diagnosis? ⟨false, [], 1⟩ [stop] := by rw [hopened]
    _ = diagnosis? ⟨true, [], 1⟩ [] := diagnosis?_of_kind hstop (by decide) rfl []
    _ = none := rfl

theorem diagnosis?_negated_numeral (hsign : sign.kind = .minus) (hnumber : t.kind = .number)
    (hstop : stop.kind = .eof) : start.diagnosis? [sign, t, stop] = none :=
  calc start.diagnosis? [sign, t, stop]
      = diagnosis? ⟨true, [.negation], 0⟩ [t, stop] :=
        diagnosis?_of_kind hsign (by decide) rfl [t, stop]
    _ = none := diagnosis?_numeral rfl hnumber hstop

end Reading

/-! ## Values -/

namespace Machine

variable {α : Type} [Number α] {text layout : List Char}

/-- How a source text is answered whose tokens a reader has nothing to say about. -/
theorem answers_of_tokens {source : List Char} {before : List Token} {stop : Token} {e : Expr}
    (htokens : tokens source = before ++ [stop]) (hparse : Parse .expression before e)
    (hfits : Reading.start.diagnosis? (before ++ [stop]) = none) (settings : Settings)
    (m : Machine α) : (m.interpret settings source).Answers source e.value := by
  have hbody : body source = before := by rw [body, htokens, List.dropLast_concat]
  rw [← htokens] at hfits
  exact answers_of_compile (compile_eq_ok hfits) (hbody ▸ hparse) settings m

theorem answers_numeral (htext : Spells .number text) (hlayout : Layout layout [])
    (settings : Settings) (m : Machine α) :
    (m.interpret settings (text ++ layout)).Answers (text ++ layout) (Number.ofNumeral text) := by
  obtain ⟨t, stop, htokens, hnumber, rfl, hstop⟩ := tokens_numeral htext hlayout
  have hsplit : tokens (t.lexeme ++ layout) = [t] ++ [stop] := htokens
  exact answers_of_tokens hsplit (.ofTerm (.ofFactor (.number hnumber)))
    (Reading.diagnosis?_numeral rfl hnumber hstop) settings m

theorem answers_negated_numeral (htext : Spells .number text) (hlayout : Layout layout [])
    (settings : Settings) (m : Machine α) :
    (m.interpret settings ('-' :: (text ++ layout))).Answers ('-' :: (text ++ layout))
      (-Number.ofNumeral text) := by
  obtain ⟨sign, t, stop, htokens, hsign, hnumber, rfl, hstop⟩ :=
    tokens_negated_numeral htext hlayout
  have hsplit : tokens ('-' :: (t.lexeme ++ layout)) = [sign, t] ++ [stop] := htokens
  exact answers_of_tokens hsplit
    (.ofTerm (.ofFactor (.negation hsign (.number hnumber))))
    (Reading.diagnosis?_negated_numeral hsign hnumber hstop) settings m

/-! ## Standard output -/

theorem stdoutText_of_quiet {events : List Event} (h : ∀ e ∈ events, e.stdout = "") :
    stdoutText events = "" := by
  induction events with
  | nil => rfl
  | cons e events ih =>
      obtain ⟨hquiet, hlater⟩ := List.forall_mem_cons.mp h
      rw [stdoutText_cons, hquiet, ih hlater, String.empty_append]

/-- An execution that is not traced writes nothing to standard output. -/
theorem stdoutText_run (chunk : Chunk α) (m : Machine α) :
    stdoutText (m.run false chunk).events = "" :=
  stdoutText_of_quiet (forall_events_run (fun _ => rfl) (by simp) chunk m)

theorem exists_run_of_evaluate {source : List Char} {value : α}
    (h : evaluate source = .ok (.ok value)) :
    ∃ chunk : Chunk α, compile source = .ok chunk ∧
      ∀ m : Machine α, (m.run false chunk).outcome = .ok value := by
  unfold evaluate at h
  cases hcompile : (compile source : Except CompileError (Chunk α)) with
  | error e =>
      rw [hcompile] at h
      cases h
  | ok chunk =>
      rw [hcompile] at h
      refine ⟨chunk, rfl, fun m => ?_⟩
      rw [run_eq_run_new]
      exact Except.ok.inj h

/-- Where nothing else is to be shown, the value of a source text is all that is written. -/
theorem stdoutText_interpret {source : List Char} {value : α}
    (h : evaluate source = .ok (.ok value)) (m : Machine α) :
    stdoutText (m.interpret {} source).events = Number.render value ++ "\n" := by
  obtain ⟨chunk, hcompile, hruns⟩ := exists_run_of_evaluate h
  have hquiet := stdoutText_run chunk m
  unfold interpret interpretWith
  rw [hcompile]
  simp [hruns m, hquiet, Event.stdout, Event.outputLine]

/-- The value of a source text is written last. -/
theorem exists_stdoutText_interpret {source : List Char} {value : α}
    (h : evaluate source = .ok (.ok value)) (settings : Settings) (m : Machine α) :
    ∃ shown, stdoutText (m.interpret settings source).events =
        shown ++ (Number.render value ++ "\n") ∧ (settings = {} → shown = "") := by
  by_cases hsettings : settings = {}
  · subst hsettings
    exact ⟨"", by rw [stdoutText_interpret h, String.empty_append], fun _ => rfl⟩
  rcases m.refuses_or_answers settings source with hrefuses | ⟨value', hanswers⟩
  · obtain ⟨d, hrefused, -⟩ := hrefuses.exists_diagnostic
    obtain ⟨chunk, hcompile, -⟩ := exists_run_of_evaluate h
    cases hrefused.symm.trans hcompile
  · obtain rfl : value' = value := Except.ok.inj (Except.ok.inj (hanswers.evaluate.symm.trans h))
    obtain ⟨shown, hstdout⟩ := hanswers.stdout
    exact ⟨shown, hstdout, fun hplain => absurd hplain hsettings⟩

end Machine

end LoxBytecode

import LoxBytecode.Proofs.Compilation.Diagnosis
import LoxBytecode.Proofs.Reading.Phrase
import Mathlib.Tactic.ByContra

/-!
# The language of the compiler

A source text compiles just when its tokens before the end form an expression, none of
them being an error, and the expression stays within the bounds for nesting and for
numerals.  That the compiler takes in no more follows from what it passes as a reader;
that it takes in all of it follows from what a reader gets through.
-/

namespace LoxBytecode

/-- The tokens of a source text before the end of the text. -/
def body (source : List Char) : List Token := (tokens source).dropLast

theorem tokens_eq_body_append (source : List Char) :
    ∃ stop, tokens source = body source ++ [stop] ∧ stop.kind = .eof := by
  obtain ⟨before, stop, hsplit, hstop, -⟩ := (Cursor.ofText source).readAll_eq_append
  have hbody : body source = before := by
    rw [body, tokens, hsplit, List.dropLast_concat]
  exact ⟨stop, hbody ▸ hsplit, hstop⟩

/-- What a source text has to be like to compile. -/
structure Acceptable (source : List Char) : Prop where
  no_error : ∀ t ∈ tokens source, t.kind ≠ .error
  /-- The tokens form an expression. -/
  expression : ∃ depth, Phrase.Expression (body source) depth
  /-- No token stands inside more than 128 groupings and negations. -/
  nesting : ∀ depth, Phrase.Expression (body source) depth → depth ≤ 128
  numerals : countNumerals (body source) ≤ 256

namespace Compilation

variable {α : Type}

/-- Where a reader has nothing to say behind an expression, only the end is left. -/
theorem ahead_of_diagnosis?_eq_none {c : Compilation α} (hintact : c.Intact)
    (hstops : c.Stops .assignment) (h : (c.reading false []).diagnosis? c.ahead = none) :
    c.ahead = [c.current] := by
  by_cases hkind : c.current.kind = .eof
  · exact Window.ahead_of_eof hkind
  · have hmisfit := hstops.misfit?_trailing hkind
    obtain ⟨found, hfound⟩ :=
      Reading.exists_diagnosis?_of_misfit hintact.sound hmisfit c.ahead.tail
    cases h.symm.trans hfound

theorem exists_expression (α : Type) [Number α] {source : List Char}
    (h : Reading.start.diagnosis? (tokens source) = none) :
    ∃ depth, Phrase.Expression (body source) depth := by
  rcases ofSource_intact_or_reported (α := α) source with
    ⟨hintact, htokens⟩ | ⟨t, later, herror, htokens, -⟩
  · have hclimb := climbs_climb .assignment (ofSource source : Compilation α) [] hintact rfl
      fun _ => rfl
    rw [htokens] at h
    cases hclimb with
    | failed _ hverdict => cases h.symm.trans hverdict
    | @passed taken hpassed _ hsplit hverdict hphrase =>
        obtain ⟨⟨depth, hchain⟩, hstops⟩ := hphrase
        have hlast := ahead_of_diagnosis?_eq_none hpassed hstops (hverdict.symm.trans h)
        have hbody : body source = taken := by
          rw [body, htokens, hsplit, hlast, List.dropLast_concat]
        exact ⟨depth, hbody ▸ hchain.mono (Nat.zero_le _)⟩
  · rw [htokens, Reading.diagnosis?_error _ herror] at h
    cases h

end Compilation

/-! ## The two inclusions -/

theorem HasRoom.of_diagnosis?_eq_none {source : List Char}
    (h : Reading.start.diagnosis? (tokens source) = none) {depth : Nat}
    (hphrase : Phrase.Expression (body source) depth) : HasRoom [] 0 depth (body source) := by
  obtain ⟨stop, htokens, -⟩ := tokens_eq_body_append source
  by_contra hroom
  have hadmits : (PhraseSort.chain .none).Admits [] := rfl
  obtain ⟨found, hfound⟩ := hphrase.exists_diagnosis? hadmits (Nat.zero_le _) hroom [stop]
  rw [htokens] at h
  cases h.symm.trans hfound

/-- An expression that there is room for is all right as a source text. -/
theorem Phrase.diagnosis?_eq_none {source : List Char} {depth : Nat}
    (h : Phrase.Expression (body source) depth) (hroom : HasRoom [] 0 depth (body source)) :
    Reading.start.diagnosis? (tokens source) = none := by
  obtain ⟨stop, htokens, hstop⟩ := tokens_eq_body_append source
  have hadmits : (PhraseSort.chain .none).Admits [] := rfl
  have hfit (n : Nat) : Reading.misfit? ⟨false, [], n⟩ stop.kind = none := by
    simp [Reading.misfit?, hstop, joiningKinds]
  calc Reading.start.diagnosis? (tokens source)
      = Reading.diagnosis? ⟨false, [], 0 + countNumerals (body source)⟩ [stop] := by
        rw [htokens]
        exact h.diagnosis?_append hadmits hroom [stop]
    _ = none := Reading.diagnosis?_fit (by rw [hstop]; decide) (hfit _) []

theorem Acceptable.diagnosis?_eq_none {source : List Char} (h : Acceptable source) :
    Reading.start.diagnosis? (tokens source) = none := by
  obtain ⟨depth, hphrase⟩ := h.expression
  exact hphrase.diagnosis?_eq_none
    ⟨by simpa using h.nesting depth hphrase, by simpa using h.numerals⟩

theorem acceptable_iff_diagnosis?_eq_none (α : Type) [Number α] (source : List Char) :
    Acceptable source ↔ Reading.start.diagnosis? (tokens source) = none := by
  refine ⟨Acceptable.diagnosis?_eq_none, fun h => ?_⟩
  obtain ⟨depth, hphrase⟩ := Compilation.exists_expression α h
  constructor
  · exact Reading.sound_of_diagnosis?_eq_none h
  · exact ⟨depth, hphrase⟩
  · intro depth' hphrase'
    simpa using (HasRoom.of_diagnosis?_eq_none h hphrase').1
  · simpa using (HasRoom.of_diagnosis?_eq_none h hphrase).2

theorem acceptable_of_compile {α : Type} [Number α] {source : List Char} {chunk : Chunk α}
    (h : compile source = .ok chunk) : Acceptable source := by
  rw [acceptable_iff_diagnosis?_eq_none α]
  rw [compile_eq_diagnosis] at h
  cases hverdict : Reading.start.diagnosis? (tokens source) with
  | none => rfl
  | some found =>
      rw [hverdict] at h
      cases h

/-- **The language of the compiler.**  Just the acceptable source texts compile, and all
others are refused. -/
theorem compile_eq_ok_iff_acceptable {α : Type} [Number α] (source : List Char) :
    ((∃ chunk : Chunk α, compile source = .ok chunk) ↔ Acceptable source) ∧
      ((∃ e, (compile source : Except CompileError (Chunk α)) = .error e) ↔
        ¬Acceptable source) := by
  rw [acceptable_iff_diagnosis?_eq_none α, compile_eq_diagnosis]
  cases Reading.start.diagnosis? (tokens source) with
  | none => simp
  | some found => simp

end LoxBytecode

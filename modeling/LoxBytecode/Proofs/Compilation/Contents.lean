import LoxBytecode.Proofs.Compilation.Postorder
import LoxBytecode.Proofs.Grammar.Alike

/-!
# The compiler looks at contents

Of a token the compiler looks at the kind and the text.  Where the token stands goes into line
numbers and nothing else: sources whose tokens have the same contents compile to the same code
and constants, or are refused in the same words (`unplaced_compile_of_contents`).
-/

namespace LoxBytecode

/-! ## The contents of a source text -/

theorem contents_tokens (source : List Char) :
    (tokens source).map Token.content = (body source).map Token.content ++ [.stop] := by
  obtain ⟨stop, htokens, hstop⟩ := tokens_eq_body_append source
  have hmem : stop ∈ tokens source := by simp [htokens]
  rw [htokens, List.map_append, List.map_singleton, content_of_eof hmem hstop]

theorem contents_body_of_yields {source : List Char} {contents : List Token.Content}
    (h : Yields source contents) : (body source).map Token.content = contents :=
  List.append_cancel_right ((contents_tokens source).symm.trans (contents_of_yields h))

theorem kind_ne_eof_of_mem_body {source : List Char} {t : Token} (h : t ∈ body source) :
    t.kind ≠ .eof := by
  obtain ⟨before, stop, hsplit, -, hbefore⟩ := (Cursor.ofText source).readAll_eq_append
  rw [body, tokens, hsplit, List.dropLast_concat] at h
  exact hbefore t h

/-! ## What is left without lines -/

/-- What a diagnostic says, apart from the line. -/
def Diagnostic.wording (d : Diagnostic) : String × String := (d.message, d.location)

/-- What a compilation comes to, apart from lines: code and constants, or what is said of the
faults. -/
def unplaced {α : Type} :
    Except CompileError (Chunk α) → Except (List (String × String)) (Array UInt8 × Array α)
  | .ok chunk => .ok (chunk.code, chunk.constants)
  | .error e => .error (e.diagnostics.map Diagnostic.wording)

theorem Misfit.wording_diagnostic (m : Misfit) {t u : Token} (h : t.content = u.content) :
    (m.diagnostic t).wording = (m.diagnostic u).wording := by
  have hkind : t.kind = u.kind := Token.kind_eq_of_content h
  have hlexeme : t.lexeme = u.lexeme := congrArg Token.Content.text h
  simp only [Misfit.diagnostic, Diagnostic.wording, hkind, hlexeme]

/-- A reader says the same of the same contents, where none of them is an error. -/
theorem Reading.wording_diagnosis? {r : Reading} {tokens others : List Token}
    (hsame : others.map Token.content = tokens.map Token.content)
    (hsound : ∀ t ∈ tokens, t.kind ≠ .error) :
    (r.diagnosis? others).map Diagnostic.wording =
      (r.diagnosis? tokens).map Diagnostic.wording := by
  induction tokens generalizing r others with
  | nil => rw [List.map_eq_nil_iff.mp hsame]
  | cons t later ih =>
      obtain ⟨u, others, rfl, hu, hothers⟩ := List.map_eq_cons_iff.mp hsame
      have hkind : u.kind = t.kind := Token.kind_eq_of_content hu
      obtain ⟨ht, hlater⟩ := List.forall_mem_cons.mp hsound
      cases hmisfit : r.misfit? t.kind with
      | none =>
          rw [diagnosis?_fit ht hmisfit, diagnosis?_fit (hkind ▸ ht) (hkind ▸ hmisfit), hkind]
          exact ih hothers hlater
      | some m =>
          -- the kinds behind the token are looked at as well, for an error
          have hnext : ∀ v ∈ others.head?, v.kind ≠ .error := by
            intro v hv
            obtain ⟨others, rfl⟩ := List.head?_eq_some_iff.mp hv
            obtain ⟨w, _, rfl, hw, -⟩ := List.map_eq_cons_iff.mp hothers.symm
            rw [← Token.kind_eq_of_content hw]
            exact (List.forall_mem_cons.mp hlater).1
          have hnext' : ∀ v ∈ later.head?, v.kind ≠ .error :=
            fun v hv => hlater v (List.mem_of_mem_head? hv)
          rw [diagnosis?_misfit ht hmisfit hnext',
            diagnosis?_misfit (hkind ▸ ht) (hkind ▸ hmisfit) hnext]
          exact congrArg some (m.wording_diagnostic hu)

/-! ## Code and constants -/

section Compile

variable {α : Type} [Number α] {source other : List Char} {chunk chunk' : Chunk α} {e e' : Expr}

/-- Code and constants of a source text can be told from its tree alone. -/
theorem code_of_compile (h : compile source = .ok chunk)
    (hparse : Parse .expression (body source) e) :
    chunk.code.toList = (e.postorder 0).map Prod.fst ++ [Opcode.ret.byte] ∧
      chunk.constants.toList = e.numbers := by
  obtain ⟨stop, htokens, hstop⟩ := tokens_eq_body_append source
  rw [eq_extend_of_compile h hparse htokens hstop]
  simp [Chunk.extend]

theorem code_eq_of_alike (h : compile source = .ok chunk) (h' : compile other = .ok chunk')
    (hparse : Parse .expression (body source) e) (hparse' : Parse .expression (body other) e')
    (halike : e'.Alike e) : chunk'.code = chunk.code ∧ chunk'.constants = chunk.constants := by
  obtain ⟨hcode, hconstants⟩ := code_of_compile h hparse
  obtain ⟨hcode', hconstants'⟩ := code_of_compile h' hparse'
  constructor
  · apply Array.toList_inj.mp
    rw [hcode, hcode', halike.code 0]
  · apply Array.toList_inj.mp
    rw [hconstants, hconstants', halike.numbers]

/-- Sources whose tokens have the same contents compile alike, if none of them is an error. -/
theorem unplaced_compile_of_contents
    (hsame : (tokens other).map Token.content = (tokens source).map Token.content)
    (hsound : ∀ t ∈ tokens source, t.kind ≠ .error) :
    unplaced (compile other : Except CompileError (Chunk α)) = unplaced (compile source) := by
  have hwording := Reading.wording_diagnosis? (r := .start) hsame hsound
  rw [contents_tokens, contents_tokens] at hsame
  have hbodies := List.append_cancel_right hsame
  cases hverdict : Reading.start.diagnosis? (tokens source) with
  | none =>
      rw [hverdict, Option.map_none, Option.map_eq_none_iff] at hwording
      have h := compile_eq_ok (α := α) hverdict
      have h' := compile_eq_ok (α := α) hwording
      obtain ⟨e, hparse⟩ := (acceptable_of_compile h).exists_parse
      obtain ⟨e', hparse', halike⟩ := hparse.exists_alike hbodies
      obtain ⟨hcode, hconstants⟩ := code_eq_of_alike h h' hparse hparse' halike
      rw [h, h', unplaced, unplaced, hcode, hconstants]
  | some found =>
      rw [hverdict, Option.map_some, Option.map_eq_some_iff] at hwording
      obtain ⟨found', hverdict', hsaid⟩ := hwording
      rw [compile_eq_diagnosis, compile_eq_diagnosis, hverdict, hverdict']
      simp [unplaced, hsaid]

end Compile

end LoxBytecode

import LoxBytecode.Proofs.Compilation.Contents

/-!
# Layout does not matter

The lexemes of a source text may be put together again with any other separators between them:
the text that results is read as tokens with the same contents, since a separator ends the token
in front of it and is skipped as a whole.  What the text compiles to differs in line numbers
only (`compile_respaced`).
-/

namespace LoxBytecode

/-- Lexemes with separators between them.  There is one separator less than there are lexemes. -/
def weave : List (List Char) → List (List Char) → List Char
  | lexeme :: lexemes, separator :: separators => lexeme ++ (separator ++ weave lexemes separators)
  | lexemes, _ => lexemes.flatten

/-- What may stand behind the last lexeme: nothing, or a separator. -/
def IsTrail (trail : List Char) : Prop := trail = [] ∨ IsSeparator trail

theorem IsTrail.isGap {trail : List Char} (h : IsTrail trail) : IsGap trail := by
  rcases h with rfl | hseparator
  · exact .none
  · exact hseparator.gap

theorem IsTrail.endsToken {trail : List Char} (h : IsTrail trail) :
    EndsToken trail ∧ trail.head? ≠ some '/' := by
  rcases h with rfl | hseparator
  · exact ⟨by simp [EndsToken], by simp⟩
  · simpa using hseparator.endsToken []

section Weave

variable {contents : List Token.Content} {separators : List (List Char)} {lead trail : List Char}

theorem yields_weave (hspells : ∀ x ∈ contents, Spells x.kind x.text)
    (hlength : separators.length = contents.length - 1)
    (hseparators : ∀ separator ∈ separators, IsSeparator separator) (hlead : IsGap lead)
    (htrail : IsTrail trail) :
    Yields (lead ++ (weave (contents.map Token.Content.text) separators ++ trail)) contents := by
  -- what has been woven so far is behind a gap: the lead, or the separator before it
  induction contents generalizing separators lead with
  | nil =>
      obtain rfl := List.eq_nil_of_length_eq_zero hlength
      exact .layout (hlead.append htrail.isGap).layout
  | cons x later ih =>
      obtain ⟨hx, hlater⟩ := List.forall_mem_cons.mp hspells
      cases later with
      | nil =>
          obtain rfl := List.eq_nil_of_length_eq_zero hlength
          obtain ⟨hends, hslash⟩ := htrail.endsToken
          have hlast := Yields.behind_gap hlead hx (isLongestMatch_of_endsToken hx hends)
            (fun _ => hslash) (.layout htrail.isGap.layout)
          simpa [weave] using hlast
      | cons y later =>
          obtain ⟨separator, separators, rfl⟩ := List.exists_cons_of_length_eq_add_one hlength
          obtain ⟨hseparator, hothers⟩ := List.forall_mem_cons.mp hseparators
          have hbehind := ih hlater (by simpa using hlength) hothers hseparator.gap
          obtain ⟨hends, hslash⟩ := hseparator.endsToken
            (weave ((y :: later).map Token.Content.text) separators ++ trail)
          have hfirst := Yields.behind_gap hlead hx (isLongestMatch_of_endsToken hx hends)
            (fun _ => hslash) hbehind
          simpa [weave] using hfirst

end Weave

section Respaced

variable {source : List Char} {separators : List (List Char)} {lead trail : List Char}

theorem contents_weave (hsound : ∀ t ∈ tokens source, t.kind ≠ .error)
    (hlength : separators.length = (body source).length - 1)
    (hseparators : ∀ separator ∈ separators, IsSeparator separator) (hlead : IsGap lead)
    (htrail : IsTrail trail) :
    (tokens (lead ++ (weave ((body source).map Token.lexeme) separators ++ trail))).map
      Token.content = (tokens source).map Token.content := by
  have hspells : ∀ x ∈ (body source).map Token.content, Spells x.kind x.text := by
    intro x hx
    obtain ⟨t, ht, rfl⟩ := List.mem_map.mp hx
    have hmem : t ∈ tokens source := List.dropLast_subset _ ht
    exact spells_of_mem_tokens hmem (hsound t hmem) (kind_ne_eof_of_mem_body ht)
  have hyields := yields_weave hspells (by simpa using hlength) hseparators hlead htrail
  rw [List.map_map] at hyields
  rw [contents_tokens source]
  exact contents_of_yields hyields

/-- **Layout does not matter.**  Lexemes with any separators between them, and layout around
them, are read as the tokens that they come from, but for the places.  They compile to the same
code and constants, or are refused in the same words. -/
theorem compile_respaced {α : Type} [Number α] (hsound : ∀ t ∈ tokens source, t.kind ≠ .error)
    (hlength : separators.length = (body source).length - 1)
    (hseparators : ∀ separator ∈ separators, IsSeparator separator)
    (hlead : IsGap lead) (htrail : IsTrail trail) :
    let text := lead ++ (weave ((body source).map Token.lexeme) separators ++ trail)
    (tokens text).map Token.content = (tokens source).map Token.content ∧
      unplaced (compile text : Except CompileError (Chunk α)) = unplaced (compile source) := by
  have hcontents := contents_weave hsound hlength hseparators hlead htrail
  exact ⟨hcontents, unplaced_compile_of_contents hcontents hsound⟩

end Respaced

/-- A comment behind a numeral may hold a quote, a slash goes on a line of its own, and the line
within a string stays where it is. -/
theorem compile_respaced_string :
    let source := "1/\"a\nb\"".toList
    let text := "//\n1 //\"\n/\n\"a\nb\"\t".toList
    (∀ t ∈ tokens source, t.kind ≠ .error) ∧
      (tokens text).map Token.content = (tokens source).map Token.content ∧
      unplaced (compile text : Except CompileError (Chunk Double)) =
        .error [("Expect expression.", " at '\"a\nb\"'")] := by
  intro source text
  have hsound : ∀ t ∈ tokens source, t.kind ≠ .error := by decide +kernel
  have hquoted : IsSeparator " //\"\n".toList :=
    ⟨.blank (by decide) (@IsGap.comment ['"'] [] (by decide) .none), ' ', rfl, by decide⟩
  have hnewline : IsSeparator "\n".toList := ⟨.blank (by decide) .none, '\n', rfl, by decide⟩
  have htab : IsSeparator "\t".toList := ⟨.blank (by decide) .none, '\t', rfl, by decide⟩
  have hlead : IsGap "//\n".toList := @IsGap.comment [] [] (by decide) .none
  have hseparators : ∀ separator ∈ [" //\"\n".toList, "\n".toList], IsSeparator separator := by
    simp only [List.forall_mem_cons]
    exact ⟨hquoted, hnewline, by simp⟩
  have htext : "//\n".toList ++ (weave ((body source).map Token.lexeme)
      [" //\"\n".toList, "\n".toList] ++ "\t".toList) = text := by decide +kernel
  have hrespaced := compile_respaced (α := Double) hsound (by decide +kernel) hseparators hlead
    (.inr htab)
  simp only [htext] at hrespaced
  obtain ⟨hcontents, hcompiled⟩ := hrespaced
  have hverdict : Reading.start.diagnosis? (tokens source) =
      some ⟨"Expect expression.", some 2, " at '\"a\nb\"'"⟩ := by decide +kernel
  refine ⟨hsound, hcontents, hcompiled.trans ?_⟩
  rw [compile_eq_diagnosis, hverdict]
  rfl

end LoxBytecode

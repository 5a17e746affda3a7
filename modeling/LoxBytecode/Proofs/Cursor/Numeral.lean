import LoxBytecode.Proofs.Cursor.Contents

/-!
# Source texts that are a numeral

A numeral does not get longer by layout behind it.  So a source text that is a numeral but for
layout at its end has one token before the end of the text, and two with a minus sign in front.
-/

namespace LoxBytecode

/-! ## Layout behind a token -/

/-- No token goes on with what layout begins with. -/
theorem Layout.endsToken {layout : List Char} (h : Layout layout []) : EndsToken layout := by
  cases h with
  | none => simp [EndsToken]
  | blank hblank =>
      rintro _ ⟨rfl⟩
      simp only [List.mem_cons, List.not_mem_nil, or_false] at hblank
      rcases hblank with rfl | rfl | rfl | rfl <;> decide
  | comment =>
      rintro _ ⟨rfl⟩
      decide

/-! ## What the texts are made up of -/

section Numeral

variable {text layout : List Char}

theorem yields_numeral (htext : Spells .number text) (hlayout : Layout layout []) :
    Yields (text ++ layout) [⟨.number, text⟩] :=
  .numeral htext hlayout.endsToken (.layout hlayout)

theorem tokens_numeral (htext : Spells .number text) (hlayout : Layout layout []) :
    ∃ t stop : Token, tokens (text ++ layout) = [t, stop] ∧ t.kind = .number ∧
      t.lexeme = text ∧ stop.kind = .eof := by
  have hcontents := contents_of_yields (yields_numeral htext hlayout)
  obtain ⟨t, later, htokens, ht, hlater⟩ := List.map_eq_cons_iff.mp hcontents
  obtain ⟨stop, rfl, hstop⟩ := List.map_eq_singleton_iff.mp hlater
  exact ⟨t, stop, htokens, congrArg Token.Content.kind ht, congrArg Token.Content.text ht,
    congrArg Token.Content.kind hstop⟩

theorem tokens_negated_numeral (htext : Spells .number text) (hlayout : Layout layout []) :
    ∃ sign t stop : Token, tokens ('-' :: (text ++ layout)) = [sign, t, stop] ∧
      sign.kind = .minus ∧ t.kind = .number ∧ t.lexeme = text ∧ stop.kind = .eof := by
  have hyields : Yields ('-' :: (text ++ layout)) [⟨.minus, ['-']⟩, ⟨.number, text⟩] :=
    .mark_of_ne rfl (by decide) (yields_numeral htext hlayout)
  have hcontents := contents_of_yields hyields
  obtain ⟨sign, later, htokens, hsign, hlater⟩ := List.map_eq_cons_iff.mp hcontents
  obtain ⟨t, later, rfl, ht, hlater⟩ := List.map_eq_cons_iff.mp hlater
  obtain ⟨stop, rfl, hstop⟩ := List.map_eq_singleton_iff.mp hlater
  exact ⟨sign, t, stop, htokens, congrArg Token.Content.kind hsign,
    congrArg Token.Content.kind ht, congrArg Token.Content.text ht,
    congrArg Token.Content.kind hstop⟩

end Numeral

end LoxBytecode

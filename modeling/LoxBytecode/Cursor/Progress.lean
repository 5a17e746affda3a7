import LoxBytecode.Cursor.Lexeme

/-!
# Progress of a cursor

Reading never changes the source and never moves backwards, and whatever token is
read, unless it is the end of the text, the rest of the text gets shorter.  This is
what ends every loop over tokens.
-/

namespace LoxBytecode.Cursor

theorem length_rest (c : Cursor) : c.rest.length = c.source.length - c.current := by
  simp [rest]

/-- `d` is the same text as `c`, read at least as far. -/
def Behind (c d : Cursor) : Prop := d.source = c.source ∧ c.current ≤ d.current

theorem Behind.refl (c : Cursor) : c.Behind c := ⟨rfl, Nat.le_refl _⟩

theorem Behind.trans {c d e : Cursor} (h₁ : c.Behind d) (h₂ : d.Behind e) : c.Behind e :=
  ⟨h₂.1.trans h₁.1, Nat.le_trans h₁.2 h₂.2⟩

theorem Behind.length_rest_le {c d : Cursor} (h : c.Behind d) :
    d.rest.length ≤ c.rest.length := by
  have := h.2
  simp only [length_rest, h.1]
  omega

theorem behind_step (c : Cursor) : c.Behind c.step := ⟨rfl, Nat.le_succ _⟩

theorem behind_consume (c : Cursor) (taken : List Char) : c.Behind (c.consume taken) :=
  ⟨rfl, Nat.le_add_right _ _⟩

theorem behind_mark (c : Cursor) : c.Behind c.mark := ⟨rfl, Nat.le_refl _⟩

theorem behind_accept (c : Cursor) (expected : List Char) : c.Behind (c.accept expected).2 := by
  unfold accept
  split
  · exact .refl c
  · split
    · exact c.behind_step
    · exact .refl c

theorem behind_string (c : Cursor) : c.Behind c.string.2 := by
  unfold string
  dsimp only
  split
  · exact c.behind_consume _
  · exact (c.behind_consume _).trans (behind_step _)

theorem behind_number (c : Cursor) : c.Behind c.number.2 := c.behind_consume _

theorem behind_identifier (c : Cursor) : c.Behind c.identifier.2 := c.behind_consume _

theorem behind_continueFrom (c : Cursor) (first : Char) :
    c.Behind (c.continueFrom first).2 := by
  unfold continueFrom
  split
  · exact c.behind_identifier
  · split
    · exact c.behind_number
    · split
      · exact c.behind_string
      · split
        · exact .refl c
        · have h := c.behind_accept ['=']
          split <;> simp_all
        · exact .refl c

theorem behind_nextToken (c : Cursor) : c.Behind c.nextToken.2 := by
  have hmark : c.Behind c.skipLayout.mark := (c.behind_consume _).trans (behind_mark _)
  unfold nextToken
  dsimp only
  split
  · exact hmark
  · exact hmark.trans ((behind_step _).trans (behind_continueFrom _ _))

/-- Any token but the end of the text takes something off the rest. -/
theorem length_rest_nextToken_lt (c : Cursor) (h : c.nextToken.1.kind ≠ .eof) :
    c.nextToken.2.rest.length < c.rest.length := by
  have hmark : c.Behind c.skipLayout.mark := (c.behind_consume _).trans (behind_mark _)
  unfold nextToken at h ⊢
  dsimp only at h ⊢
  split at h
  · exact absurd rfl h
  · rename_i first more heq
    have hlt : c.skipLayout.mark.step.rest.length < c.skipLayout.mark.rest.length := by
      simp only [length_rest]
      have hpos : 0 < c.skipLayout.mark.rest.length := by simp [heq]
      rw [length_rest] at hpos
      simp only [step]
      omega
    have := (behind_continueFrom c.skipLayout.mark.step first).length_rest_le
    have := hmark.length_rest_le
    omega

end LoxBytecode.Cursor

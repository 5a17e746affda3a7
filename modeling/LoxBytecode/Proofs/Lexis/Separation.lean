import LoxBytecode.Proofs.Lexis.Longest

/-!
# What may stand behind a token

A token ends where it stands if the text behind it cannot go on with it.  Single punctuation
marks never go on; any other token goes on only with a letter, a digit, a point or an equals
sign (`isLongestMatch_of_endsToken`).  In front of a token nothing is skipped but layout, and of the
tokens only a slash may turn into layout by what stands behind it.

A *gap* is layout that keeps to itself whatever stands behind it: blanks, and comments together
with the ends of their lines.  A *separator* is a gap that begins with a blank, so that it ends
any token in front of it.
-/

namespace LoxBytecode

/-! ## Longest matches are unique -/

theorem IsLongestMatch.unique {p : List Char → List Char → Prop}
    {text behind text' behind' : List Char} (h : IsLongestMatch p text behind)
    (h' : IsLongestMatch p text' behind')
    (hsame : text ++ behind = text' ++ behind') : text = text' ∧ behind = behind' := by
  have hle := h.length_le hsame.symm h'.holds
  have hge := h'.length_le hsame h.holds
  exact List.append_inj hsame (Nat.le_antisymm hge hle)

/-! ## The ends of tokens -/

/-- The characters that a token may go on with. -/
def GoesOn (c : Char) : Prop := IsLetter c ∨ IsDigit c ∨ c = '.' ∨ c = '='

instance : DecidablePred GoesOn := fun c => by unfold GoesOn; infer_instance

/-- A text that no token goes on with. -/
def EndsToken (behind : List Char) : Prop := ∀ c ∈ behind.head?, ¬GoesOn c

theorem Spells.of_number {text : List Char} (h : Spells .number text) :
    ∃ first rest, text = first :: rest ∧ IsDigit first ∧ ∀ c ∈ rest, IsDigit c ∨ c = '.' := by
  cases h with
  | mark hmark => cases hmark
  | word _ _ hnames => rcases hnames with hkeyword | ⟨hidentifier, -⟩ <;> contradiction
  | whole hfirst hdigits => exact ⟨_, _, rfl, hfirst, fun c hc => .inl (hdigits c hc)⟩
  | fraction hfirst hdigits htenth hdecimals =>
      refine ⟨_, _, rfl, hfirst, List.forall_mem_append.mpr ⟨fun c hc => .inl (hdigits c hc), ?_⟩⟩
      refine List.forall_mem_cons.mpr ⟨.inr rfl, List.forall_mem_cons.mpr ⟨.inl htenth, ?_⟩⟩
      exact fun c hc => .inl (hdecimals c hc)

/-- Where a token has a shorter one at its beginning, it goes on with one of a few characters. -/
theorem Spells.goesOn {kind other : Token.Kind} {text more : List Char} {c : Char}
    (h : Spells kind text) (hother : Spells other (text ++ c :: more)) : GoesOn c := by
  obtain ⟨first, rest, rfl⟩ := List.exists_cons_of_ne_nil h.ne_nil
  rw [List.cons_append] at hother
  have hmem : c ∈ rest ++ c :: more := by simp
  by_cases hletter : IsLetter first
  · rcases (hother.of_letter hletter).1 c hmem with hc | hc
    · exact .inl hc
    · exact .inr (.inl hc)
  by_cases hdigit : IsDigit first
  · obtain ⟨rfl, -⟩ := hother.of_digit hdigit
    obtain ⟨_, _, hsplit, -, hrest⟩ := hother.of_number
    obtain ⟨-, rfl⟩ := List.cons.inj hsplit
    rcases hrest c hmem with hc | hc
    · exact .inr (.inl hc)
    · exact .inr (.inr (.inl hc))
  by_cases hquote : first = '"'
  · -- a string literal ends at its first quote behind the one that opens it
    subst hquote
    obtain ⟨-, body, rfl, hbody⟩ := h.of_quote
    obtain ⟨-, body', hsame, hbody'⟩ := hother.of_quote
    rw [List.append_assoc, List.singleton_append] at hsame
    have hbodies : body = body' := by
      rw [← (span_mark hbody (c :: more)).1, hsame, (span_mark hbody' []).1]
    subst hbodies
    cases List.append_cancel_left hsame
  · rcases mark?_cons_iff.mp (hother.of_other hletter hdigit hquote) with
      ⟨-, hnone⟩ | ⟨_, _, -, ⟨-, hnone⟩ | ⟨-, hequals⟩⟩
    · exact absurd hnone (by simp)
    · exact absurd hnone (by simp)
    · have hlast : c ∈ ['='] := hequals ▸ hmem
      exact .inr (.inr (.inr (List.mem_singleton.mp hlast)))

/-- A token is not made longer by a text that no token goes on with. -/
theorem isLongestMatch_of_endsToken {kind : Token.Kind} {text behind : List Char}
    (h : Spells kind text) (hends : EndsToken behind) : IsLongestMatch IsToken text behind := by
  refine ⟨⟨kind, h⟩, fun {other rest} heq hother => ?_⟩
  rcases List.append_eq_append_iff.mp heq with ⟨more, rfl, -⟩ | ⟨more, rfl, rfl⟩
  · simp
  cases more with
  | nil => simp
  | cons c more =>
      obtain ⟨kind', hkind'⟩ := hother
      exact absurd (h.goesOn hkind') (hends c rfl)

theorem Spells.of_ofMark? {first : Char} {kind : Token.Kind}
    (h : Token.Kind.ofMark? first = some kind) : Spells kind [first] :=
  .mark (mark?_cons_iff.mpr (.inl ⟨h, rfl⟩))

/-- A mark that always stands alone is not made longer by anything. -/
theorem isLongestMatch_mark {first : Char} {kind : Token.Kind}
    (h : Token.Kind.ofMark? first = some kind) (behind : List Char) :
    IsLongestMatch IsToken [first] behind := by
  refine ⟨⟨kind, .of_ofMark? h⟩, fun {other rest} heq hother => ?_⟩
  obtain ⟨kind', hkind'⟩ := hother
  obtain _ | ⟨c, text⟩ := other
  · exact absurd rfl hkind'.ne_nil
  obtain ⟨rfl, -⟩ := List.cons.inj heq
  obtain ⟨hletter, hdigit, hquote⟩ := Spells.head_of_mark (mark?_cons_iff.mpr (.inl ⟨h, rfl⟩))
  rcases mark?_cons_iff.mp (hkind'.of_other hletter hdigit hquote) with
    ⟨-, rfl⟩ | ⟨_, _, hextensible, -⟩
  · exact Nat.le_refl _
  · cases (ofExtensibleMark?_of_ofMark? h).symm.trans hextensible

/-! ## Nothing to skip -/

theorem Spells.not_blank {kind : Token.Kind} {first : Char} {rest : List Char}
    (h : Spells kind (first :: rest)) : isBlank first = false := by
  rw [← Bool.not_eq_true, isBlank_iff]
  intro hblank
  simp only [List.mem_cons, List.not_mem_nil, or_false] at hblank
  have hmark := h.of_other (by rcases hblank with rfl | rfl | rfl | rfl <;> decide)
    (by rcases hblank with rfl | rfl | rfl | rfl <;> decide)
    (by rcases hblank with rfl | rfl | rfl | rfl <;> decide)
  rcases hblank with rfl | rfl | rfl | rfl <;>
    rcases mark?_cons_iff.mp hmark with ⟨hnone, -⟩ | ⟨_, _, hnone, -⟩ <;> cases hnone

theorem Spells.eq_slash {kind : Token.Kind} {rest : List Char} (h : Spells kind ('/' :: rest)) :
    rest = [] := by
  rcases mark?_cons_iff.mp (h.of_other (by decide) (by decide) (by decide)) with
    ⟨-, hnone⟩ | ⟨_, _, hextensible, -⟩
  · exact hnone
  · cases hextensible

/-- In front of a token nothing is skipped, unless it is a slash with another one behind it. -/
theorem leadingLayout_of_spells {kind : Token.Kind} {text behind : List Char}
    (h : Spells kind text) (hslash : text = ['/'] → behind.head? ≠ some '/') :
    leadingLayout false (text ++ behind) = [] := by
  obtain ⟨first, rest, rfl⟩ := List.exists_cons_of_ne_nil h.ne_nil
  have hcomment : ¬(first == '/' && (rest ++ behind).head? == some '/') = true := by
    intro hslashes
    obtain ⟨hfirst, hsecond⟩ := Bool.and_eq_true_iff.mp hslashes
    obtain rfl := beq_iff_eq.mp hfirst
    obtain rfl := h.eq_slash
    exact hslash rfl (beq_iff_eq.mp hsecond)
  rw [List.cons_append, leadingLayout, if_neg (by decide), if_neg (by simp [h.not_blank]),
    if_neg hcomment]

theorem isLongestMatch_layout {gap ahead : List Char}
    (h : leadingLayout false (gap ++ ahead) = gap) : IsLongestMatch Layout gap ahead := by
  obtain ⟨behind, hsplit, hlongest⟩ := isLongestMatch_leadingLayout (gap ++ ahead)
  rw [h] at hsplit hlongest
  exact List.append_cancel_left hsplit ▸ hlongest

/-! ## Gaps -/

/-- Layout that stands for itself: every comment comes with the end of its line. -/
inductive IsGap : List Char → Prop
  | none : IsGap []
  | blank {c : Char} {rest : List Char} :
      c ∈ [' ', '\t', '\r', '\n'] → IsGap rest → IsGap (c :: rest)
  | comment {body rest : List Char} :
      '\n' ∉ body → IsGap rest → IsGap ('/' :: '/' :: (body ++ '\n' :: rest))

/-- A gap that begins with a blank. -/
structure IsSeparator (text : List Char) : Prop where
  gap : IsGap text
  blank : ∃ c ∈ text.head?, c ∈ [' ', '\t', '\r', '\n']

/-- A gap is skipped as a whole, and skipping goes on behind it. -/
theorem IsGap.leadingLayout_append {gap : List Char} (h : IsGap gap) (ahead : List Char) :
    leadingLayout false (gap ++ ahead) = gap ++ leadingLayout false ahead := by
  induction h with
  | none => rfl
  | blank hblank _ ih =>
      rw [List.cons_append, leadingLayout_blank ((isBlank_iff _).mpr hblank), ih, List.cons_append]
  | @comment body rest hbody _ ih =>
      have hinside : ∀ c ∈ body, (c != '\n') = true := by
        intro c hc
        simpa using fun hnewline : c = '\n' => hbody (hnewline ▸ hc)
      have hend : leadingLayout false ('\n' :: (rest ++ ahead)) =
          '\n' :: (rest ++ leadingLayout false ahead) := by
        rw [leadingLayout_blank (by decide), ih]
      simp only [List.cons_append, List.append_assoc]
      rw [leadingLayout_slashes, List.takeWhile_append_of_pos hinside,
        List.dropWhile_append_of_pos hinside]
      simp [hend]

theorem IsGap.append {gap gap' : List Char} (h : IsGap gap) (h' : IsGap gap') :
    IsGap (gap ++ gap') := by
  induction h with
  | none => exact h'
  | blank hblank _ ih => exact .blank hblank ih
  | comment hbody _ ih =>
      simp only [List.cons_append, List.append_assoc]
      exact .comment hbody ih

theorem IsGap.layout {gap : List Char} (h : IsGap gap) : Layout gap [] := by
  have hall : leadingLayout false (gap ++ []) = gap := by
    rw [h.leadingLayout_append]
    simp [leadingLayout]
  exact (isLongestMatch_layout hall).holds

/-- A separator ends any token in front of it, and no slash becomes a comment by it. -/
theorem IsSeparator.endsToken {text : List Char} (h : IsSeparator text) (behind : List Char) :
    EndsToken (text ++ behind) ∧ (text ++ behind).head? ≠ some '/' := by
  obtain ⟨c, hc, hblank⟩ := h.blank
  obtain ⟨rest, rfl⟩ := List.head?_eq_some_iff.mp hc
  simp only [List.mem_cons, List.not_mem_nil, or_false] at hblank
  constructor
  · rintro _ ⟨rfl⟩
    rcases hblank with rfl | rfl | rfl | rfl <;> decide
  · rcases hblank with rfl | rfl | rfl | rfl <;> simp

end LoxBytecode

import LoxBytecode.Text.LineEnding

/-!
# Lines and their ends

What ends a line is told by relations, without a word on how a text is read: a newline, a
carriage return with a newline behind it, or a carriage return alone.  `unifyLineEndings` writes
a newline for each of them and nothing else anew (`unified_iff`), so two texts become the same one
just where they differ in the ends of their lines alone (`sameLines_iff`); and `lines` then finds
the lines that a text has (`hasLines_iff`).
-/

namespace LoxBytecode.Text

/-- What ends a line, and what stands behind it.  A carriage return in front of a newline does
not end a line by itself. -/
inductive LineEnd : List Char → List Char → Prop
  | newline {behind : List Char} : LineEnd ['\n'] behind
  | pair {behind : List Char} : LineEnd ['\r', '\n'] behind
  | carriageReturn {behind : List Char} : behind.head? ≠ some '\n' → LineEnd ['\r'] behind

/-- A character inside a line. -/
def IsInline (c : Char) : Prop := c ≠ '\n' ∧ c ≠ '\r'

/-- The second text is the first one with a newline in the place of every end of a line. -/
inductive Unified : List Char → List Char → Prop
  | nil : Unified [] []
  | inline {c : Char} {text unified : List Char} : IsInline c → Unified text unified →
      Unified (c :: text) (c :: unified)
  | lineEnd {mark behind unified : List Char} : LineEnd mark behind → Unified behind unified →
      Unified (mark ++ behind) ('\n' :: unified)

/-- The two texts have the same lines, but each may end them in ways of its own. -/
inductive SameLines : List Char → List Char → Prop
  | nil : SameLines [] []
  | inline {c : Char} {text text' : List Char} : IsInline c → SameLines text text' →
      SameLines (c :: text) (c :: text')
  | lineEnd {mark mark' behind behind' : List Char} : LineEnd mark behind →
      LineEnd mark' behind' → SameLines behind behind' →
      SameLines (mark ++ behind) (mark' ++ behind')

/-- The lines of a text.  The last one may lack its end, if it is not empty. -/
inductive HasLines : List Char → List (List Char) → Prop
  | none : HasLines [] []
  | unended {line : List Char} : line ≠ [] → (∀ c ∈ line, IsInline c) → HasLines line [line]
  | ended {line mark behind : List Char} {later : List (List Char)} :
      (∀ c ∈ line, IsInline c) → LineEnd mark behind → HasLines behind later →
      HasLines (line ++ (mark ++ behind)) (line :: later)

/-! ## Writing newlines -/

theorem unifyLineEndings_inline {c : Char} (h : IsInline c) (text : List Char) :
    unifyLineEndings (c :: text) = c :: unifyLineEndings text := by
  rw [unifyLineEndings]
  · rintro _ rfl -
    exact h.2 rfl
  · rintro rfl
    exact h.2 rfl

theorem unifyLineEndings_lineEnd {mark behind : List Char} (h : LineEnd mark behind) :
    unifyLineEndings (mark ++ behind) = '\n' :: unifyLineEndings behind := by
  cases h with
  | newline | pair => rfl
  | carriageReturn hbehind =>
      show unifyLineEndings ('\r' :: behind) = _
      rw [unifyLineEndings]
      rintro rest rfl
      exact hbehind rfl

theorem unified_unifyLineEndings (text : List Char) : Unified text (unifyLineEndings text) := by
  fun_induction unifyLineEndings text with
  | case1 => exact .nil
  | case2 rest ih => exact .lineEnd .pair ih
  | case3 rest hnone ih =>
      refine .lineEnd (.carriageReturn ?_) ih
      intro hnewline
      obtain ⟨more, rfl⟩ := List.head?_eq_some_iff.mp hnewline
      exact hnone more rfl
  | case4 c rest hpair hreturn ih =>
      by_cases hnewline : c = '\n'
      · subst hnewline
        exact .lineEnd .newline ih
      · exact .inline ⟨hnewline, hreturn⟩ ih

/-- Every end of a line becomes a newline, and nothing else changes. -/
theorem unified_iff {text unified : List Char} :
    Unified text unified ↔ unifyLineEndings text = unified := by
  constructor
  · intro h
    induction h with
    | nil => rfl
    | inline hinline _ ih => rw [unifyLineEndings_inline hinline, ih]
    | lineEnd hend _ ih => rw [unifyLineEndings_lineEnd hend, ih]
  · rintro rfl
    exact unified_unifyLineEndings text

theorem Unified.sameLines {text text' unified : List Char} (h : Unified text unified)
    (h' : Unified text' unified) : SameLines text text' := by
  induction h generalizing text' with
  | nil =>
      cases h'
      exact .nil
  | inline hinline _ ih =>
      cases h' with
      | inline _ hrest => exact .inline hinline (ih hrest)
      | lineEnd => exact absurd rfl hinline.1
  | lineEnd hend _ ih =>
      cases h' with
      | inline hinline => exact absurd rfl hinline.1
      | lineEnd hend' hrest => exact .lineEnd hend hend' (ih hrest)

/-- How the lines of a text end is all that is lost. -/
theorem sameLines_iff {text text' : List Char} :
    SameLines text text' ↔ unifyLineEndings text = unifyLineEndings text' := by
  constructor
  · intro h
    induction h with
    | nil => rfl
    | inline hinline _ ih =>
        rw [unifyLineEndings_inline hinline, unifyLineEndings_inline hinline, ih]
    | lineEnd hend hend' _ ih =>
        rw [unifyLineEndings_lineEnd hend, unifyLineEndings_lineEnd hend', ih]
  · intro h
    exact (unified_iff.mpr h).sameLines (unified_unifyLineEndings text')

/-! ## Taking lines apart -/

theorem unifyLineEndings_append {line : List Char} (h : ∀ c ∈ line, IsInline c)
    (text : List Char) : unifyLineEndings (line ++ text) = line ++ unifyLineEndings text := by
  induction line with
  | nil => rfl
  | cons c line ih =>
      obtain ⟨hinline, hline⟩ := List.forall_mem_cons.mp h
      rw [List.cons_append, unifyLineEndings_inline hinline, ih hline, List.cons_append]

/-- Lines with one more character in front of the first. -/
def lengthenFirst (c : Char) : List (List Char) → List (List Char)
  | [] => [[c]]
  | line :: later => (c :: line) :: later

theorem lines_inline {c : Char} (h : IsInline c) (text : List Char) :
    lines (c :: text) = lengthenFirst c (lines text) := by
  rw [lines]
  · cases lines text <;> rfl
  · exact h.1

theorem lines_unended {line : List Char} (hne : line ≠ []) (h : ∀ c ∈ line, IsInline c) :
    lines line = [line] := by
  induction line with
  | nil => exact absurd rfl hne
  | cons c line ih =>
      obtain ⟨hinline, hline⟩ := List.forall_mem_cons.mp h
      rw [lines_inline hinline]
      cases line with
      | nil => rfl
      | cons d line => rw [ih (by simp) hline, lengthenFirst]

theorem lines_ended {line : List Char} (h : ∀ c ∈ line, IsInline c) (text : List Char) :
    lines (line ++ '\n' :: text) = line :: lines text := by
  induction line with
  | nil => rfl
  | cons c line ih =>
      obtain ⟨hinline, hline⟩ := List.forall_mem_cons.mp h
      rw [List.cons_append, lines_inline hinline, ih hline, lengthenFirst]

theorem HasLines.inline {c : Char} {text : List Char} {found : List (List Char)}
    (hinline : IsInline c) (h : HasLines text found) :
    HasLines (c :: text) (lengthenFirst c found) := by
  cases h with
  | none => exact .unended (by simp) (List.forall_mem_singleton.mpr hinline)
  | unended _ hline => exact .unended (by simp) (List.forall_mem_cons.mpr ⟨hinline, hline⟩)
  | ended hline hend hlater =>
      exact .ended (List.forall_mem_cons.mpr ⟨hinline, hline⟩) hend hlater

theorem hasLines_lines (text : List Char) : HasLines text (lines (unifyLineEndings text)) := by
  have hunified := unified_unifyLineEndings text
  generalize unifyLineEndings text = unified at hunified
  induction hunified with
  | nil => exact .none
  | @inline c _ _ hinline _ ih =>
      rw [lines_inline hinline]
      exact ih.inline hinline
  | lineEnd hend _ ih =>
      have hempty : ∀ c ∈ ([] : List Char), IsInline c := by simp
      exact .ended hempty hend ih

/-- The lines that are found in a text are the lines that it has. -/
theorem hasLines_iff {text : List Char} {found : List (List Char)} :
    HasLines text found ↔ lines (unifyLineEndings text) = found := by
  constructor
  · intro h
    induction h with
    | none => rfl
    | @unended line hne hline =>
        have hsame := unifyLineEndings_append hline []
        rw [List.append_nil] at hsame
        rw [hsame, unifyLineEndings, List.append_nil, lines_unended hne hline]
    | ended hline hend _ ih =>
        rw [unifyLineEndings_append hline, unifyLineEndings_lineEnd hend, lines_ended hline, ih]
  · rintro rfl
    exact hasLines_lines text

end LoxBytecode.Text

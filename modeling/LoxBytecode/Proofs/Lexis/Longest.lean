import LoxBytecode.Cursor.Stream
import LoxBytecode.Proofs.Lexis.Grammar
import LoxBytecode.Proofs.Text.Word

/-!
# The longest layout and the longest token

The functions that say how much of a text is skipped or read give the longest match of the
lexical grammar.  The first character of a text decides which kinds of token it can begin
with, and for each of these choices one lemma gives the longest one.
-/

namespace LoxBytecode

/-! ## Stretches of characters -/

theorem length_le_length_takeWhile {p : Char → Bool} {text other rest : List Char}
    (hsplit : other ++ rest = text) (hother : ∀ c ∈ other, p c = true) :
    other.length ≤ (text.takeWhile p).length := by
  rw [← hsplit, List.takeWhile_append_of_pos hother]
  simp

theorem isAlpha_iff (c : Char) : isAlpha c = true ↔ IsLetter c := by
  simp [isAlpha, IsLetter, or_assoc]

theorem isDigit_iff (c : Char) : isDigit c = true ↔ IsDigit c := by
  simp [isDigit, IsDigit]

theorem isWordChar_iff (c : Char) : isWordChar c = true ↔ IsLetter c ∨ IsDigit c := by
  simp [isWordChar, isAlpha_iff, isDigit_iff]

theorem isBlank_iff (c : Char) : isBlank c = true ↔ c ∈ [' ', '\t', '\r', '\n'] := by
  simp [isBlank, or_assoc]

/-! ## Layout -/

/-- Inside a comment everything is skipped up to the end of the line. -/
theorem leadingLayout_comment (text : List Char) :
    leadingLayout true text =
      text.takeWhile (· != '\n') ++ leadingLayout false (text.dropWhile (· != '\n')) := by
  induction text with
  | nil => rfl
  | cons c text ih =>
      by_cases hc : c = '\n'
      · subst hc
        simp [leadingLayout, isBlank]
      · have hnext : (c != '\n') = true := by simp [hc]
        simp [leadingLayout, hnext, ih]

theorem leadingLayout_blank {c : Char} (h : isBlank c = true) (text : List Char) :
    leadingLayout false (c :: text) = c :: leadingLayout false text := by
  simp [leadingLayout, h]

theorem leadingLayout_slashes (text : List Char) :
    leadingLayout false ('/' :: '/' :: text) =
      '/' :: '/' :: (text.takeWhile (· != '\n') ++
        leadingLayout false (text.dropWhile (· != '\n'))) := by
  rw [← leadingLayout_comment]
  simp [leadingLayout, isBlank]

/-- What stands behind the comment that a text begins inside of. -/
theorem head?_dropWhile_newline (text : List Char) :
    ∀ c ∈ (text.dropWhile (· != '\n')).head?, c = '\n' := by
  intro c hc
  have hstop := List.head?_dropWhile_not (· != '\n') text
  rw [Option.mem_def.mp hc] at hstop
  simpa using hstop

/-- What is skipped is layout. -/
theorem exists_layout (text : List Char) :
    ∃ behind, text = leadingLayout false text ++ behind ∧
      Layout (leadingLayout false text) behind := by
  -- a comment is taken off whole, so the induction is on the length
  induction hlength : text.length using Nat.strongRecOn generalizing text with
  | ind n ih =>
      subst hlength
      cases text with
      | nil => exact ⟨[], rfl, .none⟩
      | cons c text =>
          by_cases hblank : isBlank c = true
          · obtain ⟨behind, hsplit, hlayout⟩ := ih text.length (by simp) text rfl
            rw [leadingLayout_blank hblank]
            exact ⟨behind, congrArg (c :: ·) hsplit, .blank ((isBlank_iff c).mp hblank) hlayout⟩
          by_cases hslashes : c = '/' ∧ text.head? = some '/'
          · obtain ⟨rfl, hslash⟩ := hslashes
            obtain ⟨more, rfl⟩ := List.head?_eq_some_iff.mp hslash
            have hshorter := List.length_dropWhile_le (· != '\n') more
            obtain ⟨behind, hsplit, hlayout⟩ :=
              ih _ (by simp only [List.length_cons]; omega) (more.dropWhile (· != '\n')) rfl
            rw [leadingLayout_slashes]
            refine ⟨behind, ?_, .comment ?_ ?_ hlayout⟩
            · rw [List.cons_append, List.cons_append, List.append_assoc, ← hsplit,
                List.takeWhile_append_dropWhile]
            · intro hnewline
              simpa using List.mem_takeWhile_imp hnewline
            · rw [← hsplit]
              exact head?_dropWhile_newline more
          · have hnone : leadingLayout false (c :: text) = [] := by
              simp [leadingLayout, hblank, hslashes]
            rw [hnone]
            exact ⟨c :: text, rfl, .none⟩

/-- No more could be skipped. -/
theorem Layout.length_le {skipped behind : List Char} (h : Layout skipped behind) :
    skipped.length ≤ (leadingLayout false (skipped ++ behind)).length := by
  induction h with
  | none => simp
  | blank hblank _ ih =>
      rw [List.cons_append, leadingLayout_blank ((isBlank_iff _).mpr hblank)]
      simpa using ih
  | @comment body skipped behind hbody hend _ ih =>
      have hinside : ∀ c ∈ body, (c != '\n') = true := by
        intro c hc
        simpa using fun hnewline : c = '\n' => hbody (hnewline ▸ hc)
      have hstop : (skipped ++ behind).takeWhile (· != '\n') = [] ∧
          (skipped ++ behind).dropWhile (· != '\n') = skipped ++ behind := by
        cases hrest : skipped ++ behind with
        | nil => simp
        | cons c rest =>
            obtain rfl := hend c (by simp [hrest])
            simp
      have hlayout : leadingLayout false ('/' :: '/' :: (body ++ (skipped ++ behind))) =
          '/' :: '/' :: (body ++ leadingLayout false (skipped ++ behind)) := by
        rw [leadingLayout_slashes, List.takeWhile_append_of_pos hinside,
          List.dropWhile_append_of_pos hinside, hstop.1, hstop.2, List.append_nil]
      rw [List.cons_append, List.cons_append, List.append_assoc, hlayout]
      simpa using ih

theorem isLongestMatch_leadingLayout (text : List Char) :
    ∃ behind, text = leadingLayout false text ++ behind ∧
      IsLongestMatch Layout (leadingLayout false text) behind := by
  obtain ⟨behind, hsplit, hlayout⟩ := exists_layout text
  refine ⟨behind, hsplit, hlayout, fun {other rest} heq hother => ?_⟩
  have hle := hother.length_le
  rwa [heq, ← hsplit] at hle

/-! ## The longest token -/

section Longest

variable {first : Char} {more : List Char}

theorem isLongestMatch_word (hfirst : IsLetter first) {kind : Token.Kind}
    (hkind : kind.Names (first :: more.takeWhile isWordChar)) :
    IsLongestMatch IsToken (first :: more.takeWhile isWordChar) (more.dropWhile isWordChar) := by
  refine ⟨⟨kind, .word hfirst (fun c hc => ?_) hkind⟩, fun {other rest} heq hother => ?_⟩
  · exact (isWordChar_iff c).mp (List.mem_takeWhile_imp hc)
  · rw [List.cons_append, List.takeWhile_append_dropWhile] at heq
    obtain ⟨kind', hspells⟩ := hother
    obtain _ | ⟨c, word⟩ := other
    · exact absurd rfl hspells.ne_nil
    obtain ⟨rfl, hmore⟩ := List.cons.inj heq
    have hword := (hspells.of_letter hfirst).1
    exact Nat.succ_le_succ
      (length_le_length_takeWhile hmore fun c hc => (isWordChar_iff c).mpr (hword c hc))

/-- A numeral goes on behind a point only if a digit follows there. -/
theorem leadingNumeral_eq (text : List Char) :
    (∃ tenth decimals, text.dropWhile isDigit = '.' :: tenth :: decimals ∧ IsDigit tenth ∧
        leadingNumeral text =
          text.takeWhile isDigit ++ '.' :: tenth :: decimals.takeWhile isDigit) ∨
      (∀ tenth decimals, text.dropWhile isDigit = '.' :: tenth :: decimals → ¬IsDigit tenth) ∧
        leadingNumeral text = text.takeWhile isDigit := by
  unfold leadingNumeral
  dsimp only
  split
  · rename_i tenth decimals hpoint
    by_cases hdigit : isDigit tenth = true
    · refine .inl ⟨tenth, decimals, hpoint, (isDigit_iff tenth).mp hdigit, ?_⟩
      simp [hdigit]
    · refine .inr ⟨fun tenth' decimals' hpoint' htenth => ?_, by simp [hdigit]⟩
      cases hpoint.symm.trans hpoint'
      exact hdigit ((isDigit_iff tenth).mpr htenth)
  · rename_i hnone
    exact .inr ⟨fun tenth decimals hpoint => absurd hpoint (hnone tenth decimals), rfl⟩

theorem exists_behind_leadingNumeral (text : List Char) :
    ∃ behind, text = leadingNumeral text ++ behind := by
  have hsplit := List.takeWhile_append_dropWhile (p := isDigit) (l := text)
  rcases leadingNumeral_eq text with ⟨tenth, decimals, hpoint, -, heq⟩ | ⟨-, heq⟩
  · refine ⟨decimals.dropWhile isDigit, ?_⟩
    rw [heq, List.append_assoc, List.cons_append, List.cons_append,
      List.takeWhile_append_dropWhile, ← hpoint, hsplit]
  · exact ⟨text.dropWhile isDigit, by rw [heq, hsplit]⟩

theorem spells_leadingNumeral (hfirst : IsDigit first) (text : List Char) :
    Spells .number (first :: leadingNumeral text) := by
  have hdigits : ∀ {l : List Char}, ∀ c ∈ l.takeWhile isDigit, IsDigit c :=
    fun c hc => (isDigit_iff c).mp (List.mem_takeWhile_imp hc)
  rcases leadingNumeral_eq text with ⟨tenth, decimals, -, htenth, heq⟩ | ⟨-, heq⟩
  · rw [heq]
    exact .fraction hfirst hdigits htenth hdigits
  · rw [heq]
    exact .whole hfirst hdigits

theorem isLongestMatch_number (hfirst : IsDigit first) {behind : List Char}
    (hbehind : more = leadingNumeral more ++ behind) :
    IsLongestMatch IsToken (first :: leadingNumeral more) behind := by
  refine ⟨⟨_, spells_leadingNumeral hfirst more⟩, fun {other rest} heq hother => ?_⟩
  rw [List.cons_append, ← hbehind] at heq
  obtain ⟨kind, hspells⟩ := hother
  obtain _ | ⟨c, text⟩ := other
  · exact absurd rfl hspells.ne_nil
  obtain ⟨rfl, hmore⟩ := List.cons.inj heq
  refine Nat.succ_le_succ ?_
  rcases (hspells.of_digit hfirst).2 with hdigits | ⟨digits, tenth, decimals, rfl, hdigits,
      htenth, hdecimals⟩
  · have hle := length_le_length_takeWhile hmore fun c hc => (isDigit_iff c).mpr (hdigits c hc)
    rcases leadingNumeral_eq more with ⟨_, _, -, -, heq⟩ | ⟨-, heq⟩
    · rw [heq, List.length_append]
      omega
    · rwa [heq]
  · -- the point of the other numeral is where the digits of this one end
    have hmore : digits ++ '.' :: tenth :: (decimals ++ rest) = more := by
      rw [← hmore]
      simp
    -- the digits before the point are all the digits at the beginning of the numeral
    obtain ⟨hwhole, hpoint⟩ := span_append_cons (fun c hc => (isDigit_iff c).mpr (hdigits c hc))
      (by decide : isDigit '.' = false) (tenth :: (decimals ++ rest))
    rw [hmore] at hwhole hpoint
    rcases leadingNumeral_eq more with ⟨tenth', decimals', hpoint', -, heq⟩ | ⟨hnone, -⟩
    · cases hpoint.symm.trans hpoint'
      have hle : decimals.length ≤ ((decimals ++ rest).takeWhile isDigit).length :=
        length_le_length_takeWhile rfl fun c hc => (isDigit_iff c).mpr (hdecimals c hc)
      rw [heq, hwhole]
      simpa using hle
    · exact absurd htenth (hnone _ _ hpoint)

theorem isLongestMatch_string {body behind : List Char} (hbody : '"' ∉ body) :
    IsLongestMatch IsToken ('"' :: (body ++ ['"'])) behind := by
  refine ⟨⟨_, .string hbody⟩, fun {other rest} heq hother => ?_⟩
  obtain ⟨kind, hspells⟩ := hother
  obtain _ | ⟨c, text⟩ := other
  · exact absurd rfl hspells.ne_nil
  obtain ⟨rfl, hmore⟩ := List.cons.inj heq
  obtain ⟨-, body', rfl, hbody'⟩ := hspells.of_quote
  have hmore : body' ++ '"' :: rest = body ++ '"' :: behind := by
    simpa using hmore
  have hsame : body' = body := by
    rw [← (span_mark hbody' rest).1, hmore, (span_mark hbody behind).1]
  rw [hsame]

/-- A punctuation mark is read by its first character, and one of four marks also by an
equals sign behind it. -/
theorem mark?_cons_iff {kind : Token.Kind} {rest : List Char} :
    kind.mark? = some (first :: rest) ↔
      Token.Kind.ofMark? first = some kind ∧ rest = [] ∨
        ∃ alone extended, Token.Kind.ofExtensibleMark? first = some (alone, extended) ∧
          (kind = alone ∧ rest = [] ∨ kind = extended ∧ rest = ['=']) := by
  constructor
  · intro h
    cases kind <;> cases h <;> simp [Token.Kind.ofMark?, Token.Kind.ofExtensibleMark?]
  · rintro (⟨hmark, rfl⟩ | ⟨alone, extended, hmark, ⟨rfl, rfl⟩ | ⟨rfl, rfl⟩⟩)
    · unfold Token.Kind.ofMark? at hmark
      split at hmark <;> cases hmark <;> rfl
    · unfold Token.Kind.ofExtensibleMark? at hmark
      split at hmark <;> cases hmark <;> rfl
    · unfold Token.Kind.ofExtensibleMark? at hmark
      split at hmark <;> cases hmark <;> rfl

theorem ofExtensibleMark?_of_ofMark? {kind : Token.Kind}
    (h : Token.Kind.ofMark? first = some kind) : Token.Kind.ofExtensibleMark? first = none := by
  unfold Token.Kind.ofMark? at h
  split at h <;> first | rfl | cases h

end Longest

end LoxBytecode

import LoxBytecode.Proofs.Cursor.Lines
import LoxBytecode.Proofs.Scan.Basic

/-!
# Scans end, and never overrun the text

Wherever a cursor stands, also past the end of its text, a scan does to it what the cursor does by
taking stretches (`nextToken_eq`, `readAll_eq`), as soon as it has two steps more than there are
characters left.  So it ends, and looks up no character that the text does not have.

All loops are of one form.  In each round the body either finds nothing to take and leaves the
cursor where it is, or it takes something and leaves the same to be done behind it (`loop_eq`).  A
null character, which may be the end or may be a character like all others, is taken by none of the
loops that do not ask which of these it is.
-/

namespace LoxBytecode

/-! ## Taking stretches one after the other -/

namespace Cursor

variable {c : Cursor} {first : Char} {more : List Char}

theorem isAtEnd_iff (c : Cursor) : c.isAtEnd = true ↔ c.source.length ≤ c.current := by
  rw [isAtEnd, List.isEmpty_iff, rest, List.drop_eq_nil_iff]

/-- Layout may be skipped piece by piece. -/
theorem skipLayout_consume {taken behind : List Char} (hrest : c.rest = taken ++ behind)
    (hlayout : leadingLayout false c.rest = taken ++ leadingLayout false behind) :
    (c.consume taken).skipLayout = c.skipLayout := by
  unfold skipLayout
  rw [rest_consume hrest, hlayout, consume_append]

theorem skipLayout_blank (h : c.rest = first :: more) (hblank : isBlank first = true) :
    (c.consume [first]).skipLayout = c.skipLayout :=
  skipLayout_consume h (by rw [h, leadingLayout_blank hblank]; rfl)

theorem skipLayout_slashes (h : c.rest = '/' :: '/' :: more) :
    (c.past (· != '\n')).skipLayout = c.skipLayout := by
  refine skipLayout_consume (List.takeWhile_append_dropWhile).symm ?_
  rw [h, leadingLayout_slashes]
  rfl

end Cursor

namespace Scan

variable {c : Cursor} {first : Char} {more : List Char}

/-! ## Single characters -/

theorem charAt_eq {offset : Nat} {ch : Char} (h : c.source[offset]? = some ch) :
    (charAt offset).run c = pure (ch, c) := by
  simp [charAt, h]

theorem isAtEnd_eq (c : Cursor) : isAtEnd.run c = pure (c.isAtEnd, c) := by
  have hend : decide (c.source.length ≤ c.current) = c.isAtEnd := by
    simp [← Cursor.isAtEnd_iff]
  simp [isAtEnd, hend]

theorem isAtEnd_of_nil (h : c.rest = []) : isAtEnd.run c = pure (true, c) := by
  rw [isAtEnd_eq, Cursor.isAtEnd, h]
  rfl

theorem isAtEnd_of_cons (h : c.rest = first :: more) : isAtEnd.run c = pure (false, c) := by
  rw [isAtEnd_eq, Cursor.isAtEnd, h]
  rfl

theorem getElem?_current (h : c.rest = first :: more) : c.source[c.current]? = some first := by
  have hhead := congrArg List.head? h
  simpa [Cursor.rest] using hhead

theorem advance_eq (h : c.rest = first :: more) : advance.run c = pure (first, c.step) := by
  simp [advance, charAt_eq (getElem?_current h)]

/-- Nothing but the questions asked before it keeps a scan from taking what is not there. -/
theorem advance_of_nil (h : c.rest = []) : advance.run c = throw ⟨c.current⟩ := by
  have hnone : c.source[c.current]? = none := by
    rw [List.getElem?_eq_none_iff, ← List.drop_eq_nil_iff]
    exact h
  simp only [advance, charAt, StateT.run_bind, StateT.run_get, pure_bind, hnone]
  rfl

theorem peek_eq (c : Cursor) : peek.run c = pure (c.peek, c) := by
  unfold peek Cursor.peek
  cases h : c.rest with
  | nil => simp [isAtEnd_of_nil h]
  | cons first more => simp [isAtEnd_of_cons h, charAt_eq (getElem?_current h)]

theorem peek_of_nil (h : c.rest = []) : peek.run c = pure ('\x00', c) := by
  rw [peek_eq, Cursor.peek, h, List.headD_nil]

theorem peek_of_cons (h : c.rest = first :: more) : peek.run c = pure (first, c) := by
  rw [peek_eq, Cursor.peek, h, List.headD_cons]

theorem peekNext_eq (c : Cursor) : peekNext.run c = pure (c.peekNext, c) := by
  have hstep : c.step.rest = c.rest.drop 1 := by simp [Cursor.rest, Cursor.step]
  have hend : c.source.length ≤ c.current + 1 ↔ c.step.rest = [] := List.drop_eq_nil_iff.symm
  unfold peekNext Cursor.peekNext
  rw [← hstep]
  cases h : c.step.rest with
  | nil => simp [hend, h]
  | cons next more =>
      have hnext : c.source[c.current + 1]? = some next := getElem?_current h
      simp [hend, h, charAt_eq hnext]

theorem accept_eq (c : Cursor) (expected : Char) :
    (accept expected).run c = pure (c.accept [expected]) := by
  unfold accept Cursor.accept
  cases h : c.rest with
  | nil => simp [isAtEnd_of_nil h]
  | cons first more =>
      by_cases hfirst : first = expected
      · simp [isAtEnd_of_cons h, charAt_eq (getElem?_current h), hfirst]
      · simp [isAtEnd_of_cons h, charAt_eq (getElem?_current h), hfirst, Ne.symm hfirst]

/-! ## Loops -/

/-- What one round of a loop does to a cursor, where `after` is what the whole loop does: either
there is nothing left to do, or something is taken and the rest is still to be done. -/
def IsRound (body : Scan Bool) (after : Cursor → Cursor) (c : Cursor) : Prop :=
  body.run c = pure (false, c) ∧ after c = c ∨
    ∃ d, body.run c = pure (true, d) ∧ after d = after c ∧ d.rest.length < c.rest.length

/-- A loop whose rounds all take something off the text ends before it runs out of steps. -/
theorem loop_eq {body : Scan Bool} {after : Cursor → Cursor} {steps : Nat}
    (hsteps : c.rest.length < steps)
    (hbody : ∀ d : Cursor, d.rest.length ≤ c.rest.length → IsRound body after d) :
    (loop body steps).run c = pure ((), after c) := by
  induction steps generalizing c with
  | zero => exact absurd hsteps (Nat.not_lt_zero _)
  | succ steps ih =>
      rcases hbody c (Nat.le_refl _) with ⟨hstop, hafter⟩ | ⟨d, hmore, hafter, hlt⟩
      · simp [loop, hstop, hafter]
      · -- the round has used up a step, and at least one character
        have hlater := ih (c := d) (by omega) fun e he => hbody e (by omega)
        simp [loop, hmore, hlater, hafter]

section IsRound

variable {body : Scan Bool} {after : Cursor → Cursor}

theorem IsRound.of_stop (hafter : after c = c) (hrun : body.run c = pure (false, c)) :
    IsRound body after c := .inl ⟨hrun, hafter⟩

theorem IsRound.of_take (h : c.rest = first :: more) (hafter : after (c.consume [first]) = after c)
    (hrun : body.run c = pure (true, c.consume [first])) : IsRound body after c :=
  .inr ⟨_, hrun, hafter, by simp [h, Cursor.rest_consume_singleton h]⟩

end IsRound

theorem takeIf_isRound {p : Char → Bool} (hp : ∀ ch, p ch = true → ch ≠ '\n' ∧ ch ≠ '\x00')
    (c : Cursor) : IsRound (takeIf p) (Cursor.past p) c := by
  cases h : c.rest with
  | nil =>
      -- a look ahead gives a null character here, which is not one to be taken
      have hnull : ¬p '\x00' = true := fun hnull => (hp _ hnull).2 rfl
      refine .of_stop (Cursor.past_of_nil h) ?_
      simp [takeIf, peek_of_nil h, hnull]
  | cons first more =>
      by_cases hfirst : p first = true
      · refine .of_take h (Cursor.past_consume h hfirst) ?_
        rw [Cursor.consume_singleton (hp first hfirst).1]
        simp [takeIf, peek_of_cons h, hfirst, advance_eq h]
      · refine .of_stop (Cursor.past_of_not h hfirst) ?_
        simp [takeIf, peek_of_cons h, hfirst]

theorem takeWhile_eq {p : Char → Bool} (hp : ∀ ch, p ch = true → ch ≠ '\n' ∧ ch ≠ '\x00')
    {steps : Nat} (hsteps : c.rest.length < steps) :
    (takeWhile p steps).run c = pure ((), c.past p) :=
  loop_eq hsteps fun d _ => takeIf_isRound hp d

/-- A visit counts the line of the character that it is made to, if this character ends one. -/
def Counts (mark : Char) (visit : Scan Unit) : Prop :=
  ∀ {c : Cursor} {first : Char} {more : List Char}, c.rest = first :: more → first ≠ mark →
    visit.run c = pure ((), { c with line := c.line + [first].count '\n' })

/-- Up to the end of a line there are no lines to count. -/
theorem counts_newline : Counts '\n' (pure ()) := by
  intro c first more _ hfirst
  simp [hfirst]

theorem counts_countNewline (mark : Char) : Counts mark countNewline := by
  intro c first more h _
  by_cases hfirst : first = '\n'
  · simp [countNewline, peek_of_cons h, hfirst, countLine]
  · simp [countNewline, peek_of_cons h, hfirst]

theorem takeUnless_isRound {mark : Char} {visit : Scan Unit} (hvisit : Counts mark visit)
    (c : Cursor) : IsRound (takeUnless mark visit) (Cursor.past (· != mark)) c := by
  cases h : c.rest with
  | nil =>
      refine .of_stop (Cursor.past_of_nil h) ?_
      by_cases hnull : mark = '\x00'
      · simp [takeUnless, peek_of_nil h, hnull]
      · simp [takeUnless, peek_of_nil h, Ne.symm hnull, isAtEnd_of_nil h]
  | cons first more =>
      by_cases hfirst : first = mark
      · refine .of_stop (Cursor.past_of_not h (by simpa using hfirst)) ?_
        simp [takeUnless, peek_of_cons h, hfirst]
      · -- the line is counted first, and then the character is taken
        have hcounted := hvisit h hfirst
        have hadvance : advance.run { c with line := c.line + [first].count '\n' } =
            pure (first, c.consume [first]) := advance_eq h
        refine .of_take h (Cursor.past_consume h (by simpa using hfirst)) ?_
        simp [takeUnless, peek_of_cons h, hfirst, isAtEnd_of_cons h, hcounted, hadvance]

theorem takeUntil_eq {mark : Char} {visit : Scan Unit} (hvisit : Counts mark visit) {steps : Nat}
    (hsteps : c.rest.length < steps) :
    (takeUntil mark visit steps).run c = pure ((), c.past (· != mark)) :=
  loop_eq hsteps fun d _ => takeUnless_isRound hvisit d

/-- A comment is taken by a loop of its own, in a single round. -/
theorem IsRound.of_comment {body : Scan Bool} (h : c.rest = '/' :: '/' :: more)
    (hrun : body.run c = pure (true, c.past (· != '\n'))) : IsRound body Cursor.skipLayout c := by
  refine .inr ⟨_, hrun, Cursor.skipLayout_slashes h, ?_⟩
  have hbody : ('/' :: '/' :: more).dropWhile (· != '\n') = more.dropWhile (· != '\n') := rfl
  have hle := List.length_dropWhile_le (· != '\n') more
  rw [Cursor.rest_past, h, hbody, List.length_cons, List.length_cons]
  omega

theorem takeLayoutFrom_isRound {steps : Nat} (hsteps : c.rest.length < steps)
    (h : c.rest = first :: more) :
    IsRound (takeLayoutFrom steps first) Cursor.skipLayout c := by
  have hstay (hnone : leadingLayout false c.rest = []) : c.skipLayout = c := by
    rw [Cursor.skipLayout, hnone, Cursor.consume_nil]
  unfold takeLayoutFrom
  split
  case isTrue hblank =>
    have hcharacter : isBlank first = true ∧ first ≠ '\n' := by
      simp only [List.mem_cons, List.not_mem_nil, or_false] at hblank
      rcases hblank with rfl | rfl | rfl <;> decide
    refine .of_take h (Cursor.skipLayout_blank h hcharacter.1) ?_
    simp [advance_eq h, Cursor.consume_singleton hcharacter.2]
  case isFalse hblank =>
    split
    case isTrue hnewline =>
      subst hnewline
      have hadvance : advance.run { c with line := c.line + 1 } = pure ('\n', c.consume ['\n']) :=
        advance_eq h
      refine .of_take h (Cursor.skipLayout_blank h rfl) ?_
      simp [countLine, hadvance]
    case isFalse hnewline =>
      have hbare : isBlank first = false := by
        simp only [List.mem_cons, List.not_mem_nil, or_false, not_or] at hblank
        simp [isBlank, hblank, hnewline]
      split
      case isTrue hslash =>
        subst hslash
        have hnext := peekNext_eq c
        by_cases hcomment : more.head? = some '/'
        · obtain ⟨body, rfl⟩ := List.head?_eq_some_iff.mp hcomment
          have hbody := takeUntil_eq counts_newline hsteps
          refine .of_comment h ?_
          simp [hnext, Cursor.peekNext, h, hbody]
        · have hother : c.peekNext ≠ '/' := by
            cases more with
            | nil => simp [Cursor.peekNext, h]
            | cons next more => simpa [Cursor.peekNext, h] using hcomment
          refine .of_stop (hstay ?_) ?_
          · simp [h, leadingLayout, hbare, hcomment]
          · simp [hnext, hother]
      case isFalse hslash =>
        refine .of_stop (hstay ?_) rfl
        simp [h, leadingLayout, hbare, hslash]

theorem takeLayout_isRound {steps : Nat} (hsteps : c.rest.length < steps) :
    IsRound (takeLayout steps) Cursor.skipLayout c := by
  cases h : c.rest with
  | nil =>
      refine .of_stop (Cursor.skipLayout_of_rest_nil h) ?_
      simp [takeLayout, isAtEnd_of_nil h]
  | cons first more =>
      have hfrom : (takeLayout steps).run c = (takeLayoutFrom steps first).run c := by
        simp [takeLayout, isAtEnd_of_cons h, peek_of_cons h]
      rw [IsRound, hfrom]
      exact takeLayoutFrom_isRound hsteps h

theorem skipLayout_eq {steps : Nat} (hsteps : c.rest.length < steps) :
    (skipLayout steps).run c = pure ((), c.skipLayout) :=
  loop_eq hsteps fun _ hd => takeLayout_isRound (Nat.lt_of_le_of_lt hd hsteps)

/-! ## Tokens -/

theorem token_eq (c : Cursor) (kind : Token.Kind) :
    (token kind).run c = pure (c.token kind, c) := rfl

theorem errorToken_eq (c : Cursor) (message : String) :
    (errorToken message).run c = pure (c.errorToken message, c) := rfl

variable {steps : Nat}

theorem string_eq (hsteps : c.rest.length < steps) : (string steps).run c = pure c.string := by
  have hbody := takeUntil_eq (counts_countNewline '"') hsteps
  unfold string Cursor.string
  dsimp only
  rw [← Cursor.past]
  generalize c.past (· != '"') = d at hbody ⊢
  cases h : d.rest with
  | nil => simp [hbody, isAtEnd_of_nil h, Cursor.isAtEnd, h, errorToken_eq]
  | cons quote more =>
      simp [hbody, isAtEnd_of_cons h, Cursor.isAtEnd, h, advance_eq h, token_eq]

theorem isDigit_ne {ch : Char} (h : isDigit ch = true) : ch ≠ '\n' ∧ ch ≠ '\x00' := by
  constructor <;> rintro rfl <;> exact absurd h (by decide)

theorem isWordChar_ne {ch : Char} (h : isWordChar ch = true) : ch ≠ '\n' ∧ ch ≠ '\x00' := by
  constructor <;> rintro rfl <;> exact absurd h (by decide)

theorem takeFraction_of_digit (hsteps : c.rest.length < steps) {tenth : Char}
    {decimals : List Char} (h : c.rest = '.' :: tenth :: decimals) (htenth : isDigit tenth = true) :
    (takeFraction steps).run c =
      pure ((), c.consume ('.' :: tenth :: decimals.takeWhile isDigit)) := by
  have hrest : c.step.rest = tenth :: decimals := Cursor.rest_step h
  have hshorter : c.step.rest.length < steps := by
    have hlt := (Cursor.behind_step c).length_rest_le
    omega
  have hdigits := takeWhile_eq (fun _ => isDigit_ne) hshorter
  rw [Cursor.past, hrest, List.takeWhile_cons_of_pos htenth] at hdigits
  simp [takeFraction, peek_eq, Cursor.peek, peekNext_eq, Cursor.peekNext, h, htenth, advance_eq h,
    hdigits, Cursor.consume_cons]

theorem takeFraction_of_none
    (h : ∀ tenth decimals, c.rest = '.' :: tenth :: decimals → ¬isDigit tenth = true) :
    (takeFraction steps).run c = pure ((), c) := by
  -- behind a last point a look ahead gives a null character, which is no digit
  have hnone : c.peek = '.' → isDigit c.peekNext = false := by
    intro hpoint
    match hrest : c.rest with
    | [] => simp [Cursor.peek, hrest] at hpoint
    | [_] =>
        have hnull : isDigit '\x00' = false := by decide
        simpa [Cursor.peekNext, hrest] using hnull
    | point :: next :: more =>
        obtain rfl : point = '.' := by simpa [Cursor.peek, hrest] using hpoint
        simpa [Cursor.peekNext, hrest] using h next more hrest
  by_cases hpoint : c.peek = '.'
  · simp [takeFraction, peek_eq, peekNext_eq, hpoint, hnone hpoint]
  · simp [takeFraction, peek_eq, hpoint]

theorem number_eq (hsteps : c.rest.length < steps) : (number steps).run c = pure c.number := by
  have hwhole := takeWhile_eq (fun _ => isDigit_ne) hsteps
  have hbehind : (c.past isDigit).rest = c.rest.dropWhile isDigit := c.rest_past
  have hfraction : (takeFraction steps).run (c.past isDigit) =
      pure ((), c.consume (leadingNumeral c.rest)) := by
    rcases leadingNumeral_eq c.rest with ⟨tenth, decimals, hpoint, htenth, heq⟩ | ⟨hnone, heq⟩
    · have hshorter := List.length_dropWhile_le isDigit c.rest
      rw [takeFraction_of_digit (by rw [hbehind]; omega) (hbehind.trans hpoint)
        ((isDigit_iff tenth).mpr htenth), heq, Cursor.consume_append, Cursor.past]
    · rw [heq]
      refine takeFraction_of_none fun tenth decimals hpoint hdigit => ?_
      exact hnone tenth decimals (hbehind.symm.trans hpoint) ((isDigit_iff tenth).mp hdigit)
  simp [number, Cursor.number, hwhole, hfraction, token_eq]

theorem identifier_eq (hsteps : c.rest.length < steps) :
    (identifier steps).run c = pure c.identifier := by
  have hword := takeWhile_eq (fun _ => isWordChar_ne) hsteps
  unfold identifier
  rw [show (fun ch => isAlpha ch || isDigit ch) = isWordChar from rfl]
  simp [Cursor.identifier, Cursor.past, hword, token_eq]

theorem continueFrom_eq (hsteps : c.rest.length < steps) (first : Char) :
    (continueFrom steps first).run c = pure (c.continueFrom first) := by
  unfold continueFrom Cursor.continueFrom
  split
  · exact identifier_eq hsteps
  split
  · exact number_eq hsteps
  -- a scan looks for the quote behind the marks, and the cursor in front of them
  by_cases hquote : first = '"'
  · subst hquote
    exact string_eq hsteps
  have hother : ¬(first == '"') = true := by simpa using hquote
  rw [if_neg hother]
  cases Token.Kind.ofMark? first with
  | some kind => exact token_eq c kind
  | none =>
      cases Token.Kind.ofExtensibleMark? first with
      | some kinds =>
          have haccept := accept_eq c '='
          generalize c.accept ['='] = result at haccept ⊢
          obtain ⟨accepted, d⟩ := result
          cases accepted <;> simp [haccept, token_eq]
      | none => simp [hquote, errorToken_eq]

theorem nextToken_eq (hsteps : c.rest.length < steps) :
    (nextToken steps).run c = pure c.nextToken := by
  have hlayout := skipLayout_eq hsteps
  have hle : c.skipLayout.mark.rest.length ≤ c.rest.length :=
    ((c.behind_consume _).trans (Cursor.behind_mark _)).length_rest_le
  unfold nextToken Cursor.nextToken
  dsimp only
  cases h : c.skipLayout.mark.rest with
  | nil => simp [hlayout, isAtEnd_of_nil h, token_eq]
  | cons first more =>
      have hstep := (Cursor.behind_step c.skipLayout.mark).length_rest_le
      have hcontinue := @continueFrom_eq c.skipLayout.mark.step steps (by omega)
      simp [hlayout, isAtEnd_of_cons h, advance_eq h, hcontinue]

theorem readAll_eq (hsteps : c.rest.length + 1 < steps) :
    (readAll steps).run c = pure c.readAll := by
  induction steps generalizing c with
  | zero => exact absurd hsteps (Nat.not_lt_zero _)
  | succ steps ih =>
      have hnext : (nextToken steps).run c = pure c.nextToken := nextToken_eq (by omega)
      by_cases heof : c.nextToken.1.kind = .eof
      · simp [readAll, hnext, heof, Cursor.readAll_of_eof heof]
      · have hlt := c.length_rest_nextToken_lt heof
        have hlater := ih (c := c.nextToken.2) (by omega)
        rw [Cursor.readAll]
        simp [readAll, hnext, heof, hlater]

end Scan

/-! ## Progress -/

namespace Cursor

/-- The end of the text is read at the end of the text, or past it. -/
theorem length_le_of_eof {c : Cursor} (h : c.nextToken.1.kind = .eof) :
    c.source.length ≤ c.nextToken.2.current := by
  obtain ⟨skipped, ahead, hsplit, -, hreads⟩ := c.exists_readsAs_nextToken
  have hlength := congrArg List.length hsplit
  rw [length_rest, List.length_append] at hlength
  rw [current_nextToken]
  cases hreads with
  | eof hahead _ _ _ hstop =>
      rw [hahead, List.length_nil] at hlength
      omega
  | lexeme _ _ hkinds =>
      have hkind := (hkinds _).mpr rfl
      exact absurd h hkind.kind_ne.1
  | unterminated _ _ hfault | unexpected _ _ _ hfault => cases h.symm.trans hfault.kind

/-- Any other token is read off characters that were still to be read. -/
theorem current_lt_of_ne_eof {c : Cursor} (h : c.nextToken.1.kind ≠ .eof) :
    c.current < c.nextToken.2.current ∧ c.nextToken.2.current ≤ c.source.length := by
  have hshorter := c.length_rest_nextToken_lt h
  have hcrosses := c.crosses_nextToken
  have hlength := congrArg List.length hcrosses.rest
  have hcurrent := hcrosses.current
  rw [List.length_append] at hlength
  simp only [length_rest, hcrosses.source] at hshorter hlength
  omega

/-- Behind the end of the text no token moves a cursor. -/
theorem after_of_eof {c : Cursor} (h : c.nextToken.1.kind = .eof) (n : Nat) :
    c.nextToken.2.after n = c.nextToken.2 := by
  induction n with
  | zero => rfl
  | succ n ih => rw [after, ih, nextToken_of_eof h]

end Cursor

/-- **Scans end inside the text, and read on up to its end.**  A scan that begins anywhere, with two
steps more than there are characters left, has a result and overruns nothing: it does what the
cursor does.  Each token takes something off the text, without going past its end, unless it is the
end of the text, and this is read over and over without moving the cursor. -/
theorem scan_ends_and_progresses (c : Cursor) :
    (∀ steps, c.rest.length + 1 < steps →
      (Scan.skipLayout steps).run c = pure ((), c.skipLayout) ∧
        (Scan.string steps).run c = pure c.string ∧
        (Scan.number steps).run c = pure c.number ∧
        (Scan.identifier steps).run c = pure c.identifier ∧
        (Scan.nextToken steps).run c = pure c.nextToken ∧
        (Scan.readAll steps).run c = pure c.readAll) ∧
      (c.nextToken.1.kind = .eof ∧ c.source.length ≤ c.nextToken.2.current ∨
        c.nextToken.1.kind ≠ .eof ∧ c.current + 1 ≤ c.nextToken.2.current ∧
          c.nextToken.2.current ≤ c.source.length) ∧
      (c.nextToken.1.kind = .eof → ∀ n, c.nextToken.2.after n = c.nextToken.2 ∧
        (c.nextToken.2.after n).nextToken = c.nextToken) := by
  refine ⟨fun steps hsteps => ?_, ?_, fun heof n => ?_⟩
  · have hrounds : c.rest.length < steps := by omega
    exact ⟨Scan.skipLayout_eq hrounds, Scan.string_eq hrounds, Scan.number_eq hrounds,
      Scan.identifier_eq hrounds, Scan.nextToken_eq hrounds, Scan.readAll_eq hsteps⟩
  · by_cases heof : c.nextToken.1.kind = .eof
    · exact .inl ⟨heof, Cursor.length_le_of_eof heof⟩
    · exact .inr ⟨heof, Cursor.current_lt_of_ne_eof heof⟩
  · rw [Cursor.after_of_eof heof]
    exact ⟨rfl, Cursor.nextToken_of_eof heof⟩

/-- A null character is a character like all others, and past the end there is only the end. -/
theorem scan_ends_and_progresses_null :
    let inside : Cursor := { source := ['\x00'] }
    let past : Cursor := { source := ['\x00'], start := 2, current := 7 }
    inside.rest.length + 1 < 3 ∧ (Scan.nextToken 3).run inside = pure inside.nextToken ∧
      inside.nextToken.1.kind = .error ∧ inside.nextToken.2.current = 1 ∧
      past.nextToken.1.kind = .eof ∧ past.nextToken.2.current = 7 ∧
      past.nextToken.2.after 4 = past.nextToken.2 ∧
      (past.nextToken.2.after 4).nextToken = past.nextToken := by
  intro inside past
  have hsteps : inside.rest.length + 1 < 3 := by decide
  have heof : past.nextToken.1.kind = .eof := by decide
  exact ⟨hsteps, ((scan_ends_and_progresses inside).1 3 hsteps).2.2.2.2.1, by decide, by decide,
    heof, by decide, (scan_ends_and_progresses past).2.2 heof 4⟩

end LoxBytecode

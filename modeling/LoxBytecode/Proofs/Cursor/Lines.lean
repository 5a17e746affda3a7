import LoxBytecode.Proofs.Cursor.Tiling

/-!
# Line numbers

A cursor that goes on from one place to another has crossed a stretch of the text, and its line
has gone up by the newlines in that stretch.  The moves by single characters do not count lines,
but none of them ever takes a newline: layout is skipped before a token begins, and behind that
only the body of a string literal has newlines in it.

So what `crosses_nextToken` says of one token gives, by induction on the number of tokens read,
the line of every token from the characters in front of its end (`line_of_token`).
-/

namespace LoxBytecode

namespace Cursor

/-! ## Crossing a stretch of text -/

/-- `d` stands behind the stretch `taken` that begins where `c` stands, and has counted its
newlines. -/
structure Crosses (c : Cursor) (taken : List Char) (d : Cursor) : Prop where
  source : d.source = c.source
  rest : c.rest = taken ++ d.rest
  current : d.current = c.current + taken.length
  line : d.line = c.line + taken.count '\n'

variable {c d e : Cursor} {taken more : List Char} {first : Char}

theorem Crosses.refl (c : Cursor) : c.Crosses [] c := ⟨rfl, rfl, rfl, rfl⟩

theorem Crosses.trans {taken' : List Char} (h : c.Crosses taken d) (h' : d.Crosses taken' e) :
    c.Crosses (taken ++ taken') e where
  source := h'.source.trans h.source
  rest := by rw [h.rest, h'.rest, List.append_assoc]
  current := by rw [h'.current, h.current, List.length_append, Nat.add_assoc]
  line := by rw [h'.line, h.line, List.count_append, Nat.add_assoc]

theorem crosses_mark (c : Cursor) : c.Crosses [] c.mark := ⟨rfl, rfl, rfl, rfl⟩

theorem crosses_consume (h : taken <+: c.rest) : c.Crosses taken (c.consume taken) := by
  obtain ⟨behind, hsplit⟩ := h
  refine ⟨rfl, ?_, rfl, rfl⟩
  rw [rest_consume hsplit.symm, hsplit]

theorem crosses_step (h : c.rest = first :: more) (hfirst : first ≠ '\n') :
    c.Crosses [first] c.step := by
  refine ⟨rfl, ?_, rfl, ?_⟩
  · rw [rest_step h, h, List.singleton_append]
  · rw [List.count_singleton, if_neg (by simpa using hfirst)]
    rfl

theorem exists_crosses_accept (c : Cursor) : ∃ taken, c.Crosses taken (c.accept ['=']).2 := by
  unfold accept
  split
  · exact ⟨[], .refl c⟩
  · rename_i next behind hrest
    split
    · rename_i hequals
      obtain rfl : next = '=' := (List.cons.inj hequals).1.symm
      exact ⟨['='], crosses_step hrest (by decide)⟩
    · exact ⟨[], .refl c⟩

/-! ## Crossing a token -/

theorem exists_crosses_string (c : Cursor) : ∃ taken, c.Crosses taken c.string.2 := by
  have hbody : c.Crosses (c.rest.takeWhile (· != '"')) (c.past (· != '"')) :=
    crosses_consume (List.takeWhile_prefix _)
  have hrest : (c.past (· != '"')).rest = c.rest.dropWhile (· != '"') := c.rest_past
  unfold string
  dsimp only
  rw [← past]
  cases hdrop : c.rest.dropWhile (· != '"') with
  | nil =>
      have hend : (c.past (· != '"')).isAtEnd = true := by
        rw [isAtEnd, hrest, hdrop]
        rfl
      rw [if_pos hend]
      exact ⟨_, hbody⟩
  | cons quote behind =>
      -- the body ends in front of a quote, which is no newline
      have hquote : quote = '"' := by
        simpa [hdrop] using List.head?_dropWhile_not (· != '"') c.rest
      have hinside : ¬(c.past (· != '"')).isAtEnd = true := by
        rw [isAtEnd, hrest, hdrop]
        simp
      rw [if_neg hinside]
      exact ⟨_, hbody.trans (crosses_step (hrest.trans hdrop) (hquote ▸ by decide))⟩

theorem exists_crosses_number (c : Cursor) : ∃ taken, c.Crosses taken c.number.2 := by
  obtain ⟨behind, hbehind⟩ := exists_behind_leadingNumeral c.rest
  exact ⟨_, crosses_consume ⟨behind, hbehind.symm⟩⟩

theorem exists_crosses_identifier (c : Cursor) : ∃ taken, c.Crosses taken c.identifier.2 :=
  ⟨_, crosses_consume (List.takeWhile_prefix _)⟩

theorem exists_crosses_continueFrom (c : Cursor) (first : Char) :
    ∃ taken, c.Crosses taken (c.continueFrom first).2 := by
  unfold continueFrom
  split
  · exact c.exists_crosses_identifier
  · split
    · exact c.exists_crosses_number
    · split
      · exact c.exists_crosses_string
      · split
        · exact ⟨[], .refl c⟩
        · have haccept := c.exists_crosses_accept
          split <;> simp_all
        · exact ⟨[], .refl c⟩

/-- What is left behind the layout does not begin with a blank. -/
theorem not_blank_behind_leadingLayout {inComment : Bool} {text behind : List Char}
    (h : text = leadingLayout inComment text ++ behind) :
    ∀ c ∈ behind.head?, isBlank c = false := by
  induction text generalizing inComment with
  | nil => simp_all [leadingLayout]
  | cons c text ih =>
      unfold leadingLayout at h
      split at h
      · exact ih (List.cons.inj h).2
      · split at h
        · exact ih (List.cons.inj h).2
        · rename_i hblank
          split at h
          · exact ih (List.cons.inj h).2
          · rw [List.nil_append] at h
            simpa [← h] using hblank

/-- Reading a token crosses the layout in front of it and the token itself. -/
theorem exists_crosses_nextToken (c : Cursor) : ∃ taken, c.Crosses taken c.nextToken.2 := by
  obtain ⟨behind, hsplit, -⟩ := isLongestMatch_leadingLayout c.rest
  have hskipped : c.Crosses (leadingLayout false c.rest) c.skipLayout :=
    crosses_consume ⟨behind, hsplit.symm⟩
  have hlayout := hskipped.trans (crosses_mark c.skipLayout)
  unfold nextToken
  dsimp only
  split
  · exact ⟨_, hlayout⟩
  · rename_i first more hrest
    have hnewline : first ≠ '\n' := by
      rintro rfl
      have hbehind : behind = '\n' :: more := (rest_consume hsplit).symm.trans hrest
      have hblank := not_blank_behind_leadingLayout hsplit '\n' (by simp [hbehind])
      exact absurd hblank (by decide)
    obtain ⟨taken, htaken⟩ := exists_crosses_continueFrom c.skipLayout.mark.step first
    exact ⟨_, (hlayout.trans (crosses_step hrest hnewline)).trans htaken⟩

/-- What is crossed by reading a token, told by where the token stops. -/
theorem crosses_nextToken (c : Cursor) :
    c.Crosses (c.rest.take (c.nextToken.1.stop - c.current)) c.nextToken.2 := by
  obtain ⟨taken, htaken⟩ := c.exists_crosses_nextToken
  have hlength : c.nextToken.1.stop - c.current = taken.length := by
    rw [← current_nextToken, htaken.current, Nat.add_sub_cancel_left]
  have hcrossed : c.rest.take (c.nextToken.1.stop - c.current) = taken := by
    rw [hlength, htaken.rest, List.take_left]
  rwa [hcrossed]

/-! ## Counting from the beginning -/

/-- The line of the cursor is told by the newlines in front of it. -/
structure Counted (c : Cursor) : Prop where
  current_le : c.current ≤ c.source.length
  line : c.line = 1 + (c.source.take c.current).count '\n'

theorem Crosses.counted (h : c.Crosses taken d) (hc : c.Counted) : d.Counted := by
  have hsplit : c.source.drop c.current = taken ++ d.rest := h.rest
  have hlength := length_of_drop hsplit hc.current_le
  constructor
  · rw [h.source, h.current]
    omega
  · have htake : d.source.take d.current = c.source.take c.current ++ taken := by
      rw [h.source, h.current, List.take_add, hsplit, List.take_left]
    rw [h.line, hc.line, htake, List.count_append, Nat.add_assoc]

/-- The cursor behind the first `n` tokens.  Behind the end of the text there is the end again. -/
def after (c : Cursor) : Nat → Cursor
  | 0 => c
  | n + 1 => (c.after n).nextToken.2

theorem source_after (c : Cursor) (n : Nat) : (c.after n).source = c.source := by
  induction n with
  | zero => rfl
  | succ n ih => rw [after, (crosses_nextToken _).source, ih]

theorem Counted.after (h : c.Counted) (n : Nat) : (c.after n).Counted := by
  induction n with
  | zero => exact h
  | succ n ih => exact (crosses_nextToken _).counted ih

theorem counted_ofText (source : List Char) : (ofText source).Counted := by
  constructor <;> simp [ofText]

end Cursor

/-! ## Literals over several lines -/

section Literals

variable {source : List Char} {place : Nat} {t : Token}

theorem Spells.of_string {text : List Char} (h : Spells .string text) :
    ∃ body, text = '"' :: (body ++ ['"']) ∧ '"' ∉ body := by
  cases h with
  | mark hmark => cases hmark
  | word _ _ hnames => rcases hnames with hkeyword | ⟨hidentifier, -⟩ <;> contradiction
  | string hbody => exact ⟨_, rfl, hbody⟩

/-- A string literal stops behind the quote that ends it. -/
theorem Token.FoundFrom.quote_before_stop (h : t.FoundFrom source place)
    (hspells : Spells .string t.lexeme) : 0 < t.stop ∧ source[t.stop - 1]? = some '"' := by
  obtain ⟨body, hbody, -⟩ := hspells.of_string
  have hextract : (source.drop t.start).take (t.stop - t.start) = '"' :: (body ++ ['"']) := by
    rw [← List.extract_eq_take_drop, h.extract_eq_lexeme, hbody]
  have hlength := congrArg List.length hextract
  simp only [List.length_take, List.length_drop, List.length_cons, List.length_append,
    List.length_nil] at hlength
  have hstop := h.stop_le_length
  have hlast := congrArg (·[body.length + 1]?) hextract
  simp only [List.getElem?_take_of_lt (by omega : body.length + 1 < t.stop - t.start),
    List.getElem?_drop] at hlast
  have hplace : t.stop - 1 = t.start + (body.length + 1) := by omega
  refine ⟨by omega, ?_⟩
  rw [hplace, hlast]
  simp

/-- A string literal without an end takes all that is left of the text. -/
theorem ReadsAs.stop_of_unterminated {ahead : List Char} (h : ReadsAs place ahead t)
    (hmessage : t.message = some "Unterminated string.") : t.stop = place + ahead.length := by
  cases h with
  | eof _ _ _ _ _ hnone | lexeme _ _ _ _ _ hnone => cases hnone.symm.trans hmessage
  | unterminated _ _ hfault => exact hfault.stop
  | unexpected _ _ _ hfault =>
      exact absurd (hfault.message.symm.trans hmessage) (by decide)

end Literals

/-! ## The line of a token -/

/-- **Line numbers are right.**  However many tokens have been read before, the line of the next
one, and of the cursor behind it, is one more than the number of newlines in front of where it
stops.  So a string literal has the line of the quote that ends it, one without an end has the
last line of the text, and carriage returns make no difference. -/
theorem line_of_token (source : List Char) (n : Nat) :
    let c : Cursor := (Cursor.ofText source).after n
    let t : Token := c.nextToken.1
    t.line = 1 + (source.take t.stop).count '\n' ∧
      c.nextToken.2.line = 1 + (source.take c.nextToken.2.current).count '\n' ∧
      (t.kind = .string → source[t.stop - 1]? = some '"' ∧
        t.line = 1 + (source.take (t.stop - 1)).count '\n') ∧
      (t.message = some "Unterminated string." → t.line = 1 + source.count '\n') ∧
      t.line = 1 + ((source.take t.stop).filter (· ≠ '\r')).count '\n' := by
  intro c t
  have hcounted : c.Counted := (Cursor.counted_ofText source).after n
  have hsource : c.source = source := Cursor.source_after _ n
  have hafter := ((Cursor.counted_ofText source).after (n + 1)).line
  rw [Cursor.source_after] at hafter
  have hline : t.line = 1 + (source.take t.stop).count '\n' := by
    rw [← c.line_nextToken, ← c.current_nextToken]
    exact hafter
  have hfound : t.FoundFrom source c.current := hsource ▸ c.found_nextToken hcounted.current_le
  obtain ⟨skipped, ahead, hsplit, -, hreads⟩ := c.exists_readsAs_nextToken
  refine ⟨hline, hafter, ?_, ?_, ?_⟩
  · intro hkind
    have hspells := hreads.spells (by rw [hkind]; decide) (by rw [hkind]; decide)
    rw [hkind] at hspells
    obtain ⟨hpos, hquote⟩ := hfound.quote_before_stop hspells
    refine ⟨hquote, ?_⟩
    have htake : source.take t.stop = source.take (t.stop - 1) ++ ['"'] := by
      rw [← Nat.sub_add_cancel hpos, List.take_add_one, Nat.add_sub_cancel, hquote]
      rfl
    rw [hline, htake, List.count_append]
    rfl
  · intro hmessage
    have hlength := length_of_drop hsplit hcounted.current_le
    have hstop : t.stop = source.length := by
      rw [hreads.stop_of_unterminated hmessage, ← hsource, hlength]
    rw [hline, hstop, List.take_length]
  · rw [hline, List.count_filter (by decide)]

/-- The quote that ends the literal is on the third line. -/
theorem line_of_string_over_lines :
    let source := "// \r\n\"1\n\r2\"\n3".toList
    let t := (Cursor.ofText source).nextToken.1
    t.kind = .string ∧ source[t.stop - 1]? = some '"' ∧
      t.line = 1 + (source.take (t.stop - 1)).count '\n' ∧ t.line = 3 := by
  intro source t
  have hkind : t.kind = .string := by decide +kernel
  obtain ⟨hquote, hline⟩ := (line_of_token source 0).2.2.1 hkind
  exact ⟨hkind, hquote, hline, by decide +kernel⟩

end LoxBytecode

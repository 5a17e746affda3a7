import LoxBytecode.Proofs.Cursor.Lines

/-!
# One text below the other

A token with a newline in it is a string literal.  So a newline behind a text, with another text
below it, changes nothing about the tokens of the text above, unless a string literal is left
open there; and from the newline on the tokens of the text below are read, further down in the
source text but otherwise the same.

The next token depends only on what is ahead (`nextToken_of_readsAs`): whatever could be read as
the next token is the next token.  Two comparisons of cursors make use of this, each with a step
lemma for one token and a run lemma for all of them: cursors that are `Apart` have the same text
ahead at different places, and cursors that are `Stacked` read the text above, the text below, and
both of them.
-/

namespace LoxBytecode

/-- A token as it is found further down in a text. -/
def Token.shifted (offset lines : Nat) (t : Token) : Token :=
  { t with start := t.start + offset, stop := t.stop + offset, line := t.line + lines }

theorem Token.shifted_zero : Token.shifted 0 0 = id := rfl

/-! ## What is ahead determines the next token -/

section Ahead

variable {offset : Nat} {ahead : List Char} {t u : Token}

theorem Token.IsFault.unique {message : String} (h : t.IsFault message offset)
    (h' : u.IsFault message offset) : t = { u with line := t.line } := by
  obtain ⟨hkind, hlexeme, hstart, hstop, hmessage⟩ := h
  obtain ⟨hkind', hlexeme', hstart', hstop', hmessage'⟩ := h'
  rw [← hkind'] at hkind
  rw [← hlexeme'] at hlexeme
  rw [← hstart'] at hstart
  rw [← hstop'] at hstop
  rw [← hmessage'] at hmessage
  cases t
  simp_all

/-- Only one token can be read, but for the line that it is given. -/
theorem ReadsAs.unique (h : ReadsAs offset ahead t) (h' : ReadsAs offset ahead u) :
    t = { u with line := t.line } := by
  cases h with
  | eof hahead hkind hlexeme hstart hstop hmessage =>
      cases h' with
      | eof _ hkind' hlexeme' hstart' hstop' hmessage' =>
          cases t
          simp_all
      | lexeme hsplit hlongest =>
          obtain ⟨kind, hspells⟩ := hlongest.holds
          exact absurd (List.append_eq_nil_iff.mp (hsplit.symm.trans hahead)).1 hspells.ne_nil
      | unterminated hquote | unexpected hquote => cases hquote.symm.trans hahead
  | lexeme hsplit hlongest hkinds hstart hstop hmessage =>
      obtain ⟨kind, hspells⟩ := hlongest.holds
      cases h' with
      | eof hahead =>
          exact absurd (List.append_eq_nil_iff.mp (hsplit.symm.trans hahead)).1 hspells.ne_nil
      | lexeme hsplit' hlongest' hkinds' hstart' hstop' hmessage' =>
          obtain ⟨hlexeme, rfl⟩ := hlongest.unique hlongest' (hsplit.symm.trans hsplit')
          have hkind : t.kind = u.kind := (hkinds' t.kind).mp (hlexeme ▸ (hkinds t.kind).mpr rfl)
          cases t
          simp_all
      | unterminated _ hnone | unexpected _ _ hnone =>
          exact absurd hlongest.holds (hnone _ _ hsplit.symm)
  | unterminated hquote hnone hfault =>
      cases h' with
      | eof hahead => cases hquote.symm.trans hahead
      | lexeme hsplit hlongest => exact absurd hlongest.holds (hnone _ _ hsplit.symm)
      | unterminated _ _ hfault' => exact hfault.unique hfault'
      | unexpected hfirst hne => exact absurd (List.cons.inj (hfirst.symm.trans hquote)).1 hne
  | unexpected hfirst hne hnone hfault =>
      cases h' with
      | eof hahead => cases hfirst.symm.trans hahead
      | lexeme hsplit hlongest => exact absurd hlongest.holds (hnone _ _ hsplit.symm)
      | unterminated hquote => exact absurd (List.cons.inj (hfirst.symm.trans hquote)).1 hne
      | unexpected _ _ _ hfault' => exact hfault.unique hfault'

theorem ReadsAs.shifted (h : ReadsAs offset ahead t) (places lines : Nat) :
    ReadsAs (offset + places) ahead (t.shifted places lines) := by
  have hmoved {message : String} {stop : Nat} (hfault : t.IsFault message stop) :
      (t.shifted places lines).IsFault message (stop + places) :=
    ⟨hfault.kind, hfault.lexeme, congrArg (· + places) hfault.start,
      congrArg (· + places) hfault.stop, hfault.message⟩
  cases h with
  | eof hahead hkind hlexeme hstart hstop hmessage =>
      exact .eof hahead hkind hlexeme (congrArg (· + places) hstart)
        (congrArg (· + places) hstop) hmessage
  | lexeme hsplit hlongest hkinds hstart hstop hmessage =>
      refine .lexeme hsplit hlongest hkinds (congrArg (· + places) hstart) ?_ hmessage
      exact (congrArg (· + places) hstop).trans (Nat.add_right_comm _ _ _)
  | unterminated hquote hnone hfault =>
      exact .unterminated hquote hnone (Nat.add_right_comm _ _ _ ▸ hmoved hfault)
  | unexpected hfirst hne hnone hfault =>
      exact .unexpected hfirst hne hnone (Nat.add_right_comm _ _ _ ▸ hmoved hfault)

/-- Only at the end of a text its end is read. -/
theorem ReadsAs.kind_eq_eof_iff (h : ReadsAs offset ahead t) : t.kind = .eof ↔ ahead = [] := by
  cases h with
  | eof hahead hkind => exact ⟨fun _ => hahead, fun _ => hkind⟩
  | lexeme hsplit hlongest hkinds =>
      have hspells := (hkinds t.kind).mpr rfl
      refine ⟨fun heof => absurd heof hspells.kind_ne.1, fun hnone => ?_⟩
      exact absurd (List.append_eq_nil_iff.mp (hsplit.symm.trans hnone)).1 hspells.ne_nil
  | unterminated hfirst _ hfault | unexpected hfirst _ _ hfault =>
      refine ⟨fun heof => ?_, fun hnone => ?_⟩
      · cases heof.symm.trans hfault.kind
      · cases hfirst.symm.trans hnone

end Ahead

namespace Cursor

variable {c d e : Cursor}

/-- Whatever could be read as the next token, with its newlines counted, is the next token. -/
theorem nextToken_of_readsAs {skipped ahead : List Char} {t : Token}
    (hrest : c.rest = skipped ++ ahead) (hlayout : IsLongestMatch Layout skipped ahead)
    (hreads : ReadsAs (c.current + skipped.length) ahead t)
    (hline : t.line = c.line + (c.rest.take (t.stop - c.current)).count '\n') :
    c.nextToken.1 = t := by
  obtain ⟨skipped', ahead', hsplit, hlayout', hreads'⟩ := c.exists_readsAs_nextToken
  obtain ⟨rfl, rfl⟩ := hlayout'.unique hlayout (hsplit.symm.trans hrest)
  have hsame := hreads'.unique hreads
  have hstop : c.nextToken.1.stop = t.stop := by rw [hsame]
  have hline' : c.nextToken.1.line = t.line := by
    rw [← line_nextToken, c.crosses_nextToken.line, hstop, hline]
  rw [hsame, hline']

theorem rest_nextToken (c : Cursor) :
    c.nextToken.2.rest = c.rest.drop (c.nextToken.1.stop - c.current) := by
  have hsplit := c.crosses_nextToken.rest
  exact (List.append_cancel_left ((List.take_append_drop _ _).trans hsplit)).symm

theorem stop_le_of_nextToken (c : Cursor) :
    c.current ≤ c.nextToken.1.stop ∧ c.nextToken.1.stop - c.current ≤ c.rest.length := by
  have hcurrent := c.crosses_nextToken.current
  rw [current_nextToken, List.length_take] at hcurrent
  omega

/-! ## Cursors at different places -/

/-- Two cursors have the same text ahead, but they have counted differently on the way there. -/
structure Apart (places lines : Nat) (c d : Cursor) : Prop where
  rest : d.rest = c.rest
  current : d.current = c.current + places
  line : d.line = c.line + lines

variable {places lines : Nat}

theorem Apart.nextToken (h : Apart places lines c d) :
    d.nextToken.1 = c.nextToken.1.shifted places lines ∧
      Apart places lines c.nextToken.2 d.nextToken.2 := by
  obtain ⟨skipped, ahead, hsplit, hlayout, hreads⟩ := c.exists_readsAs_nextToken
  have hcrossed : (c.nextToken.1.shifted places lines).stop - d.current =
      c.nextToken.1.stop - c.current := by
    rw [h.current]
    exact Nat.add_sub_add_right _ _ _
  have htoken : d.nextToken.1 = c.nextToken.1.shifted places lines := by
    apply nextToken_of_readsAs (h.rest.trans hsplit) hlayout
    · rw [h.current, Nat.add_right_comm]
      exact hreads.shifted places lines
    · rw [hcrossed, h.rest, h.line, Nat.add_right_comm, ← c.crosses_nextToken.line, line_nextToken]
      rfl
  refine ⟨htoken, ?_, ?_, ?_⟩
  · rw [rest_nextToken, rest_nextToken, htoken, hcrossed, h.rest]
  · rw [current_nextToken, current_nextToken, htoken]
    rfl
  · rw [line_nextToken, line_nextToken, htoken]
    rfl

theorem Apart.readAll (h : Apart places lines c d) :
    d.readAll.1 = c.readAll.1.map (Token.shifted places lines) := by
  fun_induction Cursor.readAll c generalizing d with
  | case1 c heof =>
      obtain ⟨htoken, -⟩ := h.nextToken
      have heof' : d.nextToken.1.kind = .eof := by
        rw [htoken]
        exact heof
      rw [readAll_of_eof heof', htoken]
      rfl
  | case2 c hmore later =>
      rename_i ih
      obtain ⟨htoken, hlater⟩ := h.nextToken
      have hmore' : d.nextToken.1.kind ≠ .eof := by
        rw [htoken]
        exact hmore
      rw [readAll_of_ne_eof hmore', htoken, ih hlater]
      rfl

end Cursor

/-! ## A newline below a text -/

/-- A token with a newline in it is a string literal. -/
theorem Spells.head_of_newline {kind : Token.Kind} {text : List Char} (h : Spells kind text)
    (hnewline : '\n' ∈ text) : text.head? = some '"' := by
  obtain rfl := h.eq_string_of_foreign hnewline (by decide) (by decide) (by decide)
  obtain ⟨body, rfl, -⟩ := h.of_string
  rfl

section Newline

variable {text rest ahead behind below : List Char}

/-- A piece of two texts with a newline in between belongs to the first, or has the newline. -/
theorem piece_of_newline (h : text ++ rest = ahead ++ '\n' :: below) :
    (∃ more, text ++ more = ahead) ∨ ∃ more, text = ahead ++ '\n' :: more := by
  rcases List.append_eq_append_iff.mp h with ⟨more, rfl, -⟩ | ⟨more, rfl, hmore⟩
  · exact .inl ⟨more, rfl⟩
  · cases more with
    | nil => exact .inl ⟨[], by simp⟩
    | cons c more => exact .inr ⟨more, by rw [(List.cons.inj hmore).1]⟩

theorem IsLongestMatch.newline (h : IsLongestMatch IsToken text behind) (below : List Char) :
    IsLongestMatch IsToken text (behind ++ '\n' :: below) := by
  refine ⟨h.holds, fun {other rest} heq hother => ?_⟩
  rw [← List.append_assoc] at heq
  rcases piece_of_newline heq with ⟨more, hmore⟩ | ⟨more, hmore⟩
  · exact h.length_le hmore hother
  · -- both are string literals, and the first quote behind the one that opens them ends both
    obtain ⟨kind, hspells⟩ := h.holds
    obtain ⟨kind', hspells'⟩ := hother
    obtain ⟨first, more', rfl⟩ := List.exists_cons_of_ne_nil hspells.ne_nil
    have hquote := hspells'.head_of_newline (by simp [hmore])
    obtain rfl : first = '"' := by simpa [hmore] using hquote
    obtain ⟨-, body, rfl, hbody⟩ := hspells.of_quote
    exact (isLongestMatch_string hbody).length_le (heq.trans (List.append_assoc _ _ _))
      ⟨kind', hspells'⟩

theorem NoToken.newline {first : Char} {more : List Char} (h : NoToken (first :: more))
    (hquote : first ≠ '"') (below : List Char) :
    NoToken (first :: more ++ '\n' :: below) := by
  rintro text behind hsplit ⟨kind, hspells⟩
  rcases piece_of_newline hsplit with ⟨rest, hrest⟩ | ⟨rest, rfl⟩
  · exact h text rest hrest ⟨kind, hspells⟩
  · have hhead := hspells.head_of_newline (by simp)
    exact hquote (by simpa using hhead)

/-- What is read as a token is read so with a newline below, unless it goes on to the end. -/
theorem ReadsAs.newline {offset : Nat} {t : Token} (h : ReadsAs offset ahead t)
    (hmore : t.kind ≠ .eof) (hended : t.message ≠ some "Unterminated string.")
    (below : List Char) : ReadsAs offset (ahead ++ '\n' :: below) t := by
  cases h with
  | eof _ heof => exact absurd heof hmore
  | @lexeme behind hsplit hlongest hkinds hstart hstop hmessage =>
      refine .lexeme ?_ (hlongest.newline below) hkinds hstart hstop hmessage
      rw [hsplit, List.append_assoc]
  | unterminated _ _ hfault => exact absurd hfault.message hended
  | unexpected hfirst hquote hnone hfault =>
      subst hfirst
      exact .unexpected rfl hquote (hnone.newline hquote below) hfault

/-- Skipping goes over a newline only where all in front of it is layout. -/
theorem leadingLayout_newline (inComment : Bool) (text below : List Char) :
    leadingLayout inComment (text ++ '\n' :: below) =
      if leadingLayout inComment text = text then text ++ '\n' :: leadingLayout false below
      else leadingLayout inComment text := by
  induction text generalizing inComment with
  | nil => cases inComment <;> simp [leadingLayout, isBlank]
  | cons c text ih =>
      have hslash : ((text ++ '\n' :: below).head? == some '/') = (text.head? == some '/') := by
        cases text <;> rfl
      have hkeep (inComment : Bool) :
          c :: leadingLayout inComment (text ++ '\n' :: below) =
            if c :: leadingLayout inComment text = c :: text then
              c :: text ++ '\n' :: leadingLayout false below
            else c :: leadingLayout inComment text := by
        rw [ih]
        simp only [List.cons.injEq, true_and]
        split <;> rfl
      rw [List.cons_append, leadingLayout, leadingLayout, hslash]
      split
      · exact hkeep _
      · split
        · exact hkeep _
        · split
          · exact hkeep _
          · simp

theorem leadingLayout_of_longest (h : IsLongestMatch Layout text ahead) :
    leadingLayout false (text ++ ahead) = text := by
  obtain ⟨behind, hsplit, hlongest⟩ := isLongestMatch_leadingLayout (text ++ ahead)
  exact (hlongest.unique h hsplit.symm).1

theorem IsLongestMatch.layout_newline (h : IsLongestMatch Layout text ahead) (hahead : ahead ≠ [])
    (below : List Char) : IsLongestMatch Layout text (ahead ++ '\n' :: below) := by
  apply isLongestMatch_layout
  rw [← List.append_assoc, leadingLayout_newline, leadingLayout_of_longest h, if_neg]
  exact fun hall => hahead (List.self_eq_append_right.mp hall)

/-- Where a text ends with layout, skipping goes on below it. -/
theorem IsLongestMatch.layout_below (h : IsLongestMatch Layout text [])
    (hbelow : IsLongestMatch Layout rest ahead) :
    IsLongestMatch Layout (text ++ '\n' :: rest) ahead := by
  have hall := leadingLayout_of_longest h
  rw [List.append_nil] at hall
  apply isLongestMatch_layout
  rw [List.append_assoc, List.cons_append, leadingLayout_newline, if_pos hall,
    leadingLayout_of_longest hbelow]

end Newline

namespace Cursor

variable {c d e : Cursor}

/-- The cursor `d` has a text ahead that consists of what `c` has ahead, a newline, and what `e` has
ahead; and `e` has counted on from where the text of `c` and the newline end. -/
structure Stacked (c d e : Cursor) : Prop where
  rest : d.rest = c.rest ++ '\n' :: e.rest
  current : d.current = c.current
  line : d.line = c.line
  current_below : e.current = c.current + (c.rest.length + 1)
  line_below : e.line = c.line + (c.rest.count '\n' + 1)

/-- Above the newline the same token is read as without it. -/
theorem Stacked.nextToken (h : Stacked c d e) (hmore : c.nextToken.1.kind ≠ .eof)
    (hended : c.nextToken.1.message ≠ some "Unterminated string.") :
    d.nextToken.1 = c.nextToken.1 ∧ Stacked c.nextToken.2 d.nextToken.2 e := by
  obtain ⟨skipped, ahead, hsplit, hlayout, hreads⟩ := c.exists_readsAs_nextToken
  have hahead : ahead ≠ [] := fun hnone => hmore (hreads.kind_eq_eof_iff.mpr hnone)
  have hcrosses := c.crosses_nextToken
  obtain ⟨hle, hwithin⟩ := c.stop_le_of_nextToken
  have htoken : d.nextToken.1 = c.nextToken.1 := by
    apply nextToken_of_readsAs _ (hlayout.layout_newline hahead e.rest)
    · rw [h.current]
      exact hreads.newline hmore hended e.rest
    · rw [h.current, h.line, h.rest, List.take_append_of_le_length hwithin, ← hcrosses.line,
        line_nextToken]
    · rw [h.rest, hsplit, List.append_assoc]
  refine ⟨htoken, ?_, ?_, ?_, ?_, ?_⟩
  · rw [rest_nextToken, rest_nextToken, htoken, h.current, h.rest,
      List.drop_append_of_le_length hwithin]
  · rw [current_nextToken, current_nextToken, htoken]
  · rw [line_nextToken, line_nextToken, htoken]
  · have hlength := congrArg List.length hcrosses.rest
    rw [List.length_append] at hlength
    rw [h.current_below, hcrosses.current]
    omega
  · have hcount := congrArg (List.count '\n') hcrosses.rest
    rw [List.count_append] at hcount
    rw [h.line_below, hcrosses.line]
    omega

/-- At the newline reading goes on with the text below. -/
theorem Stacked.nextToken_of_eof (h : Stacked c d e) (heof : c.nextToken.1.kind = .eof) :
    d.nextToken.1 = e.nextToken.1 ∧ Apart 0 0 e.nextToken.2 d.nextToken.2 := by
  obtain ⟨skipped, ahead, hsplit, hlayout, hreads⟩ := c.exists_readsAs_nextToken
  obtain rfl := hreads.kind_eq_eof_iff.mp heof
  obtain ⟨skipped', ahead', hsplit', hlayout', hreads'⟩ := e.exists_readsAs_nextToken
  rw [List.append_nil] at hsplit
  have hrest : d.rest = (c.rest ++ ['\n']) ++ e.rest := by rw [h.rest, List.append_cons]
  have hbelow := h.current_below
  have hstop : e.nextToken.1.stop - d.current =
      (c.rest ++ ['\n']).length + (e.nextToken.1.stop - e.current) := by
    have hle := e.stop_le_of_nextToken.1
    rw [List.length_append, List.length_singleton, h.current]
    omega
  have htoken : d.nextToken.1 = e.nextToken.1 := by
    apply nextToken_of_readsAs _ (hlayout.layout_below hlayout')
    · have hplace : d.current + (skipped ++ '\n' :: skipped').length =
          e.current + skipped'.length := by
        rw [← hsplit, List.length_append, List.length_cons, h.current]
        omega
      rwa [hplace]
    · have hline := e.crosses_nextToken.line
      rw [line_nextToken, h.line_below, ← h.line] at hline
      rw [hstop, hrest, List.take_length_add_append, List.count_append, List.count_append,
        List.count_singleton_self, hline, Nat.add_assoc]
    · rw [h.rest, hsplit, hsplit', List.append_assoc, List.cons_append]
  refine ⟨htoken, ?_, ?_, ?_⟩
  · rw [rest_nextToken, rest_nextToken, htoken, hstop, hrest, List.drop_length_add_append]
  · rw [current_nextToken, current_nextToken, htoken, Nat.add_zero]
  · rw [line_nextToken, line_nextToken, htoken, Nat.add_zero]

/-- **Run.** All tokens but the end are read as above, and then those below. -/
theorem Stacked.readAll (h : Stacked c d e)
    (hended : ∀ t ∈ c.readAll.1, t.message ≠ some "Unterminated string.") :
    d.readAll.1 = c.readAll.1.dropLast ++ e.readAll.1 := by
  fun_induction Cursor.readAll c generalizing d with
  | case1 c heof =>
      obtain ⟨htoken, hapart⟩ := h.nextToken_of_eof heof
      by_cases hend : e.nextToken.1.kind = .eof
      · rw [readAll_of_eof hend, readAll_of_eof (by rwa [htoken]), htoken]
        rfl
      · rw [readAll_of_ne_eof hend, readAll_of_ne_eof (by rwa [htoken]), htoken, hapart.readAll,
          Token.shifted_zero, List.map_id]
        rfl
  | case2 c hmore later =>
      rename_i ih
      obtain ⟨hfirst, hlater⟩ := List.forall_mem_cons.mp hended
      obtain ⟨htoken, hstacked⟩ := h.nextToken hmore hfirst
      rw [readAll_of_ne_eof (by rwa [htoken]), htoken, ih hstacked hlater,
        List.dropLast_cons_of_ne_nil (readAll_ne_nil _)]
      rfl

end Cursor

/-- **Scanning is compositional at newlines.**  If no string literal is left open in the text
above a newline, then its tokens, but for the end of the text, are followed by those of the text
below, moved by the characters and by the lines in front of it. -/
theorem tokens_newline {above : List Char}
    (h : ∀ t ∈ tokens above, t.message ≠ some "Unterminated string.") (below : List Char) :
    tokens (above ++ '\n' :: below) = (tokens above).dropLast ++
      (tokens below).map (Token.shifted (above.length + 1) (1 + above.count '\n')) := by
  let c := Cursor.ofText above
  let e : Cursor :=
    { source := above ++ '\n' :: below
      current := above.length + 1
      line := 1 + (above.count '\n' + 1) }
  have hbelow : e.rest = below := by simp [e, Cursor.rest]
  have hstacked : Cursor.Stacked c (Cursor.ofText (above ++ '\n' :: below)) e := by
    constructor <;> simp [c, e, Cursor.ofText, Cursor.rest]
  have hapart : Cursor.Apart (above.length + 1) (1 + above.count '\n') (Cursor.ofText below) e := by
    refine ⟨?_, ?_, ?_⟩
    · exact hbelow
    · simp [e, Cursor.ofText]
    · simp [e, Cursor.ofText, Nat.add_comm]
  rw [tokens, hstacked.readAll h, hapart.readAll]
  rfl

/-- The comment, the point behind a numeral and the equals sign all stay on their own lines. -/
theorem tokens_newline_lookahead :
    let above := "\"a\nb\" @ // \"\n= 1.".toList
    let below := "=2 \"c".toList
    (∀ t ∈ tokens above, t.message ≠ some "Unterminated string.") ∧
      tokens (above ++ '\n' :: below) =
        (tokens above).dropLast ++ (tokens below).map (Token.shifted 18 3) := by
  intro above below
  have hended : ∀ t ∈ tokens above, t.message ≠ some "Unterminated string." := by decide +kernel
  exact ⟨hended, tokens_newline hended below⟩

end LoxBytecode

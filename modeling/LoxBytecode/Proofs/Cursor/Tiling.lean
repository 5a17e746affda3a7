import LoxBytecode.Proofs.Cursor.Contents

/-!
# Tokens tile the source text

Every token says where it starts and where it stops, and the next one is looked for where it
stops.  What is passed on the way there is layout; in front of a token for faulty text it is
layout and then the text at fault, up to the place where the token stands.  So what is passed
and what the tokens cover, piece after piece, is the source text again.

`found_nextToken` says this of a single token, and `tiles_readAll` puts the tokens of a text
together, each found from the place where the one before it stops.  All that `tokens_tile` says
of the whole text is read off that chain by induction.
-/

namespace LoxBytecode

/-! ## Pieces of a text -/

section Pieces

variable {source piece behind : List Char} {place : Nat}

theorem extract_of_drop (h : source.drop place = piece ++ behind) :
    source.extract place (place + piece.length) = piece := by
  rw [List.extract_eq_take_drop, h, Nat.add_sub_cancel_left, List.take_left]

theorem drop_of_drop (h : source.drop place = piece ++ behind) :
    source.drop (place + piece.length) = behind := by
  rw [← List.drop_drop, h, List.drop_left]

theorem length_of_drop (h : source.drop place = piece ++ behind) (hplace : place ≤ source.length) :
    source.length = place + piece.length + behind.length := by
  have hlength := congrArg List.length h
  rw [List.length_drop, List.length_append] at hlength
  omega

theorem extract_append_drop (source : List Char) {first last : Nat} (h : first ≤ last) :
    source.extract first last ++ source.drop last = source.drop first := by
  have hlast : source.drop last = (source.drop first).drop (last - first) := by
    rw [List.drop_drop, Nat.add_sub_cancel' h]
  rw [hlast, List.extract_eq_take_drop, List.take_append_drop]

end Pieces

/-! ## What a token covers -/

/-- What is passed in front of the token `t`, and what stands behind that: layout is passed, and
in front of a token for faulty text the text at fault as well. -/
inductive Passed (t : Token) : List Char → List Char → Prop
  | layout {skipped behind : List Char} : t.kind ≠ .error → Layout skipped behind →
      Passed t skipped behind
  | unexpected {skipped behind : List Char} {c : Char} : t.kind = .error →
      t.message = some "Unexpected character." → Layout skipped (c :: behind) → c ≠ '"' →
      NoToken (c :: behind) → Passed t (skipped ++ [c]) behind
  | unterminated {skipped body : List Char} : t.kind = .error →
      t.message = some "Unterminated string." → Layout skipped ('"' :: body) → '"' ∉ body →
      Passed t (skipped ++ '"' :: body) []

/-- `t` is the token that is found from `place` on in a source text. -/
structure Token.FoundFrom (source : List Char) (place : Nat) (t : Token) : Prop where
  place_le_start : place ≤ t.start
  start_le_stop : t.start ≤ t.stop
  stop_le_length : t.stop ≤ source.length
  extract_eq_lexeme : source.extract t.start t.stop = t.lexeme
  start_lt_stop : t.kind ≠ .error → t.kind ≠ .eof → t.start < t.stop
  of_error : t.kind = .error → t.lexeme = [] ∧ t.start = t.stop
  of_eof : t.kind = .eof → t.start = source.length ∧ t.stop = source.length
  passed : Passed t (source.extract place t.start) (source.drop t.start)

/-- Tokens that are found one behind the other from `place` on, with the end of the text as the
last one and nowhere before. -/
inductive Tiles (source : List Char) : Nat → List Token → Prop
  | stop {place : Nat} {t : Token} : t.FoundFrom source place → t.kind = .eof →
      Tiles source place [t]
  | more {place : Nat} {t : Token} {later : List Token} : t.FoundFrom source place →
      t.kind ≠ .eof → Tiles source t.stop later → Tiles source place (t :: later)

/-- The pieces into which tokens cut a source text from `place` on: in turns what is passed in
front of a token, and what the token covers. -/
def pieces (source : List Char) (place : Nat) : List Token → List (List Char)
  | [] => []
  | t :: later =>
    source.extract place t.start :: source.extract t.start t.stop :: pieces source t.stop later

/-! ## One token -/

section Found

variable {source : List Char} {place : Nat} {t : Token}

/-- A string literal without an end has no quote but its first. -/
theorem quote_notMem_of_noToken {body : List Char} (h : NoToken ('"' :: body)) : '"' ∉ body := by
  intro hquote
  obtain ⟨inside, behind, rfl, hinside⟩ := List.eq_append_cons_of_mem hquote
  refine h ('"' :: (inside ++ ['"'])) behind ?_ ⟨.string, .string hinside⟩
  simp

/-- Tokens without text stand where what is passed in front of them ends. -/
theorem Token.foundFrom_of_empty {passed behind : List Char} (hplace : place ≤ source.length)
    (hsplit : source.drop place = passed ++ behind) (hlexeme : t.lexeme = [])
    (hstart : t.start = place + passed.length) (hstop : t.stop = place + passed.length)
    (hkind : t.kind = .error ∨ t.kind = .eof ∧ behind = []) (hpassed : Passed t passed behind) :
    t.FoundFrom source place := by
  have hlength := length_of_drop hsplit hplace
  constructor
  case place_le_start => omega
  case start_le_stop => omega
  case stop_le_length => omega
  case extract_eq_lexeme =>
    rw [hlexeme, hstart, hstop, List.extract_eq_take_drop, Nat.sub_self, List.take_zero]
  case start_lt_stop =>
    intro hsound hmore
    rcases hkind with herror | ⟨heof, -⟩
    · exact absurd herror hsound
    · exact absurd heof hmore
  case of_error =>
    intro _
    exact ⟨hlexeme, hstart.trans hstop.symm⟩
  case of_eof =>
    intro heof
    rcases hkind with herror | ⟨-, rfl⟩
    · cases heof.symm.trans herror
    · rw [List.length_nil] at hlength
      omega
  case passed => rwa [hstart, extract_of_drop hsplit, drop_of_drop hsplit]

theorem Spells.foundFrom {skipped behind : List Char} (hplace : place ≤ source.length)
    (hsplit : source.drop place = skipped ++ (t.lexeme ++ behind)) (h : Spells t.kind t.lexeme)
    (hstart : t.start = place + skipped.length)
    (hstop : t.stop = place + skipped.length + t.lexeme.length)
    (hlayout : Layout skipped (t.lexeme ++ behind)) : t.FoundFrom source place := by
  have hlength := length_of_drop hsplit hplace
  rw [List.length_append] at hlength
  have hpos := List.length_pos_iff.mpr h.ne_nil
  obtain ⟨hmore, hsound⟩ := h.kind_ne
  constructor
  case place_le_start => omega
  case start_le_stop => omega
  case stop_le_length => omega
  case extract_eq_lexeme =>
    rw [hstart, hstop]
    exact extract_of_drop (drop_of_drop hsplit)
  case start_lt_stop =>
    intro _ _
    omega
  case of_error =>
    intro herror
    exact absurd herror hsound
  case of_eof =>
    intro heof
    exact absurd heof hmore
  case passed =>
    rw [hstart, extract_of_drop hsplit, drop_of_drop hsplit]
    exact .layout hsound hlayout

theorem ReadsAs.foundFrom {skipped ahead : List Char} (hplace : place ≤ source.length)
    (hsplit : source.drop place = skipped ++ ahead) (hlayout : Layout skipped ahead)
    (h : ReadsAs (place + skipped.length) ahead t) : t.FoundFrom source place := by
  cases h with
  | eof hnone hkind hlexeme hstart hstop =>
      have hsound : t.kind ≠ .error := by
        rw [hkind]
        decide
      exact Token.foundFrom_of_empty hplace hsplit hlexeme hstart hstop (.inr ⟨hkind, hnone⟩)
        (.layout hsound hlayout)
  | lexeme hlexeme _ hkinds hstart hstop =>
      subst hlexeme
      exact ((hkinds t.kind).mpr rfl).foundFrom hplace hsplit hstart hstop hlayout
  | @unterminated body hquote hnone hfault =>
      -- everything up to the end of the text is at fault
      subst hquote
      rw [Nat.add_assoc, ← List.length_append] at hfault
      rw [← List.append_nil (skipped ++ _)] at hsplit
      exact Token.foundFrom_of_empty hplace hsplit hfault.lexeme hfault.start hfault.stop
        (.inl hfault.kind)
        (.unterminated hfault.kind hfault.message hlayout (quote_notMem_of_noToken hnone))
  | @unexpected c behind hfirst hquote hnone hfault =>
      subst hfirst
      rw [Nat.add_assoc, show 1 = [c].length from rfl, ← List.length_append] at hfault
      rw [List.append_cons] at hsplit
      exact Token.foundFrom_of_empty hplace hsplit hfault.lexeme hfault.start hfault.stop
        (.inl hfault.kind) (.unexpected hfault.kind hfault.message hlayout hquote hnone)

/-- Something is passed or covered for every token but the end of the text. -/
theorem Token.FoundFrom.place_lt_stop (h : t.FoundFrom source place) (hmore : t.kind ≠ .eof) :
    place < t.stop := by
  have hstart := h.place_le_start
  have hstop := h.start_le_stop
  by_cases hsound : t.kind = .error
  · -- the text at fault is among what is passed
    have hpassed := h.passed
    have hpos : 0 < (source.extract place t.start).length := by
      generalize source.extract place t.start = passed, source.drop t.start = behind at hpassed
      cases hpassed with
      | layout hother => exact absurd hsound hother
      | unexpected | unterminated =>
          rw [List.length_append]
          exact Nat.add_pos_right _ (Nat.succ_pos _)
    rw [List.extract_eq_take_drop, List.length_take] at hpos
    omega
  · have := h.start_lt_stop hsound hmore
    omega

end Found

/-- **Step.** The next token for a cursor is found from where the cursor stands. -/
theorem Cursor.found_nextToken (c : Cursor) (h : c.current ≤ c.source.length) :
    c.nextToken.1.FoundFrom c.source c.current := by
  obtain ⟨skipped, ahead, hsplit, hlayout, hreads⟩ := c.exists_readsAs_nextToken
  exact hreads.foundFrom h hsplit hlayout.holds

/-- **Run.** All the tokens for a cursor are found one behind the other. -/
theorem Cursor.tiles_readAll (c : Cursor) (h : c.current ≤ c.source.length) :
    Tiles c.source c.current c.readAll.1 := by
  fun_induction readAll c with
  | case1 c heof => exact .stop (c.found_nextToken h) heof
  | case2 c hmore later ih =>
      -- reading goes on where the token stops, in the same text
      have hfound := c.found_nextToken h
      rw [c.current_nextToken, c.behind_nextToken.1] at ih
      exact .more hfound hmore (ih hfound.stop_le_length)

/-! ## The tokens of a text -/

namespace Tiles

variable {source : List Char} {place : Nat} {found : List Token}

theorem exists_stop (h : Tiles source place found) :
    ∃ body stop, found = body ++ [stop] ∧ (∀ t ∈ body, t.kind ≠ .eof) ∧ stop.kind = .eof ∧
      stop.start = source.length ∧ stop.stop = source.length := by
  induction h with
  | @stop place t hfound heof =>
      obtain ⟨hstart, hstop⟩ := hfound.of_eof heof
      exact ⟨[], t, rfl, by simp, heof, hstart, hstop⟩
  | @more place t later _ hmore _ ih =>
      obtain ⟨body, stop, rfl, hbody, hstop⟩ := ih
      exact ⟨t :: body, stop, rfl, List.forall_mem_cons.mpr ⟨hmore, hbody⟩, hstop⟩

/-- Every token is found from where the one before it stops. -/
theorem foundFrom (h : Tiles source place found) {before after : List Token} {t : Token}
    (hsplit : found = before ++ t :: after) :
    t.FoundFrom source (before.getLast?.elim place Token.stop) := by
  induction h generalizing before with
  | stop hfound =>
      obtain ⟨rfl, hsame⟩ | ⟨_, -, hnone⟩ := List.cons_eq_append_iff.mp hsplit
      · obtain ⟨rfl, -⟩ := List.cons.inj hsame
        exact hfound
      · cases (List.append_eq_nil_iff.mp hnone.symm).2
  | @more place u later hfound _ _ ih =>
      obtain ⟨rfl, hsame⟩ | ⟨before, rfl, hlater⟩ := List.cons_eq_append_iff.mp hsplit
      · obtain ⟨rfl, -⟩ := List.cons.inj hsame
        exact hfound
      · have hnext := ih hlater
        rw [List.getLast?_cons]
        cases hlast : before.getLast? <;> rwa [hlast] at hnext

theorem flatten_pieces (h : Tiles source place found) :
    (pieces source place found).flatten = source.drop place := by
  induction h with
  | @stop place t hfound heof =>
      have hend : source.drop t.stop = [] := by
        rw [(hfound.of_eof heof).2, List.drop_length]
      rw [← extract_append_drop source hfound.place_le_start,
        ← extract_append_drop source hfound.start_le_stop, hend]
      rfl
  | @more place t later hfound _ _ ih =>
      rw [← extract_append_drop source hfound.place_le_start,
        ← extract_append_drop source hfound.start_le_stop, ← ih]
      rfl

theorem length_le (h : Tiles source place found) : found.length + place ≤ source.length + 1 := by
  induction h with
  | @stop place t hfound heof =>
      have := hfound.place_le_start
      have := hfound.of_eof heof
      rw [List.length_singleton]
      omega
  | @more place t later hfound hmore _ ih =>
      have := hfound.place_lt_stop hmore
      rw [List.length_cons]
      omega

end Tiles

/-- **Tokens tile the source text.**  The last token, and no other, is the end of the text, and it
stands there.  Each token is found from where the one before it stops: what is passed between the
two is layout and, in front of a token for faulty text, the text at fault; a token for faulty text
is empty, and any other covers its lexeme, which is not empty but for the end of the text.  So the
pieces that are passed and covered make up the text again, and there is at most one token more
than there are characters. -/
theorem tokens_tile (source : List Char) :
    (∃ body stop, tokens source = body ++ [stop] ∧ (∀ t ∈ body, t.kind ≠ .eof) ∧
        stop.kind = .eof ∧ stop.start = source.length ∧ stop.stop = source.length) ∧
      (∀ before t after, tokens source = before ++ t :: after →
        t.FoundFrom source (readingPlace before)) ∧
      (pieces source 0 (tokens source)).flatten = source ∧
      (tokens source).length ≤ source.length + 1 := by
  have htiles : Tiles source 0 (tokens source) :=
    (Cursor.ofText source).tiles_readAll (Nat.zero_le _)
  refine ⟨htiles.exists_stop, ?_, htiles.flatten_pieces, htiles.length_le⟩
  intro before t after hsplit
  exact htiles.foundFrom hsplit

/-- A comment and a character that begins no token are passed in front of the second token. -/
theorem tokens_tile_unexpected :
    let source := "7 // ~\n@\"x".toList
    let t : Token := ⟨.error, [], 8, 8, 2, some "Unexpected character."⟩
    tokens source = [⟨.number, ['7'], 0, 1, 1, none⟩] ++ t :: (tokens source).drop 2 ∧
      t.FoundFrom source 1 := by
  intro source t
  have hsplit : tokens source =
      [⟨.number, ['7'], 0, 1, 1, none⟩] ++ t :: (tokens source).drop 2 := by decide +kernel
  exact ⟨hsplit, (tokens_tile source).2.1 _ t _ hsplit⟩

end LoxBytecode

import LoxBytecode.Proofs.Cursor.Stream
import LoxBytecode.Proofs.Lexis.Longest

/-!
# Tokens are longest matches

A cursor skips the longest layout ahead and then reads the longest piece that is a token of
some kind.  Where no piece is one, it passes a single character, or, behind a quote that is
never closed, all that is left.  Every token says where it ends, and reading goes on there, so
this tells all tokens of a source text from its characters.
-/

namespace LoxBytecode

/-! ## What a token may be -/

/-- A token for faulty text that ends at an offset. -/
structure Token.IsFault (t : Token) (message : String) (offset : Nat) : Prop where
  kind : t.kind = .error
  lexeme : t.lexeme = []
  start : t.start = offset
  stop : t.stop = offset
  message : t.message = some message

/-- No piece at the beginning of a text is a token. -/
def NoToken (ahead : List Char) : Prop :=
  ∀ text behind, text ++ behind = ahead → ¬IsToken text behind

/-- What the next token has to be at an offset, where no layout comes first and `ahead` is all
that is left. -/
inductive ReadsAs (offset : Nat) (ahead : List Char) (t : Token) : Prop
  | eof : ahead = [] → t.kind = .eof → t.lexeme = [] → t.start = offset → t.stop = offset →
      t.message = none → ReadsAs offset ahead t
  | lexeme {behind : List Char} : ahead = t.lexeme ++ behind →
      IsLongestMatch IsToken t.lexeme behind → (∀ kind, Spells kind t.lexeme ↔ kind = t.kind) →
      t.start = offset → t.stop = offset + t.lexeme.length → t.message = none →
      ReadsAs offset ahead t
  | unterminated {more : List Char} : ahead = '"' :: more → NoToken ahead →
      t.IsFault "Unterminated string." (offset + ahead.length) → ReadsAs offset ahead t
  | unexpected {first : Char} {more : List Char} : ahead = first :: more → first ≠ '"' →
      NoToken ahead → t.IsFault "Unexpected character." (offset + 1) → ReadsAs offset ahead t

/-- Where reading goes on behind some tokens of a source text. -/
def readingPlace (before : List Token) : Nat := before.getLast?.elim 0 Token.stop

/-! ## Words -/

namespace Token.Kind

theorem lookup_keywords_iff {word : String} {kind : Kind} :
    keywords.lookup word = some kind ↔ kind.keyword? = some word := by
  constructor
  · intro h
    have hkeywords : ∀ entry ∈ keywords, entry.2.keyword? = some entry.1 := by decide
    obtain ⟨before, after, hsplit, -⟩ := List.lookup_eq_some_iff.mp h
    exact hkeywords (word, kind) (by simp [hsplit])
  · intro h
    cases kind <;> cases h <;> rfl

theorem names_ofWord (word : List Char) : (ofWord word).Names word := by
  unfold ofWord
  cases hlookup : keywords.lookup (String.ofList word) with
  | some kind => exact .inl (lookup_keywords_iff.mp hlookup)
  | none =>
      refine .inr ⟨rfl, fun other hother => ?_⟩
      cases hlookup.symm.trans (lookup_keywords_iff.mpr hother)

end Token.Kind

/-! ## The moves of a cursor -/

namespace Cursor

variable {c : Cursor} {first : Char} {more : List Char}

theorem rest_consume {taken behind : List Char} (h : c.rest = taken ++ behind) :
    (c.consume taken).rest = behind := by
  have hdrop : (c.consume taken).rest = c.rest.drop taken.length := by simp [rest, consume]
  rw [hdrop, h, List.drop_left]

theorem rest_step (h : c.rest = first :: more) : c.step.rest = more := by
  have hdrop : c.step.rest = c.rest.drop 1 := by simp [rest, step]
  rw [hdrop, h]
  rfl

theorem consume_nil (c : Cursor) : c.consume [] = c := rfl

theorem consume_append (c : Cursor) (taken taken' : List Char) :
    c.consume (taken ++ taken') = (c.consume taken).consume taken' := by
  simp [consume, Nat.add_assoc]

theorem consume_singleton (h : first ≠ '\n') (c : Cursor) : c.consume [first] = c.step := by
  simp [consume, step, h]

theorem consume_cons (h : first ≠ '\n') (c : Cursor) (taken : List Char) :
    c.consume (first :: taken) = c.step.consume taken := by
  rw [← List.singleton_append, consume_append, consume_singleton h]

theorem step_consume_step (c : Cursor) (taken : List Char) {last : Char} (h : last ≠ '\n') :
    (c.step.consume taken).step = c.step.consume (taken ++ [last]) := by
  rw [consume_append, consume_singleton h]

theorem rest_consume_singleton (h : c.rest = first :: more) : (c.consume [first]).rest = more :=
  rest_consume h

/-- The cursor behind all characters that `p` holds of, up to the first one that it does not hold
of. -/
def past (p : Char → Bool) (c : Cursor) : Cursor := c.consume (c.rest.takeWhile p)

section Past

variable {p : Char → Bool}

theorem past_of_nil (h : c.rest = []) : c.past p = c := by
  rw [past, h, List.takeWhile_nil, consume_nil]

theorem past_of_not (h : c.rest = first :: more) (hfirst : ¬p first = true) : c.past p = c := by
  rw [past, h, List.takeWhile_cons_of_neg hfirst, consume_nil]

theorem past_consume (h : c.rest = first :: more) (hfirst : p first = true) :
    (c.consume [first]).past p = c.past p := by
  rw [past, past, rest_consume_singleton h, h, List.takeWhile_cons_of_pos hfirst,
    ← consume_append, List.singleton_append]

theorem rest_past (c : Cursor) : (c.past p).rest = c.rest.dropWhile p :=
  rest_consume (List.takeWhile_append_dropWhile).symm

end Past

theorem lexeme_consume (hstart : c.start = c.current) {taken behind : List Char}
    (hrest : c.rest = first :: (taken ++ behind)) :
    (c.step.consume taken).lexeme = first :: taken := by
  have hlength : c.current + 1 + taken.length - c.start = taken.length + 1 := by omega
  have hdrop : (c.step.consume taken).lexeme =
      c.rest.take (c.current + 1 + taken.length - c.start) := by
    simp [lexeme, consume, step, hstart, rest]
  rw [hdrop, hlength, hrest]
  simp

/-! ## Reading a token -/

theorem readsAs_lexeme (hstart : c.start = c.current) {taken behind : List Char}
    (hrest : c.rest = first :: (taken ++ behind))
    (hlongest : IsLongestMatch IsToken (first :: taken) behind) {kind : Token.Kind}
    (hkind : Spells kind (first :: taken)) :
    ReadsAs c.current c.rest ((c.step.consume taken).token kind) := by
  have hlexeme : ((c.step.consume taken).token kind).lexeme = first :: taken :=
    lexeme_consume hstart hrest
  have hsplit : c.rest = ((c.step.consume taken).token kind).lexeme ++ behind := by
    rw [hlexeme, hrest, List.cons_append]
  refine .lexeme hsplit ?_ ?_ hstart ?_ rfl
  · rwa [hlexeme]
  · intro other
    rw [hlexeme]
    exact ⟨fun hother => hother.kind_unique hkind, fun hother => hother ▸ hkind⟩
  · rw [hlexeme]
    simp only [token, consume, step, List.length_cons]
    omega

theorem readsAs_identifier (hstart : c.start = c.current) (hrest : c.rest = first :: more)
    (hfirst : IsLetter first) : ReadsAs c.current c.rest c.step.identifier.1 := by
  have hsplit : c.rest = first :: (more.takeWhile isWordChar ++ more.dropWhile isWordChar) := by
    rw [hrest, List.takeWhile_append_dropWhile]
  have hnames := Token.Kind.names_ofWord (first :: more.takeWhile isWordChar)
  have hword : ∀ c ∈ more.takeWhile isWordChar, IsLetter c ∨ IsDigit c :=
    fun c hc => (isWordChar_iff c).mp (List.mem_takeWhile_imp hc)
  unfold identifier
  dsimp only
  rw [rest_step hrest, lexeme_consume hstart hsplit]
  exact readsAs_lexeme hstart hsplit (isLongestMatch_word hfirst hnames)
    (.word hfirst hword hnames)

theorem readsAs_number (hstart : c.start = c.current) (hrest : c.rest = first :: more)
    (hfirst : IsDigit first) : ReadsAs c.current c.rest c.step.number.1 := by
  obtain ⟨behind, hbehind⟩ := exists_behind_leadingNumeral more
  unfold number
  rw [rest_step hrest]
  exact readsAs_lexeme hstart (hbehind ▸ hrest) (isLongestMatch_number hfirst hbehind)
    (spells_leadingNumeral hfirst more)

theorem noToken_of_no_quote (h : '"' ∉ more) : NoToken ('"' :: more) := by
  rintro text behind hsplit ⟨kind, hspells⟩
  obtain _ | ⟨first, text⟩ := text
  · exact hspells.ne_nil rfl
  obtain ⟨rfl, rfl⟩ := List.cons.inj hsplit
  obtain ⟨-, body, rfl, -⟩ := hspells.of_quote
  simp at h

theorem readsAs_string (hstart : c.start = c.current) (hrest : c.rest = '"' :: more) :
    ReadsAs c.current c.rest c.step.string.1 := by
  have hsplit := List.takeWhile_append_dropWhile (p := (· != '"')) (l := more)
  have hbody : '"' ∉ more.takeWhile (· != '"') := by
    intro hquote
    simpa using List.mem_takeWhile_imp hquote
  have hbehind := rest_consume ((rest_step hrest).trans hsplit.symm)
  unfold string
  rw [rest_step hrest]
  dsimp only
  generalize more.takeWhile (· != '"') = body at hsplit hbody hbehind ⊢
  cases hdrop : more.dropWhile (· != '"') with
  | nil =>
      -- there is no quote in the rest of the text
      rw [hdrop, List.append_nil] at hsplit
      subst hsplit
      have hend : (c.step.consume body).isAtEnd = true := by simp [isAtEnd, hbehind, hdrop]
      rw [if_pos hend]
      have hlength : (c.step.consume body).current = c.current + c.rest.length := by
        simp only [consume, step, hrest, List.length_cons]
        omega
      exact .unterminated hrest (hrest ▸ noToken_of_no_quote hbody)
        ⟨rfl, rfl, hlength, hlength, rfl⟩
  | cons quote behind =>
      have hquote := List.head?_dropWhile_not (· != '"') more
      obtain rfl : quote = '"' := by simpa [hdrop] using hquote
      rw [hdrop] at hsplit hbehind
      have hinside : ¬(c.step.consume body).isAtEnd = true := by simp [isAtEnd, hbehind]
      rw [if_neg hinside, step_consume_step c body (by decide : '"' ≠ '\n')]
      have hlongest : IsLongestMatch IsToken ('"' :: (body ++ ['"'])) behind :=
        isLongestMatch_string hbody
      exact readsAs_lexeme hstart (by simp [hrest, ← hsplit]) hlongest (.string hbody)

/-! ## Punctuation -/

/-- A mark is read as far as no longer mark begins at the same place. -/
theorem readsAs_mark (hstart : c.start = c.current) {taken behind : List Char}
    (hrest : c.rest = first :: (taken ++ behind)) {kind : Token.Kind}
    (hkind : kind.mark? = some (first :: taken))
    (hlongest : ∀ (other : Token.Kind) (text rest : List Char), text ++ rest = taken ++ behind →
      other.mark? = some (first :: text) → text.length ≤ taken.length) :
    ReadsAs c.current c.rest ((c.step.consume taken).token kind) := by
  obtain ⟨hletter, hdigit, hquote⟩ := Spells.head_of_mark hkind
  refine readsAs_lexeme hstart hrest ⟨⟨kind, .mark hkind⟩, fun {other rest} heq hother => ?_⟩
    (.mark hkind)
  obtain ⟨kind', hspells⟩ := hother
  obtain _ | ⟨c, text⟩ := other
  · exact absurd rfl hspells.ne_nil
  obtain ⟨rfl, htext⟩ := List.cons.inj heq
  have hmark := hspells.of_other hletter hdigit hquote
  exact Nat.succ_le_succ (hlongest kind' text rest htext hmark)

theorem readsAs_single (hstart : c.start = c.current) (hrest : c.rest = first :: more)
    {kind : Token.Kind} (hmark : Token.Kind.ofMark? first = some kind) :
    ReadsAs c.current c.rest (c.step.token kind) := by
  have hkind : kind.mark? = some [first] := mark?_cons_iff.mpr (.inl ⟨hmark, rfl⟩)
  have hread : ReadsAs c.current c.rest ((c.step.consume []).token kind) := by
    refine readsAs_mark hstart hrest hkind fun other text rest _ hother => ?_
    rcases mark?_cons_iff.mp hother with ⟨-, rfl⟩ | ⟨_, _, hextensible, -⟩
    · exact Nat.le_refl _
    · rw [ofExtensibleMark?_of_ofMark? hmark] at hextensible
      cases hextensible
  exact hread

theorem readsAs_extensible (hstart : c.start = c.current) (hrest : c.rest = first :: more)
    {alone extended : Token.Kind}
    (hmark : Token.Kind.ofExtensibleMark? first = some (alone, extended)) :
    ReadsAs c.current c.rest
      (match c.step.accept ['='] with
        | (true, d) => (d.token extended, d)
        | (false, d) => (d.token alone, d)).1 := by
  have halone : alone.mark? = some [first] :=
    mark?_cons_iff.mpr (.inr ⟨alone, extended, hmark, .inl ⟨rfl, rfl⟩⟩)
  have hextended : extended.mark? = some [first, '='] :=
    mark?_cons_iff.mpr (.inr ⟨alone, extended, hmark, .inr ⟨rfl, rfl⟩⟩)
  have hmarks : ∀ (other : Token.Kind) (text : List Char), other.mark? = some (first :: text) →
      text = [] ∨ text = ['='] := by
    intro other text hother
    rcases mark?_cons_iff.mp hother with ⟨-, rfl⟩ | ⟨_, _, -, ⟨-, rfl⟩ | ⟨-, rfl⟩⟩
    · exact .inl rfl
    · exact .inl rfl
    · exact .inr rfl
  by_cases hequals : more.head? = some '='
  · obtain ⟨behind, rfl⟩ := List.head?_eq_some_iff.mp hequals
    have haccept : c.step.accept ['='] = (true, c.step.consume ['=']) := by
      rw [accept, rest_step hrest]
      rfl
    have hread : ReadsAs c.current c.rest ((c.step.consume ['=']).token extended) := by
      refine readsAs_mark hstart hrest hextended fun other text rest _ hother => ?_
      rcases hmarks other text hother with rfl | rfl <;> simp
    rw [haccept]
    exact hread
  · have haccept : c.step.accept ['='] = (false, c.step.consume []) := by
      rw [accept, rest_step hrest]
      cases more with
      | nil => rfl
      | cons next behind =>
          have hnext : ['='] ≠ [next] := fun heq => hequals (by rw [← (List.cons.inj heq).1]; rfl)
          simp only [if_neg hnext]
          rfl
    have hread : ReadsAs c.current c.rest ((c.step.consume []).token alone) := by
      refine readsAs_mark hstart hrest halone fun other text rest hsplit hother => ?_
      rcases hmarks other text hother with rfl | rfl
      · exact Nat.le_refl _
      · have hmore : '=' :: rest = more := hsplit
        exact absurd (by rw [← hmore]; rfl) hequals
    rw [haccept]
    exact hread

theorem readsAs_unexpected (hrest : c.rest = first :: more) (hletter : ¬IsLetter first)
    (hdigit : ¬IsDigit first) (hquote : first ≠ '"') (hmark : Token.Kind.ofMark? first = none)
    (hextensible : Token.Kind.ofExtensibleMark? first = none) :
    ReadsAs c.current c.rest (c.step.errorToken "Unexpected character.") := by
  refine .unexpected hrest hquote ?_ ⟨rfl, rfl, rfl, rfl, rfl⟩
  rintro text behind hsplit ⟨kind, hspells⟩
  rw [hrest] at hsplit
  obtain _ | ⟨c, text⟩ := text
  · exact hspells.ne_nil rfl
  obtain ⟨rfl, -⟩ := List.cons.inj hsplit
  rcases mark?_cons_iff.mp (hspells.of_other hletter hdigit hquote) with
    ⟨hsome, -⟩ | ⟨_, _, hsome, -⟩
  · cases hmark.symm.trans hsome
  · cases hextensible.symm.trans hsome

/-! ## The next token -/

theorem readsAs_continueFrom (hstart : c.start = c.current) (hrest : c.rest = first :: more) :
    ReadsAs c.current c.rest (c.step.continueFrom first).1 := by
  unfold continueFrom
  by_cases hletter : isAlpha first = true
  · rw [if_pos hletter]
    exact readsAs_identifier hstart hrest ((isAlpha_iff first).mp hletter)
  by_cases hdigit : isDigit first = true
  · rw [if_neg hletter, if_pos hdigit]
    exact readsAs_number hstart hrest ((isDigit_iff first).mp hdigit)
  by_cases hquote : first = '"'
  · subst hquote
    exact readsAs_string hstart hrest
  rw [if_neg hletter, if_neg hdigit, if_neg (by simpa using hquote)]
  rw [isAlpha_iff] at hletter
  rw [isDigit_iff] at hdigit
  cases hmark : Token.Kind.ofMark? first with
  | some kind => exact readsAs_single hstart hrest hmark
  | none =>
      cases hextensible : Token.Kind.ofExtensibleMark? first with
      | some kinds => exact readsAs_extensible hstart hrest hextensible
      | none => exact readsAs_unexpected hrest hletter hdigit hquote hmark hextensible

/-- The next token is the longest match behind the longest layout. -/
theorem exists_readsAs_nextToken (c : Cursor) :
    ∃ skipped ahead, c.rest = skipped ++ ahead ∧ IsLongestMatch Layout skipped ahead ∧
      ReadsAs (c.current + skipped.length) ahead c.nextToken.1 := by
  obtain ⟨ahead, hsplit, hlayout⟩ := isLongestMatch_leadingLayout c.rest
  have hahead : c.skipLayout.mark.rest = ahead := rest_consume hsplit
  refine ⟨_, ahead, hsplit, hlayout, ?_⟩
  unfold nextToken
  dsimp only
  cases hrest : c.skipLayout.mark.rest with
  | nil => exact .eof (hahead.symm.trans hrest) rfl (by simp [token, lexeme, mark]) rfl rfl rfl
  | cons first more =>
      rw [← hahead]
      exact readsAs_continueFrom (c := c.skipLayout.mark) rfl hrest

/-- A token has the place and the line of the cursor behind it. -/
theorem place_nextToken (c : Cursor) :
    c.nextToken.2.current = c.nextToken.1.stop ∧ c.nextToken.2.line = c.nextToken.1.line := by
  unfold nextToken
  dsimp only
  split
  · exact ⟨rfl, rfl⟩
  · unfold continueFrom string
    dsimp only
    split
    · exact ⟨rfl, rfl⟩
    split
    · exact ⟨rfl, rfl⟩
    split
    · split <;> exact ⟨rfl, rfl⟩
    split
    · exact ⟨rfl, rfl⟩
    · split <;> exact ⟨rfl, rfl⟩
    · exact ⟨rfl, rfl⟩

/-- A token ends where the next one is looked for. -/
theorem current_nextToken (c : Cursor) : c.nextToken.2.current = c.nextToken.1.stop :=
  c.place_nextToken.1

theorem line_nextToken (c : Cursor) : c.nextToken.2.line = c.nextToken.1.line :=
  c.place_nextToken.2

/-! ## All tokens -/

theorem readAll_ne_nil (c : Cursor) : c.readAll.1 ≠ [] := by
  obtain ⟨body, stop, hsplit, -⟩ := c.readAll_eq_append
  simp [hsplit]

/-- Every token is the next one for the cursor that stands where the token before it ends. -/
theorem exists_cursor_of_readAll {c : Cursor} {before after : List Token} {t : Token}
    (h : c.readAll.1 = before ++ t :: after) :
    ∃ d : Cursor, d.source = c.source ∧
      d.current = before.getLast?.elim c.current Token.stop ∧ d.nextToken.1 = t ∧
      (t.kind = .eof ↔ after = []) := by
  fun_induction readAll c generalizing before with
  | case1 c heof =>
      obtain ⟨rfl, hlater⟩ : before = [] ∧ [c.nextToken.1] = t :: after := by
        cases before with
        | nil => exact ⟨rfl, h⟩
        | cons u before => simp at h
      obtain ⟨rfl, rfl⟩ := List.cons.inj hlater
      exact ⟨c, rfl, rfl, rfl, by simp [heof]⟩
  | case2 c hmore later =>
      rename_i ih
      cases before with
      | nil =>
          obtain ⟨rfl, rfl⟩ := List.cons.inj h
          exact ⟨c, rfl, rfl, rfl, by simp [hmore, later, readAll_ne_nil]⟩
      | cons u before =>
          obtain ⟨rfl, hlater⟩ := List.cons.inj h
          obtain ⟨d, hsource, hcurrent, hnext, hlast⟩ := ih hlater
          refine ⟨d, hsource.trans c.behind_nextToken.1, ?_, hnext, hlast⟩
          rw [hcurrent, List.getLast?_cons, current_nextToken]
          cases before.getLast? <;> rfl

end Cursor

/-- **Tokens are longest matches.**  From the place where the token before it ends, the longest
layout is skipped; the token is then the longest piece that belongs to a token class, of the
kind of that class, or else it stands for the text that no token class covers. -/
theorem tokens_longest_match {source : List Char} {before after : List Token} {t : Token}
    (h : tokens source = before ++ t :: after) :
    ∃ skipped ahead, source.drop (readingPlace before) = skipped ++ ahead ∧
      IsLongestMatch Layout skipped ahead ∧
      ReadsAs (readingPlace before + skipped.length) ahead t ∧
      (t.kind = .eof ↔ after = []) := by
  obtain ⟨d, hsource, hcurrent, rfl, hlast⟩ := Cursor.exists_cursor_of_readAll h
  obtain ⟨skipped, ahead, hsplit, hlayout, hreads⟩ := d.exists_readsAs_nextToken
  rw [Cursor.rest, hsource, hcurrent] at hsplit
  rw [hcurrent] at hreads
  exact ⟨skipped, ahead, hsplit, hlayout, hreads, hlast⟩

/-- A point behind a numeral does not belong to it if a null character follows. -/
theorem tokens_point_before_null :
    ∃ t : Token, tokens "// 7\n12.\x00".toList =
        [⟨.number, ['1', '2'], 5, 7, 2, none⟩] ++ t :: (tokens "// 7\n12.\x00".toList).drop 2 ∧
      t.kind = .dot ∧
      ∃ skipped ahead, ['.', '\x00'] = skipped ++ ahead ∧ IsLongestMatch Layout skipped ahead ∧
        ReadsAs (7 + skipped.length) ahead t ∧
        (t.kind = .eof ↔ (tokens "// 7\n12.\x00".toList).drop 2 = []) := by
  have h : tokens "// 7\n12.\x00".toList =
      [⟨.number, ['1', '2'], 5, 7, 2, none⟩] ++ ⟨.dot, ['.'], 7, 8, 2, none⟩ ::
        (tokens "// 7\n12.\x00".toList).drop 2 := by decide +kernel
  exact ⟨_, h, rfl, tokens_longest_match h⟩

end LoxBytecode

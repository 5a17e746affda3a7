import LoxBytecode.Proofs.Cursor.Tokens
import LoxBytecode.Proofs.Lexis.Separation

/-!
# The contents of tokens

The content of a token is its kind and its text, without the place where it stands.  A source
text that is put together from layout and the texts of tokens, in such a way that each of them
is the longest match where it stands, gives back just the contents that it was put together from
(`contents_of_yields`).
-/

namespace LoxBytecode

/-- What a token is, apart from where it stands. -/
structure Token.Content where
  kind : Token.Kind
  text : List Char
  deriving DecidableEq, Repr

def Token.content (t : Token) : Token.Content := ⟨t.kind, t.lexeme⟩

/-- The content of the token at the end of a text. -/
def Token.Content.stop : Token.Content := ⟨.eof, []⟩

/-- A text that is made up of tokens with the given contents: in front of each of them and at
the end there may be layout. -/
inductive Yields : List Char → List Token.Content → Prop
  | layout {text : List Char} : Layout text [] → Yields text []
  | token {gap behind : List Char} {x : Token.Content} {later : List Token.Content} :
      IsLongestMatch Layout gap (x.text ++ behind) → IsLongestMatch IsToken x.text behind →
      Spells x.kind x.text → Yields behind later → Yields (gap ++ (x.text ++ behind)) (x :: later)

theorem Spells.kind_ne {kind : Token.Kind} {text : List Char} (h : Spells kind text) :
    kind ≠ .eof ∧ kind ≠ .error := by
  cases h with
  | mark hmark => constructor <;> rintro rfl <;> cases hmark
  | word _ _ hnames =>
      rcases hnames with hkeyword | ⟨rfl, -⟩
      · constructor <;> rintro rfl <;> cases hkeyword
      · decide
  | whole | fraction | string => decide

/-- A token behind a gap comes before what the text behind it is made up of, if that text neither
goes on with the token nor makes a comment of it. -/
theorem Yields.behind_gap {gap behind : List Char} {x : Token.Content}
    {later : List Token.Content} (hgap : IsGap gap) (hkind : Spells x.kind x.text)
    (hlongest : IsLongestMatch IsToken x.text behind)
    (hslash : x.text = ['/'] → behind.head? ≠ some '/') (h : Yields behind later) :
    Yields (gap ++ (x.text ++ behind)) (x :: later) := by
  refine .token (isLongestMatch_layout ?_) hlongest hkind h
  rw [hgap.leadingLayout_append, leadingLayout_of_spells hkind hslash, List.append_nil]

theorem Yields.mark {first : Char} {behind : List Char} {kind : Token.Kind}
    {later : List Token.Content} (hmark : Token.Kind.ofMark? first = some kind)
    (hslash : first = '/' → behind.head? ≠ some '/') (h : Yields behind later) :
    Yields (first :: behind) (⟨kind, [first]⟩ :: later) :=
  .behind_gap (x := ⟨kind, [first]⟩) .none (.of_ofMark? hmark) (isLongestMatch_mark hmark behind)
    (fun heq => hslash (List.cons.inj heq).1) h

theorem Yields.mark_of_ne {first : Char} {behind : List Char} {kind : Token.Kind}
    {later : List Token.Content} (hmark : Token.Kind.ofMark? first = some kind)
    (hslash : first ≠ '/') (h : Yields behind later) :
    Yields (first :: behind) (⟨kind, [first]⟩ :: later) :=
  .mark hmark (fun heq => absurd heq hslash) h

theorem Yields.numeral {text behind : List Char} {later : List Token.Content}
    (htext : Spells .number text) (hends : EndsToken behind) (h : Yields behind later) :
    Yields (text ++ behind) (⟨.number, text⟩ :: later) := by
  refine .behind_gap (x := ⟨.number, text⟩) .none htext (isLongestMatch_of_endsToken htext hends)
    ?_ h
  rintro rfl
  obtain ⟨_, _, heq, hdigit, -⟩ := htext.of_number
  rw [← (List.cons.inj heq).1] at hdigit
  exact absurd hdigit (by decide)

/-! ## Reading what a text is made up of -/

namespace Cursor

variable {c : Cursor} {gap behind : List Char}

theorem nextToken_of_longest {x : Token.Content} (hrest : c.rest = gap ++ (x.text ++ behind))
    (hgap : IsLongestMatch Layout gap (x.text ++ behind))
    (hlongest : IsLongestMatch IsToken x.text behind) (hkind : Spells x.kind x.text) :
    c.nextToken.1.content = x ∧ c.nextToken.2.rest = behind := by
  obtain ⟨skipped, ahead, hsplit, hskipped, hreads⟩ := c.exists_readsAs_nextToken
  obtain ⟨rfl, rfl⟩ := hskipped.unique hgap (hsplit.symm.trans hrest)
  cases hreads with
  | eof hahead => exact absurd (List.append_eq_nil_iff.mp hahead).1 hkind.ne_nil
  | lexeme hahead hlongest' hkinds _ hstop =>
      obtain ⟨htext, rfl⟩ := hlongest.unique hlongest' hahead
      have hsame := (hkinds x.kind).mp (htext ▸ hkind)
      refine ⟨by rw [Token.content, ← hsame, ← htext], ?_⟩
      rw [rest, current_nextToken, c.behind_nextToken.1, hstop, ← htext, ← List.drop_drop,
        ← List.drop_drop]
      show (c.rest.drop _).drop _ = behind
      rw [hrest, List.drop_left, List.drop_left]
  | unterminated _ hnone | unexpected _ _ hnone => exact absurd hlongest.holds (hnone _ _ rfl)

theorem nextToken_of_layout (h : Layout c.rest []) : c.nextToken.1.content = .stop := by
  obtain ⟨skipped, ahead, hsplit, hskipped, hreads⟩ := c.exists_readsAs_nextToken
  have hle := hskipped.length_le (by rw [List.append_nil, hsplit]) h
  have hlength := congrArg List.length hsplit
  rw [List.length_append] at hlength
  obtain rfl : ahead = [] := List.eq_nil_of_length_eq_zero (by omega)
  cases hreads with
  | eof _ hkind hlexeme => rw [Token.content, hkind, hlexeme, Token.Content.stop]
  | lexeme hahead hlongest =>
      obtain ⟨kind, hkind⟩ := hlongest.holds
      exact absurd (List.append_eq_nil_iff.mp hahead.symm).1 hkind.ne_nil
  | unterminated hahead | unexpected hahead => cases hahead

theorem contents_readAll {text : List Char} {contents : List Token.Content}
    (h : Yields text contents) (hrest : c.rest = text) :
    c.readAll.1.map Token.content = contents ++ [.stop] := by
  induction h generalizing c with
  | layout hlayout =>
      subst hrest
      have hstop := nextToken_of_layout hlayout
      rw [readAll_of_eof (congrArg Token.Content.kind hstop)]
      simp [hstop]
  | @token gap behind x later hgap hlongest hkind _ ih =>
      obtain ⟨hcontent, hbehind⟩ := nextToken_of_longest hrest hgap hlongest hkind
      have hmore : c.nextToken.1.kind ≠ .eof := by
        rw [show c.nextToken.1.kind = x.kind from congrArg Token.Content.kind hcontent]
        exact hkind.kind_ne.1
      rw [readAll_of_ne_eof hmore, List.map_cons, ih hbehind, hcontent, List.cons_append]

end Cursor

/-- The tokens of a text that is made up of contents. -/
theorem contents_of_yields {text : List Char} {contents : List Token.Content}
    (h : Yields text contents) : (tokens text).map Token.content = contents ++ [.stop] :=
  Cursor.contents_readAll (c := .ofText text) h rfl

/-! ## The contents of any source text -/

section Tokens

variable {source : List Char} {t : Token}

theorem exists_readsAs_of_mem (h : t ∈ tokens source) : ∃ offset ahead, ReadsAs offset ahead t := by
  obtain ⟨before, after, hsplit⟩ := List.append_of_mem h
  obtain ⟨d, -, -, rfl, -⟩ := Cursor.exists_cursor_of_readAll hsplit
  obtain ⟨_, _, -, -, hreads⟩ := d.exists_readsAs_nextToken
  exact ⟨_, _, hreads⟩

theorem ReadsAs.spells {offset : Nat} {ahead : List Char} (h : ReadsAs offset ahead t)
    (hsound : t.kind ≠ .error) (hmore : t.kind ≠ .eof) : Spells t.kind t.lexeme := by
  cases h with
  | eof _ heof => exact absurd heof hmore
  | lexeme _ _ hkinds => exact (hkinds t.kind).mpr rfl
  | unterminated _ _ hfault | unexpected _ _ _ hfault => exact absurd hfault.kind hsound

theorem spells_of_mem_tokens (h : t ∈ tokens source) (hsound : t.kind ≠ .error)
    (hmore : t.kind ≠ .eof) : Spells t.kind t.lexeme := by
  obtain ⟨_, _, hreads⟩ := exists_readsAs_of_mem h
  exact hreads.spells hsound hmore

theorem content_of_eof (h : t ∈ tokens source) (heof : t.kind = .eof) : t.content = .stop := by
  obtain ⟨_, _, hreads⟩ := exists_readsAs_of_mem h
  cases hreads with
  | eof _ _ hlexeme => rw [Token.content, heof, hlexeme, Token.Content.stop]
  | lexeme _ hlongest hkinds =>
      have hkind := (hkinds t.kind).mpr rfl
      exact absurd heof hkind.kind_ne.1
  | unterminated _ _ hfault | unexpected _ _ _ hfault => cases hfault.kind.symm.trans heof

end Tokens

end LoxBytecode

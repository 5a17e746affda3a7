import LoxBytecode.Proofs.Cursor.Contents
import LoxBytecode.Proofs.Cursor.Lines
import LoxBytecode.Proofs.Text.Word
import LoxBytecode.Token.Listing

/-!
# Listings of tokens

A listing shows the text of a token as it is, between apostrophes and with nothing escaped, so a
string literal can hold apostrophes, line ends and whole entries of another listing.  A listing
can be read back all the same.  Each entry names a kind of token first, and the kind tells where
the text of the token ends: a string literal ends at its second quote, and any other text at the
apostrophe behind it, as it has none of its own.
-/

namespace LoxBytecode

namespace Token

/-! ## What an entry shows -/

/-- What a listing tells of a token. -/
structure Listed where
  kind : Kind
  lexeme : List Char
  message : Option String
  line : Nat
  deriving DecidableEq, Repr

def listed (t : Token) : Listed := ⟨t.kind, t.lexeme, t.message, t.line⟩

/-- The token that shows a text: the text is the message of an error, and the lexeme of any other
token. -/
def Listed.ofShown (kind : Kind) (text : List Char) (line : Nat) : Listed :=
  if kind = .error then ⟨kind, [], some (String.ofList text), line⟩ else ⟨kind, text, none, line⟩

/-- The texts that end where their kind says. -/
inductive Shows : Kind → List Char → Prop
  | literal {body : List Char} : '"' ∉ body → Shows .string ('"' :: (body ++ ['"']))
  | plain {kind : Kind} {text : List Char} : kind ≠ .string → '\'' ∉ text → Shows kind text

theorem Shows.of_spells {kind : Kind} {text : List Char} (h : Spells kind text) :
    Shows kind text := by
  by_cases hstring : kind = .string
  · subst hstring
    obtain ⟨body, rfl, hbody⟩ := h.of_string
    exact .literal hbody
  · refine .plain hstring fun hmem => hstring ?_
    exact h.eq_string_of_foreign hmem (by decide) (by decide) (by decide)

variable {source : List Char} {t : Token}

theorem shownText_of_message (hmessage : t.message = none) : t.shownText = t.lexeme := by
  unfold shownText
  split
  case h_1 _ _ _ hsome => cases hmessage.symm.trans hsome
  case h_2 => rfl

theorem IsFault.shownText_eq {message : String} {offset : Nat} (h : t.IsFault message offset) :
    t.shownText = message.toList := by
  unfold shownText
  rw [h.kind, h.message]

theorem IsFault.shows {message : String} {offset : Nat} (h : t.IsFault message offset)
    (hplain : '\'' ∉ message.toList) :
    Shows t.kind t.shownText ∧ t.listed = .ofShown t.kind t.shownText t.line := by
  rw [h.shownText_eq, h.kind]
  refine ⟨.plain (by decide) hplain, ?_⟩
  simp [listed, Listed.ofShown, h.kind, h.lexeme, h.message]

/-- A token of a source text is given by its kind, the text that it shows and its line. -/
theorem shows_of_mem_tokens (h : t ∈ tokens source) :
    Shows t.kind t.shownText ∧ t.listed = .ofShown t.kind t.shownText t.line := by
  obtain ⟨_, _, hreads⟩ := exists_readsAs_of_mem h
  cases hreads with
  | eof _ hkind hlexeme _ _ hmessage =>
      rw [shownText_of_message hmessage, hkind, hlexeme]
      refine ⟨.plain (by decide) (by simp), ?_⟩
      simp [listed, Listed.ofShown, hkind, hlexeme, hmessage]
  | lexeme _ _ hkinds _ _ hmessage =>
      have hspells := (hkinds t.kind).mpr rfl
      rw [shownText_of_message hmessage]
      refine ⟨.of_spells hspells, ?_⟩
      simp [listed, Listed.ofShown, hspells.kind_ne.2, hmessage]
  | unterminated _ _ hfault => exact hfault.shows (by decide)
  | unexpected _ _ _ hfault => exact hfault.shows (by decide)

/-! ## Names of kinds -/

namespace Kind

def ofName? (name : List Char) : Option Kind := all.find? fun kind => kind.name.toList == name

theorem ofName?_name (kind : Kind) : ofName? kind.name.toList = some kind := by
  cases kind <;> rfl

theorem blank_notMem_name (kind : Kind) : ' ' ∉ kind.name.toList := by
  cases kind <;> decide

end Kind

/-! ## Reading an entry

Each of these functions reads what a text begins with, and gives it together with the text
behind it.
-/

/-- The line that an entry is on.  Where its margin has no number, this is the line of the entry
before it. -/
def readLine (previousLine : Nat) (text : List Char) : Nat × List Char :=
  let digits := text.takeWhile Char.isDigit
  if digits = [] then (previousLine, text.drop 5)
  else (Nat.ofDigitChars 10 digits 0, (text.dropWhile Char.isDigit).drop 1)

/-- The kind of a token.  The apostrophe behind its name is left behind as well. -/
def readKind (text : List Char) : Kind × List Char :=
  ((Kind.ofName? (text.takeWhile (· != ' '))).getD .eof, (text.dropWhile (· != ' ')).drop 2)

/-- The text of a token of a kind.  The apostrophe behind it is left behind as well. -/
def readShown (kind : Kind) (text : List Char) : List Char × List Char :=
  if kind = .string then
    ('"' :: ((text.drop 1).takeWhile (· != '"') ++ ['"']),
      ((text.drop 1).dropWhile (· != '"')).drop 2)
  else (text.takeWhile (· != '\''), (text.dropWhile (· != '\'')).drop 1)

def readEntry (previousLine : Nat) (text : List Char) : Listed × List Char :=
  let (line, text) := readLine previousLine text
  let (kind, text) := readKind text
  let (shown, text) := readShown kind text
  (.ofShown kind shown line, text)

theorem readKind_name (kind : Kind) (behind : List Char) :
    readKind (kind.name.toList ++ ' ' :: '\'' :: behind) = (kind, behind) := by
  obtain ⟨hname, hbehind⟩ := span_mark kind.blank_notMem_name ('\'' :: behind)
  rw [readKind, hname, hbehind, kind.ofName?_name]
  rfl

theorem readShown_shows {kind : Kind} {text : List Char} (h : Shows kind text)
    (behind : List Char) : readShown kind (text ++ '\'' :: behind) = (text, behind) := by
  cases h with
  | @literal body hbody =>
      obtain ⟨htake, hdrop⟩ := span_mark hbody ('\'' :: behind)
      simp [readShown, htake, hdrop]
  | plain hkind htext =>
      obtain ⟨htake, hdrop⟩ := span_mark htext behind
      simp [readShown, hkind, htake, hdrop]

theorem readLine_number (previousLine line : Nat) (behind : List Char) :
    readLine previousLine ((Text.alignRight 4 '0' (toString line)).toList ++ ' ' :: behind) =
      (line, behind) := by
  have hdigits := Text.isDigit_alignRight 4 line
  obtain ⟨htake, hdrop⟩ := span_append_cons hdigits (by decide : Char.isDigit ' ' = false) behind
  have hne : (Text.alignRight 4 '0' (toString line)).toList ≠ [] := by
    rw [Text.toList_alignRight, Nat.toString_eq_repr, Nat.toList_repr]
    exact List.append_ne_nil_of_right_ne_nil _ (isWord_toDigits line).ne_nil
  rw [readLine, htake, hdrop, if_neg hne, Text.ofDigitChars_alignRight]
  rfl

theorem readLine_blank (previousLine : Nat) (behind : List Char) :
    readLine previousLine ("   | ".toList ++ behind) = (previousLine, behind) := rfl

/-- **An entry is read back**, whatever stands behind it. -/
theorem readEntry_listingEntry (h : t ∈ tokens source) (previousLine : Nat)
    (behind : List Char) :
    readEntry previousLine ((t.listingEntry previousLine).toList ++ behind) =
      (t.listed, behind) := by
  obtain ⟨hshows, hlisted⟩ := shows_of_mem_tokens h
  -- behind its margin, an entry has one form
  let name := t.kind.name.toList ++ ' ' :: '\'' :: (t.shownText ++ '\'' :: behind)
  have hline : readLine previousLine ((t.listingEntry previousLine).toList ++ behind) =
      (t.line, name) := by
    unfold listingEntry
    dsimp only
    split
    case isTrue hsame =>
      simpa [name, hsame] using readLine_blank previousLine name
    case isFalse =>
      simpa [name] using readLine_number previousLine t.line name
  rw [readEntry, hline]
  simp only [name, readKind_name, readShown_shows hshows, hlisted]

/-! ## Reading a listing -/

theorem length_readEntry_le (previousLine : Nat) (text : List Char) :
    (readEntry previousLine text).2.length ≤ text.length := by
  have hline : (readLine previousLine text).2.length ≤ text.length := by
    have hdigits := List.length_dropWhile_le Char.isDigit text
    unfold readLine
    dsimp only
    split <;> (simp only [List.length_drop]; omega)
  have hkind (text : List Char) : (readKind text).2.length ≤ text.length := by
    have hname := List.length_dropWhile_le (· != ' ') text
    simp only [readKind, List.length_drop]
    omega
  have hshown (kind : Kind) (text : List Char) :
      (readShown kind text).2.length ≤ text.length := by
    have hliteral := List.length_dropWhile_le (· != '"') (text.drop 1)
    have hplain := List.length_dropWhile_le (· != '\'') text
    unfold readShown
    split <;> (simp only [List.length_drop] at hliteral ⊢; omega)
  exact (hshown _ _).trans ((hkind _).trans hline)

/-- The tokens that the entries of a listing tell of, given the line of the entry before them. -/
def readEntries (previousLine : Nat) (text : List Char) : List Listed :=
  match _hentry : readEntry previousLine text with
  | (x, []) => [x]
  | (x, _ :: more) => x :: readEntries x.line more
termination_by text.length
decreasing_by
  have hle := length_readEntry_le previousLine text
  simp only [_hentry, List.length_cons] at hle
  omega

def readListing (text : String) : List Listed := readEntries 0 text.toList

section ReadEntries

variable {previousLine : Nat} {text more : List Char} {x : Listed}

theorem readEntries_of_last (h : readEntry previousLine text = (x, [])) :
    readEntries previousLine text = [x] := by
  rw [readEntries, h]

theorem readEntries_of_more {c : Char} (h : readEntry previousLine text = (x, c :: more)) :
    readEntries previousLine text = x :: readEntries x.line more := by
  rw [readEntries, h]

end ReadEntries

/-- The entries of tokens are read back, one after the other. -/
theorem readEntries_listingEntries {ts : List Token} (hne : ts ≠ [])
    (hts : ∀ t ∈ ts, t ∈ tokens source) (previousLine : Nat) :
    readEntries previousLine ("\n".intercalate (listingEntries previousLine ts)).toList =
      ts.map listed := by
  induction ts generalizing previousLine with
  | nil => exact absurd rfl hne
  | cons t later ih =>
      obtain ⟨ht, hlater⟩ := List.forall_mem_cons.mp hts
      -- only the last entry has no newline behind it
      cases later with
      | nil =>
          have hentry := readEntry_listingEntry ht previousLine []
          rw [List.append_nil] at hentry
          rw [listingEntries, listingEntries, String.intercalate_singleton,
            readEntries_of_last hentry, List.map_singleton]
      | cons next later =>
          let behind := ("\n".intercalate (listingEntries t.line (next :: later))).toList
          have hsplit : ("\n".intercalate (listingEntries previousLine (t :: next :: later))).toList
              = (t.listingEntry previousLine).toList ++ '\n' :: behind := by
            simp [behind, listingEntries, String.intercalate_cons_cons]
          rw [hsplit, readEntries_of_more (readEntry_listingEntry ht previousLine _), List.map_cons]
          exact congrArg (t.listed :: ·) (ih (List.cons_ne_nil _ _) hlater t.line)

end Token

/-- **A listing identifies the tokens.**  Kinds, lexemes, messages and lines can be read from the
listing of any source text, so two source texts have the same listing only if their tokens agree
in these, one by one. -/
theorem describeTokens_identifies :
    (∀ source, Token.readListing (describeTokens source) = (tokens source).map Token.listed) ∧
      ∀ source other, describeTokens source = describeTokens other →
        (tokens source).map Token.listed = (tokens other).map Token.listed := by
  have hread (source : List Char) :
      Token.readListing (describeTokens source) = (tokens source).map Token.listed :=
    Token.readEntries_listingEntries (Cursor.readAll_ne_nil _) (fun _ ht => ht) 0
  refine ⟨hread, fun source other hsame => ?_⟩
  rw [← hread source, hsame, hread other]

/-- A string literal does not pass for the entries that it holds. -/
theorem describeTokens_identifies_literal_of_entries :
    let source := "\"'\n   | NUMBER '1\" 2".toList
    let other := "\"'\n   | NUMBER '1\"2 // two tokens".toList
    describeTokens source = "0002 STRING '\"'\n   | NUMBER '1\"'\n   | NUMBER '2'\n   | EOF ''" ∧
      Token.readListing (describeTokens source) =
        [⟨.string, "\"'\n   | NUMBER '1\"".toList, none, 2⟩, ⟨.number, ['2'], none, 2⟩,
          ⟨.eof, [], none, 2⟩] ∧
      describeTokens source = describeTokens other ∧
      (tokens source).map Token.listed = (tokens other).map Token.listed := by
  intro source other
  have hsame : describeTokens source = describeTokens other := by decide +kernel
  exact ⟨by decide +kernel, (describeTokens_identifies.1 source).trans (by decide +kernel), hsame,
    describeTokens_identifies.2 source other hsame⟩

end LoxBytecode

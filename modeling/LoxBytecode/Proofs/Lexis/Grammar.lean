import LoxBytecode.Token.Kind
import Mathlib.Data.List.TakeWhile

/-!
# The lexical grammar

What the tokens of each kind look like, and what may stand between them, told without any
word on how either is read:

```text
mark    = one of 11 characters | ("!" | "=" | "<" | ">") "="?
word    = letter (letter | digit)*
numeral = digit+ ("." digit+)?
string  = '"' any* '"'              with no quote among the characters in between
layout  = (blank | "//" any*)*      each comment up to its line end or the end of the text
```

A word is a keyword where it is spelled like one, and an identifier otherwise.  No text is
spelled like two kinds, so a text that is a token has its kind from its characters alone
(`Spells.kind_unique`).
-/

namespace LoxBytecode

/-! ## Characters -/

/-- A letter or the underscore, of ASCII only. -/
def IsLetter (c : Char) : Prop := ('a' ≤ c ∧ c ≤ 'z') ∨ ('A' ≤ c ∧ c ≤ 'Z') ∨ c = '_'

def IsDigit (c : Char) : Prop := '0' ≤ c ∧ c ≤ '9'

instance : DecidablePred IsLetter := fun c => by unfold IsLetter; infer_instance

instance : DecidablePred IsDigit := fun c => by unfold IsDigit; infer_instance

theorem IsDigit.not_isLetter {c : Char} (h : IsDigit c) : ¬IsLetter c := by
  obtain ⟨hlow, hhigh⟩ := h
  rintro (⟨hletter, -⟩ | ⟨hletter, -⟩ | rfl)
  · exact absurd (Char.le_trans hletter hhigh) (by decide)
  · exact absurd (Char.le_trans hletter hhigh) (by decide)
  · exact absurd hhigh (by decide)

/-! ## Tokens -/

namespace Token.Kind

/-- The text of a punctuation mark. -/
def mark? : Kind → Option (List Char)
  | leftParen => some ['(']
  | rightParen => some [')']
  | leftBrace => some ['{']
  | rightBrace => some ['}']
  | comma => some [',']
  | dot => some ['.']
  | minus => some ['-']
  | plus => some ['+']
  | semicolon => some [';']
  | slash => some ['/']
  | star => some ['*']
  | bang => some ['!']
  | bangEqual => some ['!', '=']
  | equal => some ['=']
  | equalEqual => some ['=', '=']
  | greater => some ['>']
  | greaterEqual => some ['>', '=']
  | less => some ['<']
  | lessEqual => some ['<', '=']
  | _ => none

/-- The text of a keyword. -/
def keyword? : Kind → Option String
  | andWord => some "and"
  | classWord => some "class"
  | elseWord => some "else"
  | falseWord => some "false"
  | forWord => some "for"
  | funWord => some "fun"
  | ifWord => some "if"
  | nilWord => some "nil"
  | orWord => some "or"
  | printWord => some "print"
  | returnWord => some "return"
  | superWord => some "super"
  | thisWord => some "this"
  | trueWord => some "true"
  | varWord => some "var"
  | whileWord => some "while"
  | _ => none

/-- The kind that a word is of. -/
def Names (kind : Kind) (word : List Char) : Prop :=
  kind.keyword? = some (String.ofList word) ∨
    kind = identifier ∧ ∀ other : Kind, other.keyword? ≠ some (String.ofList word)

end Token.Kind

/-- The texts of the tokens of each kind. -/
inductive Spells : Token.Kind → List Char → Prop
  | mark {kind : Token.Kind} {text : List Char} : kind.mark? = some text → Spells kind text
  | word {kind : Token.Kind} {first : Char} {rest : List Char} :
      IsLetter first → (∀ c ∈ rest, IsLetter c ∨ IsDigit c) → kind.Names (first :: rest) →
      Spells kind (first :: rest)
  | whole {first : Char} {digits : List Char} :
      IsDigit first → (∀ c ∈ digits, IsDigit c) → Spells .number (first :: digits)
  | fraction {first tenth : Char} {digits decimals : List Char} :
      IsDigit first → (∀ c ∈ digits, IsDigit c) → IsDigit tenth → (∀ c ∈ decimals, IsDigit c) →
      Spells .number (first :: (digits ++ '.' :: tenth :: decimals))
  | string {body : List Char} : '"' ∉ body → Spells .string ('"' :: (body ++ ['"']))

/-- Blanks and comments with the text behind them.  A comment goes up to the end of its line,
which does not belong to it, or to the end of the text. -/
inductive Layout : List Char → List Char → Prop
  | none {behind : List Char} : Layout [] behind
  | blank {c : Char} {skipped behind : List Char} :
      c ∈ [' ', '\t', '\r', '\n'] → Layout skipped behind → Layout (c :: skipped) behind
  | comment {body skipped behind : List Char} :
      '\n' ∉ body → (∀ c ∈ (skipped ++ behind).head?, c = '\n') → Layout skipped behind →
      Layout ('/' :: '/' :: (body ++ skipped)) behind

/-! ## Longest matches -/

/-- `text` is the longest piece that has the property `p` at the place where it begins.  The
property may look at what stands behind a piece. -/
structure IsLongestMatch (p : List Char → List Char → Prop) (text behind : List Char) : Prop where
  holds : p text behind
  length_le {other rest : List Char} :
    other ++ rest = text ++ behind → p other rest → other.length ≤ text.length

/-- A text that is a token of some kind. -/
def IsToken (text _behind : List Char) : Prop := ∃ kind, Spells kind text

/-! ## What a token begins with -/

namespace Spells

variable {kind : Token.Kind} {first : Char} {rest : List Char}

theorem ne_nil {text : List Char} (h : Spells kind text) : text ≠ [] := by
  cases h with
  | mark hmark =>
      rintro rfl
      cases kind <;> cases hmark
  | word | whole | fraction | string => simp

/-- The character that a punctuation mark begins with begins nothing else. -/
theorem head_of_mark (h : kind.mark? = some (first :: rest)) :
    ¬IsLetter first ∧ ¬IsDigit first ∧ first ≠ '"' := by
  cases kind <;> cases h <;> decide

theorem of_letter (h : Spells kind (first :: rest)) (hfirst : IsLetter first) :
    (∀ c ∈ rest, IsLetter c ∨ IsDigit c) ∧ kind.Names (first :: rest) := by
  cases h with
  | mark hmark => exact absurd hfirst (head_of_mark hmark).1
  | word _ hrest hnames => exact ⟨hrest, hnames⟩
  | whole hdigit => exact absurd hfirst hdigit.not_isLetter
  | fraction hdigit => exact absurd hfirst hdigit.not_isLetter
  | string => exact absurd hfirst (by decide)

theorem of_digit (h : Spells kind (first :: rest)) (hfirst : IsDigit first) :
    kind = .number ∧ ((∀ c ∈ rest, IsDigit c) ∨
      ∃ digits tenth decimals, rest = digits ++ '.' :: tenth :: decimals ∧
        (∀ c ∈ digits, IsDigit c) ∧ IsDigit tenth ∧ ∀ c ∈ decimals, IsDigit c) := by
  cases h with
  | mark hmark => exact absurd hfirst (head_of_mark hmark).2.1
  | word hletter => exact absurd hletter hfirst.not_isLetter
  | whole _ hdigits => exact ⟨rfl, .inl hdigits⟩
  | fraction _ hdigits htenth hdecimals =>
      exact ⟨rfl, .inr ⟨_, _, _, rfl, hdigits, htenth, hdecimals⟩⟩
  | string => exact absurd hfirst (by decide)

theorem of_quote (h : Spells kind ('"' :: rest)) :
    kind = .string ∧ ∃ body, rest = body ++ ['"'] ∧ '"' ∉ body := by
  cases h with
  | mark hmark => exact absurd rfl (head_of_mark hmark).2.2
  | word hletter => exact absurd hletter (by decide)
  | whole hdigit => exact absurd hdigit (by decide)
  | fraction hdigit => exact absurd hdigit (by decide)
  | string hbody => exact ⟨rfl, _, rfl, hbody⟩

theorem of_other (h : Spells kind (first :: rest)) (hletter : ¬IsLetter first)
    (hdigit : ¬IsDigit first) (hquote : first ≠ '"') : kind.mark? = some (first :: rest) := by
  cases h with
  | mark hmark => exact hmark
  | word h => exact absurd h hletter
  | whole h => exact absurd h hdigit
  | fraction h => exact absurd h hdigit
  | string => exact absurd rfl hquote

end Spells

/-! ## One kind for every text -/

namespace Token.Kind

theorem mem_all (kind : Kind) : kind ∈ all := by
  cases kind <;> decide

theorem eq_of_mark? {kind other : Kind} {text : List Char} (h : kind.mark? = some text)
    (h' : other.mark? = some text) : kind = other := by
  have hall : ∀ k ∈ all, ∀ l ∈ all, k.mark? = l.mark? → k.mark? = none ∨ k = l := by
    decide +kernel
  rcases hall kind kind.mem_all other other.mem_all (h.trans h'.symm) with hnone | heq
  · cases hnone.symm.trans h
  · exact heq

theorem eq_of_keyword? {kind other : Kind} {word : String} (h : kind.keyword? = some word)
    (h' : other.keyword? = some word) : kind = other := by
  have hall : ∀ k ∈ all, ∀ l ∈ all, k.keyword? = l.keyword? → k.keyword? = none ∨ k = l := by
    decide +kernel
  rcases hall kind kind.mem_all other other.mem_all (h.trans h'.symm) with hnone | heq
  · cases hnone.symm.trans h
  · exact heq

theorem Names.unique {kind other : Kind} {word : List Char} (h : kind.Names word)
    (h' : other.Names word) : kind = other := by
  rcases h with h | ⟨rfl, h⟩ <;> rcases h' with h' | ⟨rfl, h'⟩
  · exact eq_of_keyword? h h'
  · exact absurd h (h' kind)
  · exact absurd h' (h other)
  · rfl

end Token.Kind

theorem Spells.kind_unique {kind other : Token.Kind} {text : List Char} (h : Spells kind text)
    (h' : Spells other text) : kind = other := by
  cases text with
  | nil => exact absurd rfl h.ne_nil
  | cons first rest =>
      by_cases hletter : IsLetter first
      · exact (h.of_letter hletter).2.unique (h'.of_letter hletter).2
      by_cases hdigit : IsDigit first
      · exact (h.of_digit hdigit).1.trans (h'.of_digit hdigit).1.symm
      by_cases hquote : first = '"'
      · subst hquote
        exact h.of_quote.1.trans h'.of_quote.1.symm
      · exact Token.Kind.eq_of_mark? (h.of_other hletter hdigit hquote)
          (h'.of_other hletter hdigit hquote)

/-- A token that has a character which is no letter, no digit and in no punctuation mark is a
string literal. -/
theorem Spells.eq_string_of_foreign {kind : Token.Kind} {text : List Char} {c : Char}
    (h : Spells kind text) (hc : c ∈ text) (hletter : ¬IsLetter c) (hdigit : ¬IsDigit c)
    (hmark : ∀ other ∈ Token.Kind.all, c ∉ other.mark?.getD []) : kind = .string := by
  have hpoint : c ≠ '.' := by
    rintro rfl
    exact hmark .dot (by decide) (by decide)
  have hdigits {digits : List Char} (hall : ∀ c ∈ digits, IsDigit c) : c ∉ digits :=
    fun hmem => hdigit (hall c hmem)
  cases h with
  | mark hsome =>
      have hforeign := hmark kind kind.mem_all
      rw [hsome] at hforeign
      exact absurd hc hforeign
  | word hfirst hrest =>
      rcases List.mem_cons.mp hc with rfl | hmem
      · exact absurd hfirst hletter
      · exact absurd (hrest c hmem) (not_or.mpr ⟨hletter, hdigit⟩)
  | whole hfirst hrest =>
      exact absurd hc (hdigits (List.forall_mem_cons.mpr ⟨hfirst, hrest⟩))
  | fraction hfirst hrest htenth hdecimals =>
      rw [← List.cons_append] at hc
      rcases List.mem_append.mp hc with hmem | hmem
      · exact absurd hmem (hdigits (List.forall_mem_cons.mpr ⟨hfirst, hrest⟩))
      · rcases List.mem_cons.mp hmem with rfl | hmem
        · exact absurd rfl hpoint
        · exact absurd hmem (hdigits (List.forall_mem_cons.mpr ⟨htenth, hdecimals⟩))
  | string => rfl

end LoxBytecode

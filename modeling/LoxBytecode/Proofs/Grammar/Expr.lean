import LoxBytecode.Bytecode.Opcode
import LoxBytecode.Proofs.Grammar.Phrase

/-!
# Expressions

What an expression means is told by its tree, and the tree by a grammar in three
strata:

```text
expression = term   | expression ("+" | "-") term
term       = factor | term ("*" | "/") factor
factor     = "-" factor | number | "(" expression ")"
```

Both kinds of chain associate to the left, and a grouping leaves no trace in the tree.
`exists_parse` gives every phrase a tree.  From the tree can be read the value of an
expression and the code that belongs to it.
-/

namespace LoxBytecode

/-- The tree of an expression, with the tokens that its parts come from. -/
inductive Expr where
  | literal (t : Token)
  | negation (sign : Token) (operand : Expr)
  | binary (op : Operator) (mark : Token) (left right : Expr)
  deriving DecidableEq, Repr

inductive Stratum where
  | factor
  | term
  | expression

/-- The level of the operators that a stratum adds; a factor adds none. -/
def Stratum.level : Stratum → Precedence
  | factor => .unary
  | term => .factor
  | expression => .term

/-- The operators of sums, by the tokens that stand for them. -/
def sumMarks : List (Token.Kind × Operator) := [(.plus, .add), (.minus, .subtract)]

/-- The operators of products, by the tokens that stand for them. -/
def productMarks : List (Token.Kind × Operator) := [(.star, .multiply), (.slash, .divide)]

theorem operator?_of_mem_marks {kind : Token.Kind} {op : Operator}
    (h : (kind, op) ∈ sumMarks ++ productMarks) : kind.operator? = some op := by
  simp only [sumMarks, productMarks, List.cons_append, List.nil_append, List.mem_cons,
    Prod.mk.injEq, List.not_mem_nil, or_false] at h
  rcases h with ⟨rfl, rfl⟩ | ⟨rfl, rfl⟩ | ⟨rfl, rfl⟩ | ⟨rfl, rfl⟩ <;> rfl

/-- A list of tokens that spells an expression, as a phrase of a stratum. -/
inductive Parse : Stratum → List Token → Expr → Prop
  | number {t : Token} : t.kind = .number → Parse .factor [t] (.literal t)
  | grouping {opening closing : Token} {body : List Token} {e : Expr} :
      opening.kind = .leftParen → closing.kind = .rightParen → Parse .expression body e →
      Parse .factor (opening :: (body ++ [closing])) e
  | negation {sign : Token} {body : List Token} {e : Expr} :
      sign.kind = .minus → Parse .factor body e → Parse .factor (sign :: body) (.negation sign e)
  | ofFactor {body : List Token} {e : Expr} : Parse .factor body e → Parse .term body e
  | product {earlier last : List Token} {mark : Token} {op : Operator} {left right : Expr} :
      Parse .term earlier left → (mark.kind, op) ∈ productMarks →
      Parse .factor last right →
      Parse .term (earlier ++ mark :: last) (.binary op mark left right)
  | ofTerm {body : List Token} {e : Expr} : Parse .term body e → Parse .expression body e
  | sum {earlier last : List Token} {mark : Token} {op : Operator} {left right : Expr} :
      Parse .expression earlier left → (mark.kind, op) ∈ sumMarks →
      Parse .term last right →
      Parse .expression (earlier ++ mark :: last) (.binary op mark left right)

/-! ## Every phrase has a tree -/

def PhraseSort.stratum : PhraseSort → Stratum
  | operand => .factor
  | chain _ => .expression

/-- A factor at the end of an expression is taken into its last term. -/
theorem Parse.exists_product {earlier last : List Token} {mark : Token} {op : Operator}
    {left right : Expr} (hleft : Parse .expression earlier left)
    (hmark : (mark.kind, op) ∈ productMarks)
    (hright : Parse .factor last right) :
    ∃ e, Parse .expression (earlier ++ mark :: last) e := by
  cases hleft with
  | ofTerm hterm => exact ⟨_, .ofTerm (.product hterm hmark hright)⟩
  | sum hfirst hplus hterm =>
      have hsum := Parse.sum hfirst hplus (.product hterm hmark hright)
      rw [← List.cons_append, ← List.append_assoc] at hsum
      exact ⟨_, hsum⟩

theorem Phrase.exists_parse {sort : PhraseSort} {body : List Token} {depth : Nat}
    (h : Phrase sort body depth) : ∃ e, Parse sort.stratum body e := by
  induction h with
  | number hkind => exact ⟨_, .number hkind⟩
  | grouping hopening hclosing _ ih =>
      obtain ⟨e, he⟩ := ih
      exact ⟨e, .grouping hopening hclosing he⟩
  | negation hsign _ ih =>
      obtain ⟨e, he⟩ := ih
      exact ⟨_, .negation hsign he⟩
  | single _ ih =>
      obtain ⟨e, he⟩ := ih
      exact ⟨e, .ofTerm (.ofFactor he)⟩
  | @join _ _ _ mark _ _ _ hmark _ _ ihEarlier ihLast =>
      obtain ⟨left, hleft⟩ := ihEarlier
      obtain ⟨right, hright⟩ := ihLast
      simp only [joiningKinds, List.mem_cons, List.not_mem_nil, or_false] at hmark
      rcases hmark with hplus | hminus | hstar | hslash
      · have hmark : (mark.kind, .add) ∈ sumMarks := by simp [sumMarks, hplus]
        exact ⟨_, .sum hleft hmark (.ofFactor hright)⟩
      · have hmark : (mark.kind, .subtract) ∈ sumMarks := by simp [sumMarks, hminus]
        exact ⟨_, .sum hleft hmark (.ofFactor hright)⟩
      · have hmark : (mark.kind, .multiply) ∈ productMarks := by simp [productMarks, hstar]
        exact hleft.exists_product hmark hright
      · have hmark : (mark.kind, .divide) ∈ productMarks := by simp [productMarks, hslash]
        exact hleft.exists_product hmark hright

theorem Parse.kind_ne_eof {stratum : Stratum} {body : List Token} {e : Expr}
    (h : Parse stratum body e) : ∀ t ∈ body, t.kind ≠ .eof := by
  induction h with
  | number hkind => simp [hkind]
  | grouping hopening hclosing _ ih =>
      intro t ht
      simp only [List.mem_cons, List.mem_append, List.not_mem_nil, or_false] at ht
      rcases ht with rfl | ht | rfl
      · simp [hopening]
      · exact ih t ht
      · simp [hclosing]
  | negation hsign _ ih => exact List.forall_mem_cons.2 ⟨by simp [hsign], ih⟩
  | ofFactor _ ih => exact ih
  | ofTerm _ ih => exact ih
  | product _ hmark _ ihEarlier ihLast | sum _ hmark _ ihEarlier ihLast =>
      intro t ht
      rcases List.mem_append.mp ht with ht | ht
      · exact ihEarlier t ht
      · rcases List.mem_cons.mp ht with rfl | ht
        · intro heof
          simp [heof, sumMarks, productMarks] at hmark
        · exact ihLast t ht

namespace Expr

/-! ## What a tree tells -/

/-- The numerals of an expression, from left to right. -/
def literals : Expr → List Token
  | literal t => [t]
  | negation _ e => e.literals
  | binary _ _ left right => left.literals ++ right.literals

/-- The numbers that the numerals of an expression denote, from left to right. -/
def numbers {α : Type} [Number α] (e : Expr) : List α :=
  e.literals.map (Number.ofNumeral ·.lexeme)

def value {α : Type} [Number α] : Expr → α
  | literal t => Number.ofNumeral t.lexeme
  | negation _ e => -e.value
  | binary .add _ left right => left.value + right.value
  | binary .subtract _ left right => left.value - right.value
  | binary .multiply _ left right => left.value * right.value
  | binary .divide _ left right => left.value / right.value

/-- The bytes of the code of an expression, each with its line.  The numerals have the
indices from `first` on, in the order in which they stand. -/
def postorder (first : Nat) : Expr → List (UInt8 × Int)
  | literal t => [(Opcode.constant.byte, t.line), (first.toUInt8, t.line)]
  | negation sign e => e.postorder first ++ [(Opcode.negate.byte, (sign.line : Int))]
  | binary op mark left right =>
    left.postorder first ++ right.postorder (first + left.literals.length) ++
      [((Opcode.operator op).byte, (mark.line : Int))]

@[simp] theorem length_numbers {α : Type} [Number α] (e : Expr) :
    (e.numbers : List α).length = e.literals.length := by
  simp [numbers]

@[simp] theorem value_binary {α : Type} [Number α] (op : Operator) (mark : Token)
    (left right : Expr) :
    (binary op mark left right).value = op.apply (α := α) left.value right.value := by
  cases op <;> rfl

end Expr

/-- The numerals of a tree are those of its tokens, in the same order. -/
theorem Parse.literals_eq {stratum : Stratum} {body : List Token} {e : Expr}
    (h : Parse stratum body e) : e.literals = body.filter (·.kind = .number) := by
  induction h with
  | number hkind => simp [Expr.literals, hkind]
  | grouping hopening hclosing _ ih => simp [ih, hopening, hclosing]
  | negation hsign _ ih => simp [Expr.literals, ih, hsign]
  | ofFactor _ ih => exact ih
  | ofTerm _ ih => exact ih
  | @product _ _ mark _ _ _ _ hmark _ ihEarlier ihLast
  | @sum _ _ mark _ _ _ _ hmark _ ihEarlier ihLast =>
      have hnumber : mark.kind ≠ .number := by
        intro hnumber
        simp [hnumber, sumMarks, productMarks] at hmark
      simp [Expr.literals, ihEarlier, ihLast, hnumber]

end LoxBytecode

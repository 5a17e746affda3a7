import LoxBytecode.Grammar.Operator
import LoxBytecode.Token.Basic

/-!
# Phrases

The language of expressions, without any word on what binds how tightly:

```text
expression = operand (operator operand)*
operand    = number | "(" expression ")" | "-" operand
```

`Phrase` says which lists of tokens belong to it, and how deep they nest: the largest
number of groupings and negations that stand around one and the same token.  A chain
may be held to operators that bind at least as tightly as a level; at the level `none`
every operator is let in, and that is an expression.
-/

namespace LoxBytecode

inductive PhraseSort where
  | operand
  /-- Operands joined by operators that bind at least as tightly as a level. -/
  | chain (level : Precedence)

/-- The kinds of the tokens that join two operands. -/
def joiningKinds : List Token.Kind := [.plus, .minus, .star, .slash]

/-- The kind of the tokens that operands of a form begin with. -/
def OperandForm.kind : OperandForm → Token.Kind
  | number => .number
  | grouping => .leftParen
  | negation => .minus

theorem Token.Kind.eq_of_operandForm? {kind : Token.Kind} {form : OperandForm}
    (h : kind.operandForm? = some form) : kind = form.kind := by
  cases kind <;> cases h <;> rfl

theorem Token.Kind.precedence_of_operator? {kind : Token.Kind} {op : Operator}
    (h : kind.operator? = some op) : kind.precedence = op.precedence := by
  rw [precedence, h, Option.elim_some]

theorem Operator.precedence_lt_unary (op : Operator) :
    op.precedence.rank < Precedence.unary.rank := by
  cases op <;> decide

/-- A list of tokens that is a phrase of a sort, with the depth of its nesting. -/
inductive Phrase : PhraseSort → List Token → Nat → Prop
  | number {t : Token} : t.kind = .number → Phrase .operand [t] 0
  | grouping {opening closing : Token} {body : List Token} {depth : Nat} :
      opening.kind = .leftParen → closing.kind = .rightParen →
      Phrase (.chain .none) body depth →
      Phrase .operand (opening :: (body ++ [closing])) (depth + 1)
  | negation {sign : Token} {body : List Token} {depth : Nat} :
      sign.kind = .minus → Phrase .operand body depth →
      Phrase .operand (sign :: body) (depth + 1)
  | single {level : Precedence} {body : List Token} {depth : Nat} :
      Phrase .operand body depth → Phrase (.chain level) body depth
  | join {level : Precedence} {earlier last : List Token} {mark : Token} {m n : Nat} :
      Phrase (.chain level) earlier m → mark.kind ∈ joiningKinds →
      level.rank ≤ mark.kind.precedence.rank → Phrase .operand last n →
      Phrase (.chain level) (earlier ++ mark :: last) (max m n)

/-- An expression, as far as its form goes. -/
abbrev Phrase.Expression : List Token → Nat → Prop := Phrase (.chain .none)

namespace Phrase

/-! ## Levels -/

theorem mono {level looser : Precedence} (hlevel : looser.rank ≤ level.rank)
    {body : List Token} {depth : Nat} (h : Phrase (.chain level) body depth) :
    Phrase (.chain looser) body depth := by
  generalize hsort : PhraseSort.chain level = sort at h
  induction h with
  | number => cases hsort
  | grouping => cases hsort
  | negation => cases hsort
  | single hoperand => exact .single hoperand
  | join _ hmark htight hlast ih =>
      cases hsort
      exact .join (ih rfl) hmark (Nat.le_trans hlevel htight) hlast

theorem precedence_lt_unary (kind : Token.Kind) :
    kind.precedence.rank < Precedence.unary.rank := by
  cases kind <;> decide

/-- No operator binds as tightly as a negation. -/
theorem operand_of_unary {level : Precedence} (hlevel : Precedence.unary.rank ≤ level.rank)
    {body : List Token} {depth : Nat} (h : Phrase (.chain level) body depth) :
    Phrase .operand body depth := by
  cases h with
  | single hoperand => exact hoperand
  | @join _ _ _ mark _ _ _ _ htight _ =>
      have := precedence_lt_unary mark.kind
      omega

/-! ## Longer chains -/

theorem append {level : Precedence} {earlier later : List Token} {mark : Token} {m n : Nat}
    (hearlier : Phrase (.chain level) earlier m) (hmark : mark.kind ∈ joiningKinds)
    (htight : level.rank ≤ mark.kind.precedence.rank) (hlater : Phrase (.chain level) later n) :
    Phrase (.chain level) (earlier ++ mark :: later) (max m n) := by
  generalize hsort : PhraseSort.chain level = sort at hlater
  induction hlater with
  | number => cases hsort
  | grouping => cases hsort
  | negation => cases hsort
  | single hoperand =>
      cases hsort
      exact .join hearlier hmark htight hoperand
  | @join _ middle last next k l _ hnext htight' hlast ih =>
      cases hsort
      have hlonger := Phrase.join (ih rfl) hnext htight' hlast
      rw [List.append_assoc, List.cons_append, Nat.max_assoc] at hlonger
      exact hlonger

/-! ## The tokens of a phrase -/

theorem mem_joiningKinds_of_operator? {kind : Token.Kind} {op : Operator}
    (h : kind.operator? = some op) : kind ∈ joiningKinds := by
  cases kind <;> first | decide | cases h

end Phrase

/-! ## Tails of chains -/

/-- What may follow an operand in a chain: nothing, or an operator with a chain behind it. -/
def IsTail (level : Precedence) (taken : List Token) : Prop :=
  taken = [] ∨ ∃ mark later depth, taken = mark :: later ∧ mark.kind ∈ joiningKinds ∧
    level.rank ≤ mark.kind.precedence.rank ∧ Phrase (.chain level) later depth

theorem IsTail.append {level : Precedence} {first second : List Token} {depth : Nat}
    (h : IsTail level second) (hfirst : Phrase (.chain level) first depth) :
    ∃ depth, Phrase (.chain level) (first ++ second) depth := by
  rcases h with rfl | ⟨mark, later, n, rfl, hmark, htight, hlater⟩
  · exact ⟨depth, by simpa using hfirst⟩
  · exact ⟨_, hfirst.append hmark htight hlater⟩

end LoxBytecode

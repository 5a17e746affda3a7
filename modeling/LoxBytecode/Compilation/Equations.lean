import LoxBytecode.Compilation.Expression

/-!
# Equations of the expression compiler

What each of the four functions leads to, one equation per case, without the bounds
that their definitions carry along.
-/

namespace LoxBytecode.Compilation

variable {α : Type}

/-! ## Expected tokens -/

theorem expect_of_kind {c : Compilation α} {kind : Token.Kind} (h : c.current.kind = kind)
    (message : String) : c.expect kind message = c.advance := by
  have hcheck : c.window.check kind = true := beq_iff_eq.mpr h
  rw [expect, Window.expect, if_pos hcheck]
  rfl

theorem expect_of_ne {c : Compilation α} {kind : Token.Kind} (h : c.current.kind ≠ kind)
    (message : String) : c.expect kind message = c.reportAt c.current message := by
  have hcheck : ¬c.window.check kind = true := fun hcheck => h (beq_iff_eq.mp hcheck)
  rw [expect, Window.expect, if_neg hcheck]
  rfl

variable [Number α]

/-! ## Climbing -/

theorem climb_of_no_operand {level : Precedence} {c : Compilation α}
    (h : c.current.kind.operandForm? = none) :
    (climb level c).1 = c.advance.reportAt c.current "Expect expression." := by
  rw [climb]
  split
  · rfl
  · rename_i h'
    cases h.symm.trans h'

theorem climb_of_operand {level : Precedence} {c : Compilation α} {form : OperandForm}
    (h : c.current.kind.operandForm? = some form) :
    (climb level c).1 = (operators level (operand form c.current c.advance).1).1 := by
  rw [climb]
  split
  · rename_i h'
    cases h.symm.trans h'
  · rename_i h'
    obtain rfl := Option.some.inj (h.symm.trans h')
    rfl

/-! ## Operands -/

theorem operand_number (t : Token) (c : Compilation α) :
    (operand .number t c).1 = c.emitNumber t := by
  rw [operand]

theorem operand_grouping (t : Token) (c : Compilation α) :
    (operand .grouping t c).1 =
      (nested .assignment t c).1.expect .rightParen "Expect ')' after expression." := by
  rw [operand]

theorem operand_negation (t : Token) (c : Compilation α) :
    (operand .negation t c).1 = (nested .unary t c).1.emit .negate t.line := by
  rw [operand]

/-! ## Nesting -/

theorem nested_of_lt {level : Precedence} {t : Token} {c : Compilation α}
    (h : c.depth < maxNesting) : (nested level t c).1 = (climb level c.enter).1.leave := by
  rw [nested]
  simp only [h, if_true]

theorem nested_of_not_lt {level : Precedence} {t : Token} {c : Compilation α}
    (h : ¬c.depth < maxNesting) :
    (nested level t c).1 = c.reportAt t "Expression nested too deeply." := by
  rw [nested]
  simp only [h, if_false]

/-! ## Operators -/

theorem operators_of_none {level : Precedence} {c : Compilation α}
    (h : c.current.kind.operator? = none) : (operators level c).1 = c := by
  rw [operators]
  split
  · rfl
  · rename_i h'
    cases h.symm.trans h'

theorem operators_of_looser {level : Precedence} {c : Compilation α} {op : Operator}
    (h : c.current.kind.operator? = some op) (hlevel : ¬level.rank ≤ op.precedence.rank) :
    (operators level c).1 = c := by
  rw [operators]
  split
  · rfl
  · rename_i h'
    obtain rfl := Option.some.inj (h.symm.trans h')
    rw [if_neg hlevel]

theorem operators_of_tight {level : Precedence} {c : Compilation α} {op : Operator}
    (h : c.current.kind.operator? = some op) (hlevel : level.rank ≤ op.precedence.rank) :
    (operators level c).1 =
      (operators level
        ((climb op.precedence.next c.advance).1.emit (.operator op) c.current.line)).1 := by
  rw [operators]
  split
  · rename_i h'
    cases h.symm.trans h'
  · rename_i h'
    obtain rfl := Option.some.inj (h.symm.trans h')
    rw [if_pos hlevel]

end LoxBytecode.Compilation

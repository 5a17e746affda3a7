import LoxBytecode.Compilation.Basic

/-!
# Compiling expressions

An expression is compiled in one pass, by climbing precedences: an operand first,
then every operator that binds at least as tightly as the level in force, each
with a right operand of the next tighter level.  The code of an operator follows
that of its operands, so no tree is ever built.

A fault does not end the pass.  What follows is compiled as well as it can be,
and the window drops the reports that come after the first.

The four functions return the new state together with the fact that no more tokens
are ahead of it than before.  This is what ends the recursion: between two operands
or operators a token is passed, and on the way from an operand through what is nested
in it to the operand inside, the offset in the measure goes down.
-/

namespace LoxBytecode.Compilation

variable {α : Type}

theorem kind_ne_eof_of_operandForm? {kind : Token.Kind} {form : OperandForm}
    (h : kind.operandForm? = some form) : kind ≠ .eof := by
  rintro rfl
  simp [Token.Kind.operandForm?] at h

theorem kind_ne_eof_of_operator? {kind : Token.Kind} {op : Operator}
    (h : kind.operator? = some op) : kind ≠ .eof := by
  rintro rfl
  simp [Token.Kind.operator?] at h

variable [Number α]

mutual

/-- Compiles an operand and the operators behind it that bind at least as tightly
as `level`. -/
def climb (level : Precedence) (c : Compilation α) : {d : Compilation α // d.left ≤ c.left} :=
  match h : c.current.kind.operandForm? with
  | none => ⟨c.advance.reportAt c.current "Expect expression.", by simp [left_advance_le]⟩
  | some form =>
    have hlt := left_advance_lt (kind_ne_eof_of_operandForm? h)
    match operand form c.current c.advance with
    | ⟨first, hfirst⟩ =>
      match operators level first with
      | ⟨whole, hwhole⟩ => ⟨whole, by omega⟩
termination_by 3 * c.left
decreasing_by all_goals omega

/-- Compiles the operand that `token` begins, from the token behind it on. -/
def operand (form : OperandForm) (token : Token) (c : Compilation α) :
    {d : Compilation α // d.left ≤ c.left} :=
  match form with
  | .number => ⟨c.emitNumber token, by simp⟩
  | .grouping =>
    let inner := nested .assignment token c
    ⟨inner.1.expect .rightParen "Expect ')' after expression.",
      Nat.le_trans (left_expect_le _ _ _) inner.2⟩
  | .negation =>
    let inner := nested .unary token c
    ⟨inner.1.emit .negate token.line, by simpa using inner.2⟩
termination_by 3 * c.left + 2

/-- Compiles what stands inside a grouping or negation that `token` opens, unless
too many are open. -/
def nested (level : Precedence) (token : Token) (c : Compilation α) :
    {d : Compilation α // d.left ≤ c.left} :=
  if c.depth < maxNesting then
    let inner := climb level c.enter
    ⟨inner.1.leave, inner.2⟩
  else ⟨c.reportAt token "Expression nested too deeply.", by simp⟩
termination_by 3 * c.left + 1

/-- Compiles the operators ahead that bind at least as tightly as `level`, each
with its right operand. -/
def operators (level : Precedence) (c : Compilation α) :
    {d : Compilation α // d.left ≤ c.left} :=
  match h : c.current.kind.operator? with
  | none => ⟨c, Nat.le_refl _⟩
  | some op =>
    if level.rank ≤ op.precedence.rank then
      have hlt := left_advance_lt (kind_ne_eof_of_operator? h)
      match climb op.precedence.next c.advance with
      | ⟨right, hright⟩ =>
        match operators level (right.emit (.operator op) c.current.line) with
        | ⟨whole, hwhole⟩ => ⟨whole, by rw [left_emit] at hwhole; omega⟩
    else ⟨c, Nat.le_refl _⟩
termination_by 3 * c.left
decreasing_by all_goals (first | omega | (rw [left_emit]; omega))

end

def expression (c : Compilation α) : Compilation α := (climb .assignment c).1

/-- Compiles one expression up to the end of the text, and the return from it. -/
def complete (c : Compilation α) : Compilation α :=
  let d := c.expression.expect .eof "Expect end of expression."
  d.emit .ret (d.window.previous.elim 0 fun t => (t.line : Int))

end LoxBytecode.Compilation

namespace LoxBytecode

def compile {α : Type} [Number α] (source : List Char) : Except CompileError (Chunk α) :=
  let c : Compilation α := (Compilation.ofSource source).complete
  if c.window.hasFailed then .error ⟨c.window.diagnostics⟩ else .ok c.chunk

end LoxBytecode

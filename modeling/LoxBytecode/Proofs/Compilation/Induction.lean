import LoxBytecode.Compilation.Equations
import LoxBytecode.Proofs.Window.Stream
import Mathlib.Logic.Relation

/-!
# Induction over the expression compiler

The four functions of the expression compiler call each other, and every statement
about one of them goes by induction over all four at once.  `Rules` lists the cases
of that induction, with what each call leads to written out, and `Rules.all` is the
induction itself.

The first use is that all four proceed by single moves.  What every single move keeps
is therefore kept by the whole compilation; the first fault is an example.
-/

namespace LoxBytecode.Compilation

variable {α : Type}

/-! ## Single moves -/

/-- The single moves that a compilation consists of. -/
inductive Move : Compilation α → Compilation α → Prop
  | advance (c : Compilation α) : Move c c.advance
  | report (c : Compilation α) (t : Token) (message : String) : Move c (c.reportAt t message)
  | enter (c : Compilation α) : Move c c.enter
  | leave (c : Compilation α) : Move c c.leave
  | emit (c : Compilation α) (op : Opcode) (line : Int) : Move c (c.emit op line)
  | load (c : Compilation α) (index : Nat) (line : Int) : Move c (c.emitLoad index line)
  | constant (c : Compilation α) (value : α) :
      Move c { c with chunk := c.chunk.addConstant value }

/-- `d` comes after `c` in some sequence of moves. -/
abbrev Reaches : Compilation α → Compilation α → Prop := Relation.ReflTransGen Move

/-- A move after the first fault keeps that fault and adds nothing to it. -/
theorem Move.reported {c d : Compilation α} (h : Move c d) {found : Diagnostic}
    (hc : c.window.Reported (some found)) : d.window.Reported (some found) := by
  cases h with
  | advance => exact hc.advance
  | report t message => exact hc.reportAt t message
  | _ => exact hc

theorem Reaches.reported {c d : Compilation α} (h : c.Reaches d) {found : Diagnostic}
    (hc : c.window.Reported (some found)) : d.window.Reported (some found) := by
  induction h with
  | refl => exact hc
  | tail _ hmove ih => exact hmove.reported ih

theorem Move.hasFailed {c d : Compilation α} (h : Move c d) (hc : c.window.hasFailed = true) :
    d.window.hasFailed = true := by
  cases h with
  | advance => exact Window.hasFailed_advance hc
  | report t message => exact c.window.hasFailed_reportAt t message
  | _ => exact hc

theorem Reaches.hasFailed {c d : Compilation α} (h : c.Reaches d)
    (hc : c.window.hasFailed = true) : d.window.hasFailed = true := by
  induction h with
  | refl => exact hc
  | tail _ hmove ih => exact hmove.hasFailed ih

theorem Reaches.unfailed {c d : Compilation α} (h : c.Reaches d)
    (hd : d.window.hasFailed = false) : c.window.hasFailed = false := by
  cases hc : c.window.hasFailed with
  | false => rfl
  | true => cases (h.hasFailed hc).symm.trans hd

theorem reaches_expect (c : Compilation α) (kind : Token.Kind) (message : String) :
    c.Reaches (c.expect kind message) := by
  by_cases h : c.current.kind = kind
  · rw [expect_of_kind h]
    exact .single (.advance c)
  · rw [expect_of_ne h]
    exact .single (.report c c.current message)

variable [Number α]

theorem reaches_emitNumber (c : Compilation α) (t : Token) : c.Reaches (c.emitNumber t) := by
  unfold emitNumber
  split
  · exact .trans (.single (.constant c _)) (.single (.load _ _ _))
  · exact .trans (.single (.report c t _)) (.single (.load _ _ _))

/-! ## The four functions at once -/

/-- The cases of an induction over the four functions: each of the relations links
the state that its function begins in to the one that it ends in. -/
structure Rules (climbs loops : Precedence → Compilation α → Compilation α → Prop)
    (operands : OperandForm → Token → Compilation α → Compilation α → Prop)
    (nests : Precedence → Token → Compilation α → Compilation α → Prop) : Prop where
  no_operand {level : Precedence} {c : Compilation α} :
    c.current.kind.operandForm? = none →
      climbs level c (c.advance.reportAt c.current "Expect expression.")
  operand {level : Precedence} {c first : Compilation α} {form : OperandForm} :
    c.current.kind.operandForm? = some form →
      first = (operand form c.current c.advance).1 →
      operands form c.current c.advance first → loops level first (operators level first).1 →
      climbs level c (operators level first).1
  number {t : Token} {c : Compilation α} : operands .number t c (c.emitNumber t)
  grouping {t : Token} {c inner : Compilation α} :
    inner = (nested .assignment t c).1 → nests .assignment t c inner →
      operands .grouping t c (inner.expect .rightParen "Expect ')' after expression.")
  negation {t : Token} {c inner : Compilation α} :
    inner = (nested .unary t c).1 → nests .unary t c inner →
      operands .negation t c (inner.emit .negate t.line)
  nesting {level : Precedence} {t : Token} {c inner : Compilation α} :
    c.depth < maxNesting → inner = (climb level c.enter).1 → climbs level c.enter inner →
      nests level t c inner.leave
  too_deep {level : Precedence} {t : Token} {c : Compilation α} :
    ¬c.depth < maxNesting → nests level t c (c.reportAt t "Expression nested too deeply.")
  no_operator {level : Precedence} {c : Compilation α} :
    c.current.kind.operator? = none → loops level c c
  looser {level : Precedence} {c : Compilation α} {op : Operator} :
    c.current.kind.operator? = some op → ¬level.rank ≤ op.precedence.rank → loops level c c
  operator {level : Precedence} {c right joined : Compilation α} {op : Operator} :
    c.current.kind.operator? = some op → level.rank ≤ op.precedence.rank →
      right = (climb op.precedence.next c.advance).1 →
      joined = right.emit (.operator op) c.current.line →
      climbs op.precedence.next c.advance right → loops level joined (operators level joined).1 →
      loops level c (operators level joined).1

variable {climbs loops : Precedence → Compilation α → Compilation α → Prop}
  {operands : OperandForm → Token → Compilation α → Compilation α → Prop}
  {nests : Precedence → Token → Compilation α → Compilation α → Prop}

theorem Rules.all (rules : Rules climbs loops operands nests) :
    (∀ level c, climbs level c (climb level c).1) ∧
      (∀ level c, loops level c (operators level c).1) ∧
      (∀ form t c, operands form t c (Compilation.operand form t c).1) ∧
      ∀ level t c, nests level t c (nested level t c).1 := by
  apply climb.mutual_induct (fun level c => climbs level c (climb level c).1)
    (fun level c => loops level c (operators level c).1)
    (fun form t c => operands form t c (Compilation.operand form t c).1)
    (fun level t c => nests level t c (nested level t c).1)
  -- climbing
  · intro level c h
    rw [climb_of_no_operand h]
    exact rules.no_operand h
  · intro level c form h _ first hfirst hoperand whole hwhole hoperators ihOperand ihLoop
    rw [climb_of_operand h]
    have hfirst : (Compilation.operand form c.current c.advance).1 = first := by rw [hoperand]
    rw [← hfirst] at ihLoop
    exact rules.operand h rfl ihOperand ihLoop
  -- operators
  · intro level c h
    rw [operators_of_none h]
    exact rules.no_operator h
  · intro level c op h hlevel _ right hright hclimb whole hwhole hoperators ihClimb ihLoop
    rw [operators_of_tight h hlevel]
    have hright : (climb op.precedence.next c.advance).1 = right := by rw [hclimb]
    rw [← hright] at ihLoop
    exact rules.operator h hlevel rfl rfl ihClimb ihLoop
  · intro level c op h hlevel
    rw [operators_of_looser h hlevel]
    exact rules.looser h hlevel
  -- operands
  · intro t c
    rw [operand_number]
    exact rules.number
  · intro t c ih
    rw [operand_grouping]
    exact rules.grouping rfl ih
  · intro t c ih
    rw [operand_negation]
    exact rules.negation rfl ih
  -- nesting
  · intro level t c h ih
    rw [nested_of_lt h]
    exact rules.nesting h rfl ih
  · intro level t c h
    rw [nested_of_not_lt h]
    exact rules.too_deep h

/-! ## The compiler moves -/

theorem rules_reaches :
    Rules (α := α) (fun _ => Reaches) (fun _ => Reaches) (fun _ _ => Reaches)
      (fun _ _ => Reaches) where
  no_operand {_ c} _ := .trans (.single (.advance c)) (.single (.report _ _ _))
  operand {_ c _ _} _ _ hoperand hloop := .trans (.single (.advance c)) (.trans hoperand hloop)
  number := reaches_emitNumber _ _
  grouping _ h := .trans h (reaches_expect _ _ _)
  negation _ h := .tail h (.emit _ _ _)
  nesting {_ _ c _} _ _ h := .trans (.single (.enter c)) (.tail h (.leave _))
  too_deep _ := .single (.report _ _ _)
  no_operator _ := .refl
  looser _ _ := .refl
  operator {_ c _ _ _} _ _ _ hjoined hclimb hloop := by
    subst hjoined
    exact .trans (.single (.advance c)) (.trans (.tail hclimb (.emit _ _ _)) hloop)

theorem reaches_climb (level : Precedence) (c : Compilation α) : c.Reaches (climb level c).1 :=
  rules_reaches.all.1 level c

theorem reaches_operators (level : Precedence) (c : Compilation α) :
    c.Reaches (operators level c).1 :=
  rules_reaches.all.2.1 level c

theorem reaches_operand (form : OperandForm) (t : Token) (c : Compilation α) :
    c.Reaches (operand form t c).1 :=
  rules_reaches.all.2.2.1 form t c

end LoxBytecode.Compilation

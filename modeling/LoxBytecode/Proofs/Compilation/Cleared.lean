import LoxBytecode.Proofs.Compilation.Induction

/-!
# Faults found before

Reports are noted and kept, and nothing is ever decided by whether there has been one.  So a call of
the expression compiler goes on in the same way whatever faults have been found before it
(`cleared_climb`), and it makes sense to ask whether a call finds a fault itself: that is whether
one is noted when the call begins without any (`Faultless`).
-/

namespace LoxBytecode

namespace Window

/-- The window, as if no fault had been found so far. -/
def cleared (w : Window) : Window := { w with hasFailed := false }

theorem cleared_reportAt (w : Window) (t : Token) (message : String) :
    (w.reportAt t message).cleared = (w.cleared.reportAt t message).cleared := by
  unfold reportAt cleared
  split <;> rfl

theorem cleared_reportErrors (w : Window) (errors : List Token) :
    (w.reportErrors errors).cleared = (w.cleared.reportErrors errors).cleared := by
  induction errors generalizing w with
  | nil => rfl
  | cons t later ih =>
      show ((w.reportAt t _).reportErrors later).cleared =
        ((w.cleared.reportAt t _).reportErrors later).cleared
      rw [ih (w.reportAt t _), cleared_reportAt, ← ih]

theorem cleared_advance (w : Window) : w.advance.cleared = w.cleared.advance.cleared := by
  unfold advance
  exact cleared_reportErrors _ _

end Window

namespace Compilation

variable {α : Type}

/-! ## Moves -/

/-- The compilation, as if no fault had been found so far. -/
def cleared (c : Compilation α) : Compilation α := { c with window := c.window.cleared }

/-- What a move comes to does not depend on whether a fault has been found before. -/
def Disregards (move : Compilation α → Compilation α) : Prop :=
  ∀ c, (move c).cleared = (move c.cleared).cleared

/-- Two compilations that only differ in whether a fault has been found before go on alike. -/
theorem Disregards.congr {move : Compilation α → Compilation α} (h : Disregards move)
    {c c' : Compilation α} (hcleared : c'.cleared = c.cleared) :
    (move c').cleared = (move c).cleared := by
  calc (move c').cleared
      = (move c'.cleared).cleared := h c'
    _ = (move c.cleared).cleared := by rw [hcleared]
    _ = (move c).cleared := (h c).symm

theorem current_of_cleared {c c' : Compilation α} (h : c'.cleared = c.cleared) :
    c'.current = c.current := by
  have hcurrent : c'.cleared.current = c.cleared.current := congrArg Compilation.current h
  exact hcurrent

theorem depth_of_cleared {c c' : Compilation α} (h : c'.cleared = c.cleared) :
    c'.depth = c.depth := by
  have hdepth : c'.cleared.depth = c.cleared.depth := congrArg Compilation.depth h
  exact hdepth

theorem chunk_of_cleared {c c' : Compilation α} (h : c'.cleared = c.cleared) :
    c'.chunk = c.chunk := by
  have hchunk : c'.cleared.chunk = c.cleared.chunk := congrArg Compilation.chunk h
  exact hchunk

theorem disregards_advance : Disregards (advance (α := α)) := by
  intro c
  have hwindow := c.window.cleared_advance
  simp only [advance, cleared, hwindow]

theorem disregards_reportAt (t : Token) (message : String) :
    Disregards (α := α) (·.reportAt t message) := by
  intro c
  have hwindow := c.window.cleared_reportAt t message
  simp only [reportAt, cleared, hwindow]

theorem disregards_emit (op : Opcode) (line : Int) : Disregards (α := α) (·.emit op line) :=
  fun _ => rfl

theorem disregards_enter : Disregards (enter (α := α)) := fun _ => rfl

theorem disregards_leave : Disregards (leave (α := α)) := fun _ => rfl

theorem disregards_expect (kind : Token.Kind) (message : String) :
    Disregards (α := α) (·.expect kind message) := by
  intro c
  by_cases h : c.current.kind = kind
  · have h' : c.cleared.current.kind = kind := h
    dsimp only
    rw [expect_of_kind h, expect_of_kind h']
    exact disregards_advance c
  · have h' : c.cleared.current.kind ≠ kind := h
    dsimp only
    rw [expect_of_ne h, expect_of_ne h']
    exact disregards_reportAt c.current message c

variable [Number α]

theorem disregards_emitNumber (t : Token) : Disregards (α := α) (·.emitNumber t) := by
  intro c
  by_cases hroom : c.chunk.constants.size < Chunk.maxConstants
  · have hroom' : c.cleared.chunk.constants.size < Chunk.maxConstants := hroom
    simp only [emitNumber, if_pos hroom, if_pos hroom']
    rfl
  · have hroom' : ¬c.cleared.chunk.constants.size < Chunk.maxConstants := hroom
    have hreported := disregards_reportAt t "Too many constants in one chunk." c
    simp only [emitNumber, if_neg hroom, if_neg hroom']
    exact congrArg (·.emitLoad 0 t.line) hreported

/-! ## Calls -/

theorem rules_cleared :
    Rules (α := α)
      (fun level c d => ∀ c', c'.cleared = c.cleared → (climb level c').1.cleared = d.cleared)
      (fun level c d => ∀ c', c'.cleared = c.cleared → (operators level c').1.cleared = d.cleared)
      (fun form t c d => ∀ c', c'.cleared = c.cleared → (operand form t c').1.cleared = d.cleared)
      (fun level t c d => ∀ c', c'.cleared = c.cleared →
        (nested level t c').1.cleared = d.cleared) where
  no_operand {level c} h c' hc' := by
    have hcurrent := current_of_cleared hc'
    rw [climb_of_no_operand (hcurrent ▸ h), hcurrent]
    exact (disregards_reportAt _ _).congr (disregards_advance.congr hc')
  operand {level c first form} h _ hoperand hloop c' hc' := by
    have hcurrent := current_of_cleared hc'
    rw [climb_of_operand (hcurrent ▸ h), hcurrent]
    exact hloop _ (hoperand _ (disregards_advance.congr hc'))
  number {t c} c' hc' := by
    rw [operand_number]
    exact (disregards_emitNumber t).congr hc'
  grouping {t c inner} _ hinner c' hc' := by
    rw [operand_grouping]
    exact (disregards_expect _ _).congr (hinner c' hc')
  negation {t c inner} _ hinner c' hc' := by
    rw [operand_negation]
    exact (disregards_emit _ _).congr (hinner c' hc')
  nesting {level t c inner} hdepth _ hinner c' hc' := by
    rw [nested_of_lt (depth_of_cleared hc' ▸ hdepth)]
    exact disregards_leave.congr (hinner _ (disregards_enter.congr hc'))
  too_deep {level t c} hdepth c' hc' := by
    rw [nested_of_not_lt (depth_of_cleared hc' ▸ hdepth)]
    exact (disregards_reportAt _ _).congr hc'
  no_operator {level c} h c' hc' := by
    rw [operators_of_none (current_of_cleared hc' ▸ h)]
    exact hc'
  looser {level c op} h hlooser c' hc' := by
    rw [operators_of_looser (current_of_cleared hc' ▸ h) hlooser]
    exact hc'
  operator {level c right joined op} h htight _ hjoined hclimb hloop c' hc' := by
    have hcurrent := current_of_cleared hc'
    have hright := hclimb _ (disregards_advance.congr hc')
    subst hjoined
    rw [operators_of_tight (hcurrent ▸ h) htight, hcurrent]
    exact hloop _ ((disregards_emit _ _).congr hright)

/-- What has been found before makes no difference to what climbing comes to. -/
theorem cleared_climb (level : Precedence) (c : Compilation α) :
    (climb level c).1.cleared = (climb level c.cleared).1.cleared :=
  (rules_cleared.all.1 level c c.cleared rfl).symm

/-! ## Calls without a fault -/

/-- Climbing from a state finds no fault, whatever has been found before. -/
def Faultless (level : Precedence) (c : Compilation α) : Prop :=
  (climb level c.cleared).1.window.hasFailed = false

/-- No fault has been found behind a call just if none was found before, and none in it. -/
theorem hasFailed_climb_eq_false_iff {level : Precedence} {c : Compilation α} :
    (climb level c).1.window.hasFailed = false ↔
      c.window.hasFailed = false ∧ Faultless level c := by
  have hcleared (h : c.window.hasFailed = false) : c.cleared = c := by
    unfold cleared Window.cleared
    rw [← h]
  constructor
  · intro h
    have hbefore := (reaches_climb level c).unfailed h
    refine ⟨hbefore, ?_⟩
    rwa [Faultless, hcleared hbefore]
  · rintro ⟨hbefore, h⟩
    rwa [Faultless, hcleared hbefore] at h

end Compilation

end LoxBytecode

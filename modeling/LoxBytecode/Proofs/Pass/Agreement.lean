import LoxBytecode.Double.Text
import LoxBytecode.Proofs.Pass.Basic
import LoxBytecode.Proofs.Compilation.Induction
import LoxBytecode.Proofs.Grammar.Phrase

/-!
# Passes end, and lack nothing

Every pass does what the expression compiler does, step by step.  Three things make this work.  The
tables have an entry for whatever is looked up in them.  Behind the first token there is always a
previous one.  And the indices of constants are bytes, since the pool is never larger than that.

How many tokens are asked for is a matter of the end of the text, which comes again whenever it is
asked for.  Any other token is asked for once: `Fresh` says that nothing has been asked for in vain
so far.  In front of an operand this is always so, and where an operand is missing one token may be
asked for in vain.  This token is the end of the text, though, and nothing but the end of the whole
pass can come behind it, so that `Within` leaves room for one more token only there.
-/

namespace LoxBytecode

/-! ## What the tables say -/

/-- What the token that begins an operand has a pass do. -/
def OperandForm.action : OperandForm → Action
  | number => .number
  | grouping => .grouping
  | negation => .unary

namespace ParseRule

theorem leading_ofKind (kind : Token.Kind) :
    (ofKind kind).leading = kind.operandForm?.map OperandForm.action := by
  cases kind <;> rfl

theorem precedence_ofKind (kind : Token.Kind) : (ofKind kind).precedence = kind.precedence := by
  cases kind <;> rfl

/-- Whatever binds an operand has a rule for going on behind it. -/
theorem trailing_ofKind {kind : Token.Kind} {op : Operator} (h : kind.operator? = some op) :
    (ofKind kind).trailing = some .binary := by
  cases kind <;> cases h <;> rfl

end ParseRule

theorem lookup_operations {kind : Token.Kind} {op : Operator} (h : kind.operator? = some op) :
    operations.lookup kind = some (.operator op) := by
  cases kind <;> cases h <;> rfl

theorem Precedence.getElem?_all_operator (op : Operator) :
    all[op.precedence.rank + 1]? = some op.precedence.next := by
  cases op <;> rfl

/-! ## What is still to be asked for -/

namespace Window

/-- The number of tokens that the source text has not been asked for. -/
def unread (w : Window) : Nat := if w.current.kind = .eof then 0 else w.cursor.readAll.1.length

theorem length_ahead (w : Window) : w.ahead.length = w.unread + 1 := by
  rw [ahead, unread, List.length_cons]
  split <;> rfl

theorem unread_advance {w : Window} (h : w.current.kind ≠ .eof) :
    w.cursor.nextSound.1.length + 1 + w.advance.unread = w.unread := by
  have hlength := congrArg List.length (ahead_advance h)
  rw [List.length_cons, List.length_append, length_ahead, length_ahead] at hlength
  omega

theorem unread_ofSource (source : List Char) :
    (Cursor.ofText source).nextSound.1.length + 1 + (ofSource source).unread =
      (tokens source).length := by
  rw [tokens_eq_ahead, List.length_append, length_ahead]
  omega

theorem reportAt_moved (w : Window) (next : Token × Cursor) (t : Token) (message : String) :
    (w.moved next).reportAt t message = (w.reportAt t message).moved next := by
  unfold reportAt
  split <;> rename_i h
  · rw [if_pos (show w.panicking = true from h)]
    rfl
  · rw [if_neg (show ¬w.panicking = true from h)]
    rfl

end Window

/-! ## Single moves -/

namespace Pass

variable {α : Type} {bound : Nat} {c d : Compilation α} {n : Nat}

/-- A pass that asks for a token comes to the next one that is sound. -/
theorem settle_ask (p : Pass α) {steps : Nat}
    (hsteps : p.window.cursor.nextSound.1.length < steps) :
    settle steps p.ask = pure
      { compilation :=
          { p.compilation with
            window := (p.window.moved p.window.cursor.nextSound.2).reportErrors
              p.window.cursor.nextSound.1 }
        asked := p.asked + (p.window.cursor.nextSound.1.length + 1) } := by
  generalize hcursor : p.window.cursor = cursor at hsteps ⊢
  fun_induction Cursor.nextSound cursor generalizing p steps with
  | case1 cursor herror later =>
      rename_i ih
      subst hcursor
      cases steps with
      | zero => exact absurd hsteps (Nat.not_lt_zero _)
      | succ steps =>
          let t := p.window.cursor.nextToken.1
          have hcurrent : p.ask.current.kind = .error := herror
          have hrest := ih (p.ask.reportAt t (t.message.getD "")) (Window.cursor_reportAt _ _ _)
            (Nat.lt_of_succ_lt_succ hsteps)
          have hwindow : (p.ask.reportAt t (t.message.getD "")).window.moved later.2 =
              (p.window.moved later.2).reportAt t (t.message.getD "") :=
            (Window.reportAt_moved _ _ _ _).symm
          rw [hwindow] at hrest
          rw [settle, if_pos hcurrent]
          have hasked : p.asked + 1 + (later.1.length + 1) =
              p.asked + (later.1.length + 1 + 1) := by omega
          exact hrest.trans (congrArg pure (congrArg (Pass.mk _) hasked))
  | case2 cursor hsound =>
      subst hcursor
      cases steps with
      | zero => exact absurd hsteps (Nat.not_lt_zero _)
      | succ steps =>
          have hcurrent : ¬p.ask.current.kind = .error := hsound
          rw [settle, if_neg hcurrent]
          rfl

theorem advance_eq (p : Pass α) {steps : Nat}
    (hsteps : p.window.cursor.nextSound.1.length < steps) :
    advance steps p =
      pure ⟨p.compilation.advance, p.asked + (p.window.cursor.nextSound.1.length + 1)⟩ :=
  settle_ask p.shift hsteps

theorem ofSource_eq (source : List Char) {steps : Nat}
    (hsteps : (Cursor.ofText source).nextSound.1.length < steps) :
    ofSource steps source =
      pure (⟨.ofSource source, (Cursor.ofText source).nextSound.1.length + 1⟩ : Pass α) := by
  let t := (Cursor.ofText source).nextToken.1
  have hsettle := settle_ask (α := α) ⟨{ window := { cursor := .ofText source, current := t } }, 0⟩
    hsteps
  rw [Nat.zero_add] at hsettle
  exact hsettle

theorem current_mk (c : Compilation α) (n : Nat) : current ⟨c, n⟩ = c.current := rfl

theorem previous_eq {t : Token} (h : c.window.previous = some t) (n : Nat) :
    previous ⟨c, n⟩ = pure t := by
  rw [previous, window, h]
  rfl

theorem reportPrevious_eq {t : Token} (h : c.window.previous = some t) (n : Nat)
    (message : String) : reportPrevious ⟨c, n⟩ message = pure ⟨c.reportAt t message, n⟩ := by
  rw [reportPrevious, previous_eq h, pure_bind]
  rfl

/-! ## Emitting -/

theorem emitByte_eq (p : Pass α) {number : Int} (hlow : 0 ≤ number) (hhigh : number < 256)
    (line : Int) :
    p.emitByte number line = pure { p with
      compilation := { p.compilation with
        chunk := p.compilation.chunk.write number.toNat.toUInt8 line } } := by
  rw [emitByte, Chunk.write?, if_pos ⟨hlow, hhigh⟩]
  rfl

theorem emit_eq (p : Pass α) (op : Opcode) (line : Int) :
    p.emit op line = pure { p with compilation := p.compilation.emit op line } := by
  have hbyte := op.byte.toNat_lt
  rw [emit, emitByte_eq p (by omega) (by omega)]
  simp [Compilation.emit]

/-- An index is a byte, since the pool is never larger than what a byte can tell apart. -/
theorem number_eq [Number α] {t : Token} (h : c.window.previous = some t) (n : Nat) :
    number ⟨c, n⟩ = pure ⟨c.emitNumber t, n⟩ := by
  rw [number, previous_eq h, pure_bind, makeConstant, Compilation.emitNumber]
  by_cases hroom : c.chunk.constants.size < Chunk.maxConstants
  · have hindex : ((c.chunk.addConstant (Number.ofNumeral t.lexeme : α)).constants.size : Int) - 1 =
        (c.chunk.constants.size : Int) := by
      simp [Chunk.addConstant]
    have hmax : Chunk.maxConstants = 256 := rfl
    rw [if_neg (Nat.not_le.mpr hroom), if_pos hroom, pure_bind]
    simp only [emit_eq, pure_bind]
    rw [hindex, emitByte_eq _ (by omega) (by omega)]
    rfl
  · rw [if_pos (Nat.not_lt.mp hroom), if_neg hroom, reportPrevious_eq h]
    simp only [emit_eq, pure_bind]
    rw [emitByte_eq _ (by decide) (by decide)]
    rfl

/-! ## Attempts that end -/

variable {P Q : Pass α → Prop} {p : Pass α}

/-- Given enough steps, an attempt ends in a pass with a given compilation and a property. -/
def Ends (attempt : Nat → Attempt (Pass α)) (P : Pass α → Prop) (c : Compilation α) : Prop :=
  ∃ n, (∃ enough, ∀ steps, enough ≤ steps → attempt steps = pure ⟨c, n⟩) ∧ P ⟨c, n⟩

theorem ends_pure (h : P ⟨c, n⟩) : Ends (fun _ => pure ⟨c, n⟩) P c :=
  ⟨n, ⟨0, fun _ _ => rfl⟩, h⟩

theorem ends_bind {first : Nat → Attempt (Pass α)} {rest : Nat → Pass α → Attempt (Pass α)}
    (h : Ends first P c) (hrest : ∀ n, P ⟨c, n⟩ → Ends (fun steps => rest steps ⟨c, n⟩) Q d) :
    Ends (fun steps => first steps >>= rest steps) Q d := by
  obtain ⟨n, ⟨enough, hfirst⟩, hP⟩ := h
  obtain ⟨m, ⟨enough', hrest⟩, hQ⟩ := hrest n hP
  refine ⟨m, ⟨max enough enough', fun steps hsteps => ?_⟩, hQ⟩
  show first steps >>= rest steps = _
  rw [hfirst steps (Nat.le_trans (Nat.le_max_left _ _) hsteps), pure_bind]
  exact hrest steps (Nat.le_trans (Nat.le_max_right _ _) hsteps)

/-- The first step is one step more. -/
theorem ends_succ {attempt : Nat → Attempt (Pass α)}
    (h : Ends (fun steps => attempt (steps + 1)) P c) : Ends attempt P c := by
  obtain ⟨n, ⟨enough, hends⟩, hP⟩ := h
  refine ⟨n, ⟨enough + 1, fun steps hsteps => ?_⟩, hP⟩
  obtain ⟨steps, rfl⟩ := Nat.exists_eq_add_of_le' (Nat.le_of_add_left_le hsteps)
  exact hends steps (Nat.le_of_add_le_add_right hsteps)

/-! ## Tokens asked for in vain -/

/-- Together with the tokens that are still unread, at most `bound` tokens are asked for. -/
structure Fresh (bound : Nat) (p : Pass α) : Prop where
  coherent : p.window.Coherent
  asked_le : p.asked + p.window.unread ≤ bound

/-- One more token may have been asked for, but only where the end of the text is the current
token. -/
structure Within (bound : Nat) (p : Pass α) : Prop where
  coherent : p.window.Coherent
  passed : p.window.previous.isSome
  asked_le : p.asked + p.window.unread ≤ bound + if p.current.kind = .eof then 1 else 0

/-- Neither reports nor emitted code make a difference to what has been asked for. -/
theorem Within.congr (h : Within bound ⟨c, n⟩) (hcursor : d.window.cursor = c.window.cursor)
    (hcurrent : d.window.current = c.window.current)
    (hprevious : d.window.previous = c.window.previous) : Within bound ⟨d, n⟩ where
  coherent := by
    obtain ⟨hsound, hend⟩ := h.coherent
    constructor
    · rwa [window, hcurrent]
    · rwa [window, hcurrent, hcursor]
  passed := by
    rw [window, hprevious]
    exact h.passed
  asked_le := by
    rw [current, window, Window.unread, hcurrent, hcursor]
    exact h.asked_le

theorem Within.reportAt (h : Within bound ⟨c, n⟩) (t : Token) (message : String) :
    Within bound ⟨c.reportAt t message, n⟩ :=
  h.congr (Window.cursor_reportAt _ _ _) (Window.current_reportAt _ _ _)
    (Window.previous_reportAt _ _ _)

theorem Fresh.within (h : Fresh bound p) (hpassed : p.window.previous.isSome) : Within bound p :=
  ⟨h.coherent, hpassed, Nat.le_add_right_of_le h.asked_le⟩

theorem Within.fresh (h : Within bound p) (hmore : p.current.kind ≠ .eof) : Fresh bound p := by
  have hasked := h.asked_le
  rw [if_neg hmore] at hasked
  exact ⟨h.coherent, hasked⟩

theorem ends_advance (hP : P ⟨c.advance, n + (c.window.cursor.nextSound.1.length + 1)⟩) :
    Ends (advance · ⟨c, n⟩) P c.advance :=
  ⟨_, ⟨_, fun _ hsteps => advance_eq ⟨c, n⟩ hsteps⟩, hP⟩

/-- In front of the end of the text, a token that is asked for is one that was unread. -/
theorem Fresh.advance_more (h : Fresh bound ⟨c, n⟩) (hmore : c.current.kind ≠ .eof) :
    Ends (Pass.advance · ⟨c, n⟩) (Fresh bound) c.advance := by
  refine ends_advance ⟨c.window.coherent_advance, ?_⟩
  have hasked := h.asked_le
  have hunread := Window.unread_advance (w := c.window) hmore
  show n + (c.window.cursor.nextSound.1.length + 1) + c.window.advance.unread ≤ bound
  simp only [window] at hasked
  omega

/-- At the end of the text, the end comes again. -/
theorem advance_of_eof (hcoherent : c.window.Coherent) (heof : c.current.kind = .eof) :
    c.window.cursor.nextSound.1.length = 0 ∧ c.advance.current.kind = .eof ∧
      c.advance.window.unread = 0 := by
  have hnext := hcoherent.nextSound_of_eof heof
  have hcurrent : c.advance.current = c.current := by
    rw [Compilation.current, Compilation.advance, Window.current_advance, hnext]
    rfl
  refine ⟨?_, by rwa [hcurrent], ?_⟩
  · rw [hnext]
    rfl
  · rw [Window.unread, if_pos]
    rwa [← hcurrent] at heof

theorem previous_advance (c : Compilation α) : c.advance.window.previous = some c.current :=
  Window.previous_advance c.window

theorem isSome_previous_advance (c : Compilation α) : c.advance.window.previous.isSome := by
  rw [previous_advance]
  rfl

theorem Fresh.advance (h : Fresh bound ⟨c, n⟩) :
    Ends (Pass.advance · ⟨c, n⟩) (Within bound) c.advance := by
  have hpassed := isSome_previous_advance c
  by_cases hmore : c.current.kind = .eof
  · obtain ⟨hnone, heof, hunread⟩ := advance_of_eof h.coherent hmore
    refine ends_advance ⟨c.window.coherent_advance, hpassed, ?_⟩
    have hasked : n + c.window.unread ≤ bound := h.asked_le
    show n + (c.window.cursor.nextSound.1.length + 1) + c.advance.window.unread ≤
      bound + if c.advance.current.kind = .eof then 1 else 0
    rw [hnone, hunread, if_pos heof]
    omega
  · obtain ⟨m, hadvance, hfresh⟩ := h.advance_more hmore
    exact ⟨m, hadvance, hfresh.within hpassed⟩

theorem expect_of_kind {kind : Token.Kind} (h : c.current.kind = kind) (message : String) :
    (Pass.expect · ⟨c, n⟩ kind message) = (Pass.advance · ⟨c, n⟩) :=
  funext fun _ => if_pos h

theorem expect_of_ne {kind : Token.Kind} (h : c.current.kind ≠ kind) (message : String) :
    (Pass.expect · ⟨c, n⟩ kind message) = fun _ => pure ⟨c.reportAt c.current message, n⟩ :=
  funext fun _ => if_neg h

theorem Within.expect (h : Within bound ⟨c, n⟩) {kind : Token.Kind} (hkind : kind ≠ .eof)
    (message : String) :
    Ends (Pass.expect · ⟨c, n⟩ kind message) (Within bound) (c.expect kind message) := by
  by_cases hcurrent : c.current.kind = kind
  · have hmore : c.current.kind ≠ .eof := by rwa [hcurrent]
    rw [expect_of_kind hcurrent, Compilation.expect_of_kind hcurrent]
    exact (h.fresh hmore).advance
  · rw [expect_of_ne hcurrent, Compilation.expect_of_ne hcurrent]
    exact ends_pure (h.reportAt c.current message)

/-- What stands behind the expression is passed at its end, and reported anywhere else. -/
theorem Within.expect_eof (h : Within bound ⟨c, n⟩) (message : String) :
    Ends (Pass.expect · ⟨c, n⟩ .eof message)
      (fun p => p.asked ≤ bound + 2 ∧ p.window.previous.isSome) (c.expect .eof message) := by
  have hasked : n + c.window.unread ≤ bound + if c.current.kind = .eof then 1 else 0 := h.asked_le
  by_cases heof : c.current.kind = .eof
  · rw [if_pos heof] at hasked
    rw [expect_of_kind heof, Compilation.expect_of_kind heof]
    have hnone : c.window.cursor.nextSound.1.length = 0 := (advance_of_eof h.coherent heof).1
    refine ends_advance ⟨?_, isSome_previous_advance c⟩
    show n + (c.window.cursor.nextSound.1.length + 1) ≤ bound + 2
    omega
  · rw [if_neg heof] at hasked
    rw [expect_of_ne heof, Compilation.expect_of_ne heof]
    refine ends_pure ⟨?_, (h.reportAt c.current message).passed⟩
    show n ≤ bound + 2
    omega

/-! ## Expressions -/

variable [Number α]

/-- A pass climbs as the expression compiler does. -/
def Climbs (level : Precedence) (c d : Compilation α) : Prop :=
  1 ≤ level.rank → ∀ {bound n}, Fresh bound ⟨c, n⟩ → Ends (climb · level ⟨c, n⟩) (Within bound) d

def Proceeds (level : Precedence) (c d : Compilation α) : Prop :=
  1 ≤ level.rank →
    ∀ {bound n}, Within bound ⟨c, n⟩ → Ends (proceed · level ⟨c, n⟩) (Within bound) d

def Applies (form : OperandForm) (t : Token) (c d : Compilation α) : Prop :=
  c.window.previous = some t → t.kind.operandForm? = some form →
    ∀ {bound n}, Fresh bound ⟨c, n⟩ → Ends (apply · form.action ⟨c, n⟩) (Within bound) d

def Nests (level : Precedence) (t : Token) (c d : Compilation α) : Prop :=
  1 ≤ level.rank → c.window.previous = some t →
    ∀ {bound n}, Fresh bound ⟨c, n⟩ → Ends (nested · level ⟨c, n⟩) (Within bound) d

theorem climbs_no_operand {level : Precedence} (h : c.current.kind.operandForm? = none) :
    Climbs level c (c.advance.reportAt c.current "Expect expression.") := by
  intro _ bound n hfresh
  refine ends_succ ?_
  simp only [climb]
  refine ends_bind hfresh.advance fun m hwithin => ?_
  have hprevious := previous_advance c
  simp only [previous_eq hprevious, pure_bind, ParseRule.leading_ofKind, h, Option.map_none,
    reportPrevious_eq hprevious]
  exact ends_pure (hwithin.reportAt _ _)

theorem climbs_operand {level : Precedence} {form : OperandForm}
    (h : c.current.kind.operandForm? = some form)
    (hoperand : Applies form c.current c.advance d) {e : Compilation α}
    (hrest : Proceeds level d e) : Climbs level c e := by
  intro hlevel bound n hfresh
  have hmore := Compilation.kind_ne_eof_of_operandForm? h
  refine ends_succ ?_
  simp only [climb]
  refine ends_bind (hfresh.advance_more hmore) fun m hfresh' => ?_
  have hprevious := previous_advance c
  simp only [previous_eq hprevious, pure_bind, ParseRule.leading_ofKind, h, Option.map_some]
  exact ends_bind (hoperand hprevious h hfresh') fun _ hwithin => hrest hlevel hwithin

theorem applies_number (t : Token) (c : Compilation α) : Applies .number t c (c.emitNumber t) := by
  intro hprevious _ bound n hfresh
  have hwithin : Within bound ⟨c, n⟩ := hfresh.within (by rw [window, hprevious]; rfl)
  refine ends_succ ?_
  simp only [OperandForm.action, apply, number_eq hprevious]
  refine ends_pure ?_
  unfold Compilation.emitNumber
  split
  · exact hwithin.congr rfl rfl rfl
  · exact (hwithin.reportAt t _).congr rfl rfl rfl

theorem applies_grouping {t : Token} (h : Nests .assignment t c d) :
    Applies .grouping t c (d.expect .rightParen "Expect ')' after expression.") := by
  intro hprevious _ bound n hfresh
  refine ends_succ ?_
  simp only [OperandForm.action, apply]
  exact ends_bind (h (by decide) hprevious hfresh) fun _ hwithin =>
    hwithin.expect (by decide) _

theorem applies_negation {t : Token} (h : Nests .unary t c d) :
    Applies .negation t c (d.emit .negate t.line) := by
  intro hprevious hform bound n hfresh
  have hkind : t.kind = .minus := Token.Kind.eq_of_operandForm? hform
  refine ends_succ ?_
  simp only [OperandForm.action, apply, previous_eq hprevious, pure_bind]
  refine ends_bind (h (by decide) hprevious hfresh) fun m hwithin => ?_
  simp only [if_pos hkind, emit_eq]
  exact ends_pure (hwithin.congr rfl rfl rfl)

theorem nests_nesting {level : Precedence} {t : Token} (hdepth : c.depth < maxNesting)
    (h : Climbs level c.enter d) : Nests level t c d.leave := by
  intro hlevel hprevious bound n hfresh
  have hentered : Fresh bound ⟨c.enter, n⟩ := ⟨hfresh.coherent, hfresh.asked_le⟩
  refine ends_succ ?_
  simp only [nested, enter, if_neg (Nat.not_le.mpr hdepth), pure_bind]
  refine ends_bind (h hlevel hentered) fun m hwithin => ?_
  exact ends_pure (hwithin.congr rfl rfl rfl)

theorem nests_too_deep {level : Precedence} {t : Token} (hdepth : ¬c.depth < maxNesting) :
    Nests level t c (c.reportAt t "Expression nested too deeply.") := by
  intro _ hprevious bound n hfresh
  have hwithin : Within bound ⟨c, n⟩ := hfresh.within (by rw [window, hprevious]; rfl)
  refine ends_succ ?_
  simp only [nested, enter, if_pos (Nat.not_lt.mp hdepth), reportPrevious_eq hprevious, pure_bind]
  exact ends_pure (hwithin.reportAt t _)

/-- A pass does not go on behind an operand that nothing ahead binds tightly enough. -/
theorem proceeds_stop {level : Precedence}
    (h : c.current.kind.precedence.rank < level.rank) : Proceeds level c c := by
  intro _ bound n hwithin
  refine ends_succ ?_
  simp only [proceed, current_mk, ParseRule.precedence_ofKind, if_neg (Nat.not_le.mpr h)]
  exact ends_pure hwithin

/-- Behind an operator there is a level to climb at, and an operation to be emitted. -/
theorem apply_operator {op : Operator} {mark : Token} (h : mark.kind.operator? = some op)
    (hprevious : c.window.previous = some mark) (hclimb : Climbs op.precedence.next c d)
    (hfresh : Fresh bound ⟨c, n⟩) :
    Ends (apply · .binary ⟨c, n⟩) (Within bound) (d.emit (.operator op) mark.line) := by
  have hnext : 1 ≤ op.precedence.next.rank := by cases op <;> decide
  have hlevel : Precedence.all[(ParseRule.ofKind mark.kind).precedence.rank + 1]? =
      some op.precedence.next := by
    rw [ParseRule.precedence_ofKind, Token.Kind.precedence, h]
    exact Precedence.getElem?_all_operator op
  refine ends_succ ?_
  simp only [apply, previous_eq hprevious, pure_bind, hlevel, Attempt.find_some]
  refine ends_bind (hclimb hnext hfresh) fun m hwithin => ?_
  simp only [lookup_operations h, Attempt.find_some, pure_bind, emit_eq]
  exact ends_pure (hwithin.congr rfl rfl rfl)

theorem proceeds_operator {level : Precedence} {op : Operator} {e : Compilation α}
    (h : c.current.kind.operator? = some op) (htight : level.rank ≤ op.precedence.rank)
    (hclimb : Climbs op.precedence.next c.advance d)
    (hrest : Proceeds level (d.emit (.operator op) c.current.line) e) : Proceeds level c e := by
  intro hlevel bound n hwithin
  have hmore := Compilation.kind_ne_eof_of_operator? h
  have hbinds : level.rank ≤ c.current.kind.precedence.rank := by
    rwa [Token.Kind.precedence, h]
  refine ends_succ ?_
  simp only [proceed, current_mk, ParseRule.precedence_ofKind, if_pos hbinds]
  refine ends_bind ((hwithin.fresh hmore).advance_more hmore) fun m hfresh => ?_
  have hprevious := previous_advance c
  simp only [previous_eq hprevious, pure_bind, ParseRule.trailing_ofKind h, Attempt.find_some]
  exact ends_bind (apply_operator h hprevious hclimb hfresh) fun _ hwithin =>
    hrest hlevel hwithin

theorem rules_agreement : Compilation.Rules (α := α) Climbs Proceeds Applies Nests where
  no_operand := climbs_no_operand
  operand h _ hoperand hloop := climbs_operand h hoperand hloop
  number := applies_number _ _
  grouping _ h := applies_grouping h
  negation _ h := applies_negation h
  nesting h _ hclimb := nests_nesting h hclimb
  too_deep h := nests_too_deep h
  no_operator h hlevel := by
    refine proceeds_stop ?_ hlevel
    rw [Token.Kind.precedence, h]
    exact hlevel
  looser h hlooser := by
    refine proceeds_stop ?_
    rw [Token.Kind.precedence, h]
    exact Nat.not_le.mp hlooser
  operator h hlevel _ hjoined hclimb hloop := proceeds_operator h hlevel hclimb (hjoined ▸ hloop)

/-! ## Whole texts -/

theorem complete_of_previous {t : Token}
    (h : (c.expression.expect .eof "Expect end of expression.").window.previous = some t) :
    c.complete = (c.expression.expect .eof "Expect end of expression.").emit .ret t.line := by
  rw [Compilation.complete, h]
  rfl

/-- Given enough steps, a pass over any source text ends, without anything lacking, in what the
compiler makes of the text.  It asks for at most two tokens more than there are, faulty ones and
one end of the text included. -/
theorem compile_ends (source : List Char) :
    ∃ asked enough, asked ≤ (tokens source).length + 2 ∧ ∀ steps, enough ≤ steps →
      (Pass.compile steps source : Attempt (Except CompileError (Chunk α) × Nat)).run =
        some (.ok (LoxBytecode.compile source, asked)) := by
  have hfresh : Fresh (tokens source).length
      (⟨.ofSource source, (Cursor.ofText source).nextSound.1.length + 1⟩ : Pass α) :=
    ⟨Window.coherent_ofSource source, Nat.le_of_eq (Window.unread_ofSource source)⟩
  obtain ⟨m, ⟨enough, hclimb⟩, hwithin⟩ :=
    rules_agreement.all.1 .assignment (.ofSource source) (by decide) hfresh
  obtain ⟨asked, ⟨enough', hexpect⟩, hasked, hpassed⟩ :=
    hwithin.expect_eof "Expect end of expression."
  obtain ⟨t, hprevious⟩ := Option.isSome_iff_exists.mp hpassed
  have hcomplete := complete_of_previous hprevious
  refine ⟨asked, (Cursor.ofText source).nextSound.1.length + 1 + enough + enough', hasked,
    fun steps hsteps => ?_⟩
  have hclimb := hclimb steps (by omega)
  have hexpect := hexpect steps (by omega)
  dsimp only at hclimb hexpect
  rw [Pass.compile, ofSource_eq source (by omega), pure_bind, hclimb, pure_bind, hexpect,
    pure_bind, previous_eq hprevious, pure_bind, emit_eq, pure_bind, LoxBytecode.compile,
    hcomplete]
  rfl

/-- The empty text has no token but its end, and this one is asked for three times. -/
example : (Pass.compile 2 [] : Attempt (Except CompileError (Chunk Double) × Nat)).run.map
    (·.map Prod.snd) = some (.ok 3) := rfl

end Pass

end LoxBytecode

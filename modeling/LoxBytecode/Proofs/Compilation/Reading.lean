import LoxBytecode.Proofs.Compilation.Outcome

/-!
# The compiler as a reader

The expression compiler takes its tokens in as a reader does: each of its four
functions passes a phrase of its own sort, or reports what the reader says.

The openers that the reader keeps are the groupings and negations that the compiler
has entered.  When an operand ends, the reader closes all negations around it at once,
while the compiler leaves them one after the other; the two agree again wherever an
operator can follow, since no chain of operators is compiled right inside a negation.
-/

namespace LoxBytecode.Compilation

variable {α : Type}

/-! ## What the four functions pass -/

/-- The token ahead is no operator that binds as tightly as `level`. -/
def Stops (level : Precedence) (d : Compilation α) : Prop :=
  ∀ op, d.current.kind.operator? = some op → ¬level.rank ≤ op.precedence.rank

theorem Stops.not_mem_joiningKinds {d : Compilation α} (h : d.Stops .assignment) :
    d.current.kind ∉ joiningKinds := by
  intro hmem
  simp only [joiningKinds, List.mem_cons, List.not_mem_nil, or_false] at hmem
  rcases hmem with hkind | hkind | hkind | hkind <;>
    exact h _ (by rw [hkind]; rfl) (by decide)

/-- Chains of operators are only compiled where no negation is the innermost opener. -/
def Closed (level : Precedence) (opened : List Opener) : Prop :=
  level.rank < Precedence.unary.rank → closeNegations opened = opened

/-- The openers that come with a nested part, by the token that opens it. -/
inductive Opens : Token.Kind → Precedence → Opener → Prop
  | grouping : Opens .leftParen .assignment .grouping
  | negation : Opens .minus .unary .negation

def Climbs (level : Precedence) (c d : Compilation α) : Prop :=
  ∀ opened, c.Intact → c.depth = opened.length → Closed level opened →
    Outcome (c.reading true opened) c.ahead opened.length (closeNegations opened)
      (fun taken => (∃ depth, Phrase (.chain level) taken depth) ∧ d.Stops level) d

def Loops (level : Precedence) (c d : Compilation α) : Prop :=
  ∀ opened, c.Intact → c.depth = opened.length → Closed level opened →
    Outcome (c.reading false (closeNegations opened)) c.ahead opened.length
      (closeNegations opened) (fun taken => IsTail level taken ∧ d.Stops level) d

def Operands (form : OperandForm) (t : Token) (c d : Compilation α) : Prop :=
  ∀ opened, c.Intact → c.depth = opened.length → t.kind.operandForm? = some form →
    Outcome (c.reading true opened) (t :: c.ahead) opened.length (closeNegations opened)
      (fun taken => ∃ depth, Phrase .operand taken depth) d

def Nests (level : Precedence) (t : Token) (c d : Compilation α) : Prop :=
  ∀ opened opener, c.Intact → c.depth = opened.length → Opens t.kind level opener →
    Outcome (c.reading true opened) (t :: c.ahead) opened.length
      (closeNegations (opener :: opened))
      (fun taken => ∃ body, taken = t :: body ∧
        (∃ depth, Phrase (.chain level) body depth) ∧ d.Stops level) d

theorem Opens.closed {kind : Token.Kind} {level : Precedence} {opener : Opener}
    (h : Opens kind level opener) (opened : List Opener) : Closed level (opener :: opened) := by
  intro hlevel
  cases h with
  | grouping => rfl
  | negation => exact absurd hlevel (Nat.lt_irrefl _)

theorem Opens.misfit? {kind : Token.Kind} {level : Precedence} {opener : Opener}
    (h : Opens kind level opener) (c : Compilation α) (opened : List Opener) :
    (c.reading true opened).misfit? kind =
      if opened.length < maxNesting then none else some .tooDeep := by
  cases h <;> rfl

theorem Opens.after {kind : Token.Kind} {level : Precedence} {opener : Opener}
    (h : Opens kind level opener) (c : Compilation α) (opened : List Opener) :
    (c.reading true opened).after kind = c.reading true (opener :: opened) := by
  cases h <;> rfl

theorem Opens.ne_error {kind : Token.Kind} {level : Precedence} {opener : Opener}
    (h : Opens kind level opener) : kind ≠ .error := by
  cases h <;> decide

/-! ## Groupings and negations -/

/-- Behind the expression in a grouping only the closing parenthesis fits. -/
theorem expect_rightParen {c : Compilation α} {opened : List Opener} (hintact : c.Intact)
    (hdepth : c.depth = opened.length) (hstops : c.Stops .assignment) :
    Outcome (c.reading false (.grouping :: opened)) c.ahead opened.length (closeNegations opened)
      (fun taken => ∃ closing, closing.kind = .rightParen ∧ taken = [closing])
      (c.expect .rightParen Misfit.unclosed.message) := by
  by_cases hkind : c.current.kind = .rightParen
  · have hfit : (c.reading false (.grouping :: opened)).misfit? c.current.kind = none := by
      simp [Reading.misfit?, reading, hkind]
    have hafter : (c.reading false (.grouping :: opened)).after c.current.kind =
        c.advance.reading false (closeNegations opened) := by
      rw [hkind]
      rfl
    rw [expect_of_kind hkind]
    rcases hintact.advance_fit (by rw [hkind]; decide) hfit with
      ⟨hadvance, hahead, hverdict⟩ | ⟨found, hreported, hverdict⟩
    · rw [hafter] at hverdict
      exact .passed hadvance hdepth hahead hverdict ⟨c.current, hkind, rfl⟩
    · exact .failed hreported hverdict
  · have hmisfit : (c.reading false (.grouping :: opened)).misfit? c.current.kind =
        some .unclosed := by
      simp [Reading.misfit?, reading, hkind, hstops.not_mem_joiningKinds]
    rw [expect_of_ne hkind]
    exact .failed (hintact.reportAt hintact.sound .unclosed)
      (Reading.diagnosis?_misfit_behind hintact.sound hmisfit rfl _)

theorem operands_grouping {t : Token} {c inner : Compilation α}
    (hinner : Nests .assignment t c inner) :
    Operands .grouping t c (inner.expect .rightParen "Expect ')' after expression.") := by
  intro opened hintact hdepth hform
  have hkind : t.kind = .leftParen := Token.Kind.eq_of_operandForm? hform
  have hbody := hinner opened .grouping hintact hdepth (by rw [hkind]; exact .grouping)
  have hwhole := hbody.andThen (reaches_expect inner .rightParen Misfit.unclosed.message)
    fun _ ⟨_, _, _, hstops⟩ hintact' hdepth' => expect_rightParen hintact' hdepth' hstops
  refine hwhole.mono ?_
  rintro _ ⟨_, _, ⟨body, rfl, ⟨depth, hchain⟩, -⟩, ⟨closing, hclosing, rfl⟩, rfl⟩
  exact ⟨depth + 1, .grouping hkind hclosing (hchain.mono (Nat.zero_le _))⟩

theorem operands_negation {t : Token} {c inner : Compilation α}
    (hinner : Nests .unary t c inner) :
    Operands .negation t c (inner.emit .negate t.line) := by
  intro opened hintact hdepth hform
  have hkind : t.kind = .minus := Token.Kind.eq_of_operandForm? hform
  have hbody := (hinner opened .negation hintact hdepth (by rw [hkind]; exact .negation)).emit
    .negate t.line
  refine hbody.mono ?_
  rintro _ ⟨body, rfl, ⟨depth, hchain⟩, -⟩
  exact ⟨depth + 1, .negation hkind (hchain.operand_of_unary (Nat.le_refl _))⟩

theorem nests_nesting {level : Precedence} {t : Token} {c inner : Compilation α}
    (hroom : c.depth < maxNesting) (hinner : Climbs level c.enter inner) :
    Nests level t c inner.leave := by
  intro opened opener hintact hdepth hopens
  have hentered : c.enter.depth = (opener :: opened).length := congrArg (· + 1) hdepth
  have hbody := hinner (opener :: opened) ⟨hintact.coherent, hintact.clean⟩ hentered
    (hopens.closed opened)
  have hfit : (c.reading true opened).misfit? t.kind = none := by
    rw [hopens.misfit?, if_pos (hdepth ▸ hroom)]
  have hverdict := Reading.diagnosis?_fit hopens.ne_error hfit c.ahead
  rw [hopens.after] at hverdict
  exact hbody.leave.behind hverdict

theorem nests_too_deep {level : Precedence} {t : Token} {c : Compilation α}
    (hfull : ¬c.depth < maxNesting) :
    Nests level t c (c.reportAt t "Expression nested too deeply.") := by
  intro opened opener hintact hdepth hopens
  have hmisfit : (c.reading true opened).misfit? t.kind = some .tooDeep := by
    rw [hopens.misfit?, if_neg (hdepth ▸ hfull)]
  exact .failed (hintact.reportAt hopens.ne_error .tooDeep)
    (Reading.diagnosis?_misfit hopens.ne_error hmisfit hintact.head_sound)

/-! ## Tokens that begin no operand -/

theorem climbs_no_operand {level : Precedence} {c : Compilation α}
    (h : c.current.kind.operandForm? = none) :
    Climbs level c (c.advance.reportAt c.current "Expect expression.") := by
  intro opened hintact hdepth _
  have hmisfit : (c.reading true opened).misfit? c.current.kind = some .noOperand := by
    cases hkind : c.current.kind <;> rw [hkind] at h <;> first | rfl | cases h
  rcases hintact.advance with ⟨hadvance, hahead⟩ | ⟨t, later, herror, hahead, hreported⟩
  · refine .failed (hadvance.reportAt hintact.sound .noOperand)
      (Reading.diagnosis?_misfit hintact.sound hmisfit ?_)
    -- behind the end of the text there is nothing, and else the next token is sound
    by_cases heof : c.current.kind = .eof
    · have hend : c.window.current.kind = .eof := heof
      simp [hend]
    · rw [(List.cons_eq_cons.1 (hahead heof)).2]
      exact hadvance.head_sound
  · rw [hahead]
    exact .failed (hreported.reportAt _ _)
      (Reading.diagnosis?_error_behind rfl hintact.sound herror later)

/-! ## Operators -/

theorem rank_le_rank_next (op : Operator) : op.precedence.rank ≤ op.precedence.next.rank := by
  cases op <;> decide

theorem loops_stop {level : Precedence} {c : Compilation α} (h : c.Stops level) :
    Loops level c c := by
  intro opened hintact hdepth _
  exact .passed hintact hdepth rfl rfl ⟨.inl rfl, h⟩

variable [Number α]

theorem loops_operator {level : Precedence} {c right joined : Compilation α} {op : Operator}
    (h : c.current.kind.operator? = some op) (htight : level.rank ≤ op.precedence.rank)
    (hright : right = (climb op.precedence.next c.advance).1)
    (hjoined : joined = right.emit (.operator op) c.current.line)
    (hclimb : Climbs op.precedence.next c.advance right)
    (hloop : Loops level joined (operators level joined).1) :
    Loops level c (operators level joined).1 := by
  intro opened hintact hdepth hclosed
  -- an operator is only passed where the reader has no negation left to close
  have hopened : closeNegations opened = opened :=
    hclosed (Nat.lt_of_le_of_lt htight op.precedence_lt_unary)
  have hmark : c.current.kind ∈ joiningKinds := Phrase.mem_joiningKinds_of_operator? h
  have hfit : (c.reading false opened).misfit? c.current.kind = none :=
    Reading.misfit?_joining _ _ hmark
  have hafter : (c.reading false opened).after c.current.kind = c.reading true opened :=
    Reading.after_joining _ _ hmark
  rw [hopened]
  rcases hintact.advance_fit (kind_ne_eof_of_operator? h) hfit with
    ⟨hadvance, hahead, hverdict⟩ | ⟨found, hreported, hverdict⟩
  · have hoperand := (hclimb opened hadvance hdepth fun _ => hopened).emit (.operator op)
      c.current.line
    rw [← hjoined, hopened] at hoperand
    have hrest := hoperand.andThen (reaches_operators level joined) fun _ _ hintact' hdepth' => by
      have hlater := hloop opened hintact' hdepth' hclosed
      rwa [hopened] at hlater
    rw [hafter, hahead] at hverdict
    rw [hahead]
    refine (hrest.behind hverdict).mono ?_
    rintro _ ⟨_, rfl, first, second, ⟨⟨depth, hfirst⟩, -⟩, ⟨htail, hstops⟩, rfl⟩
    have hchain := hfirst.mono (Nat.le_trans htight (rank_le_rank_next op))
    obtain ⟨depth', hwhole⟩ := htail.append hchain
    refine ⟨.inr ⟨c.current, _, depth', rfl, hmark, ?_, hwhole⟩, hstops⟩
    rwa [Token.Kind.precedence_of_operator? h]
  · have hreaches : c.advance.Reaches joined := by
      rw [hjoined, hright]
      exact .tail (reaches_climb _ _) (.emit _ _ _)
    exact .failed (Reaches.reported (hreaches.trans (reaches_operators _ _)) hreported) hverdict

/-! ## Operands -/

theorem operands_number (t : Token) (c : Compilation α) :
    Operands .number t c (c.emitNumber t) := by
  intro opened hintact hdepth hform
  have hkind : t.kind = .number := Token.Kind.eq_of_operandForm? hform
  have hsound : t.kind ≠ .error := by rw [hkind]; decide
  by_cases hroom : c.chunk.constants.size < Chunk.maxConstants
  · have hfit : (c.reading true opened).misfit? t.kind = none := by
      rw [hkind]
      exact if_pos hroom
    have hemit : c.emitNumber t =
        { c with chunk := c.chunk.addConstant (Number.ofNumeral t.lexeme) }.emitLoad
          c.chunk.constants.size t.line := if_pos hroom
    have hafter : (c.reading true opened).after t.kind =
        (c.emitNumber t).reading false (closeNegations opened) := by
      rw [hkind, hemit]
      simp [reading, Reading.after, emitLoad, Chunk.write, Chunk.addConstant]
    rw [hemit] at hafter ⊢
    refine .passed ⟨hintact.coherent, hintact.clean⟩ hdepth
      (show t :: c.ahead = [t] ++ c.ahead from rfl) ?_ ⟨0, .number hkind⟩
    rw [Reading.diagnosis?_fit hsound hfit, hafter]
    rfl
  · have hmisfit : (c.reading true opened).misfit? t.kind = some .tooManyNumerals := by
      rw [hkind]
      exact if_neg hroom
    have hemit : c.emitNumber t =
        (c.reportAt t Misfit.tooManyNumerals.message).emitLoad 0 t.line := if_neg hroom
    rw [hemit]
    exact .failed (hintact.reportAt hsound .tooManyNumerals)
      (Reading.diagnosis?_misfit hsound hmisfit hintact.head_sound)

theorem climbs_operand {level : Precedence} {c first : Compilation α} {form : OperandForm}
    (h : c.current.kind.operandForm? = some form)
    (hfirst : first = (operand form c.current c.advance).1)
    (hoperand : Operands form c.current c.advance first)
    (hloop : Loops level first (operators level first).1) :
    Climbs level c (operators level first).1 := by
  intro opened hintact hdepth hclosed
  rcases hintact.advance with ⟨hadvance, hahead⟩ | ⟨t, later, herror, hahead, hreported⟩
  · rw [hahead (kind_ne_eof_of_operandForm? h)]
    have hwhole := (hoperand opened hadvance hdepth h).andThen (reaches_operators level first)
      fun _ _ hintact' hdepth' => hloop opened hintact' hdepth' hclosed
    refine hwhole.mono ?_
    rintro _ ⟨taken, _, ⟨depth, hphrase⟩, ⟨htail, hstops⟩, rfl⟩
    exact ⟨htail.append (.single hphrase), hstops⟩
  · have hreaches : c.advance.Reaches first := hfirst ▸ reaches_operand _ _ _
    rw [hahead]
    exact .failed (Reaches.reported (hreaches.trans (reaches_operators _ _)) hreported)
      (Reading.diagnosis?_error_behind rfl hintact.sound herror later)

/-! ## All four functions -/

theorem rules_reading : Rules (α := α) Climbs Loops Operands Nests where
  no_operand h := climbs_no_operand h
  operand h hfirst hoperand hloop := climbs_operand h hfirst hoperand hloop
  number := operands_number _ _
  grouping _ hinner := operands_grouping hinner
  negation _ hinner := operands_negation hinner
  nesting hroom _ hinner := nests_nesting hroom hinner
  too_deep hfull := nests_too_deep hfull
  no_operator h := loops_stop fun op hop => by rw [h] at hop; cases hop
  looser h hloose := loops_stop fun op hop => by
    rw [h] at hop
    cases hop
    exact hloose
  operator h htight hright hjoined hclimb hloop :=
    loops_operator h htight hright hjoined hclimb hloop

theorem climbs_climb (level : Precedence) (c : Compilation α) : Climbs level c (climb level c).1 :=
  rules_reading.all.1 level c

end LoxBytecode.Compilation

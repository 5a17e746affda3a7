import LoxBytecode.Proofs.Compilation.Cleared
import LoxBytecode.Proofs.Compilation.Postorder
import LoxBytecode.Proofs.Grammar.Unambiguous
import LoxBytecode.Proofs.Grammar.Written

/-!
# What climbing takes

From wherever it begins, climbing at a level takes the longest chain of that level off the tokens
ahead, and puts the code of the tree of that chain behind the code so far.  The left operand of an
operator is told by its code only, so the loop over the operators carries along which tokens that
code stands for (`Took`), and that an operator that it goes on with may have them at its left.

That the chain is the longest one follows from where climbing stops: no operator of the level is
ahead, and with none of them a chain cannot go on.
-/

namespace LoxBytecode

/-! ## Levels and strata -/

/-- The stratum of the chains that climbing at a level takes. -/
def Precedence.stratum : Precedence → Stratum
  | none | assignment | or | and | equality | comparison | term => .expression
  | factor => .term
  | unary | call | primary => .factor

namespace Precedence

theorem level_stratum_le_unary (level : Precedence) :
    level.stratum.level.rank ≤ Precedence.unary.rank := by
  cases level <;> decide

theorem le_level_stratum {level : Precedence} (h : level.rank ≤ Precedence.unary.rank) :
    level.rank ≤ level.stratum.level.rank := by
  revert h
  cases level <;> decide

/-- An operator that climbing goes on with joins chains of its stratum. -/
theorem level_stratum_le {level : Precedence} {op : Operator}
    (h : level.rank ≤ op.precedence.rank) :
    level.stratum.level.rank ≤ op.stratum.level.rank := by
  revert h
  cases op <;> cases level <;> decide

theorem stratum_next (op : Operator) : op.precedence.next.stratum = op.stratum.below := by
  cases op <;> rfl

/-- What is not as tight as the level behind an operator is not tighter than the operator. -/
theorem le_of_not_next_le {op op' : Operator}
    (h : ¬op.precedence.next.rank ≤ op'.precedence.rank) :
    op'.stratum.level.rank ≤ op.stratum.level.rank := by
  revert h
  cases op <;> cases op' <;> decide

end Precedence

theorem Token.Kind.eq_of_operator? {kind : Token.Kind} {op : Operator}
    (h : kind.operator? = some op) : kind = op.content.kind := by
  cases kind <;> cases h <;> rfl

theorem Parse.ne_nil {stratum : Stratum} {body : List Token} {e : Expr}
    (h : Parse stratum body e) : body ≠ [] := by
  induction h with
  | ofFactor _ ih | ofTerm _ ih => exact ih
  | _ => simp

/-- The longest chain of a level that a list of tokens begins with. -/
structure IsLongestChain (level : Precedence) (tokens taken : List Token) : Prop where
  begins : taken <+: tokens
  chain : ∃ depth, Phrase (.chain level) taken depth
  longest {other : List Token} {depth : Nat} :
    other <+: tokens → Phrase (.chain level) other depth → other.length ≤ taken.length

/-! ## What is ahead -/

namespace Window

/-- Behind a move there is no error in view. -/
theorem coherent_past {body : List Token} (hbody : body ≠ []) (w : Window) :
    (w.past body).Coherent := by
  obtain ⟨init, t, rfl⟩ := (List.eq_nil_or_concat body).resolve_left hbody
  rw [List.concat_eq_append, past_append]
  exact (w.past init).coherent_advance

end Window

namespace Compilation

variable {α : Type}

/-- The tokens ahead that are no errors. -/
def remaining (c : Compilation α) : List Token := c.window.remaining

theorem remaining_advance {c : Compilation α} (hmore : c.current.kind ≠ .eof)
    (hsound : c.current.kind ≠ .error) : c.remaining = c.current :: c.advance.remaining :=
  Window.remaining_advance hmore hsound

theorem exists_remaining {c : Compilation α} (hsound : c.current.kind ≠ .error) :
    ∃ later, c.remaining = c.current :: later := Window.exists_remaining hsound

theorem remaining_of_cleared {c c' : Compilation α} (h : c'.cleared = c.cleared) :
    c'.remaining = c.remaining := by
  have hremaining : c'.cleared.remaining = c.cleared.remaining := congrArg remaining h
  exact hremaining

/-- Where climbing stops, what is ahead binds less tightly than its level, whatever it is. -/
theorem Stops.precedence_lt {level : Precedence} {d : Compilation α} (h : d.Stops level)
    (hlevel : Precedence.assignment.rank ≤ level.rank) :
    d.current.kind.precedence.rank < level.rank := by
  cases hop : d.current.kind.operator? with
  | none =>
      rw [Token.Kind.precedence, hop]
      exact hlevel
  | some op =>
      rw [Token.Kind.precedence_of_operator? hop]
      exact Nat.not_le.mp (h op hop)

/-! ## Tokens and their code -/

variable [Number α]

/-- From one state to another, the tokens of a tree have been taken, its code has been emitted, and
one byte is enough for each index in it. -/
structure Took (stratum : Stratum) (c d : Compilation α) (taken : List Token) (e : Expr) :
    Prop where
  parse : Parse stratum taken e
  remaining : c.remaining = taken ++ d.remaining
  eq_passed : d = c.passed taken e
  room : d.chunk.constants.size ≤ Chunk.maxConstants

namespace Took

variable {stratum wider : Stratum} {base c d right joined : Compilation α}
  {taken earlier last : List Token} {op : Operator} {e left e' : Expr}

theorem widen (h : Took stratum c d taken e) (hle : wider.level.rank ≤ stratum.level.rank) :
    Took wider c d taken e :=
  { h with parse := h.parse.widen hle }

/-- The operand that a token begins, with that token. -/
theorem operand {t : Token} (ht : c.current = t) (hmore : t.kind ≠ .eof) (hsound : t.kind ≠ .error)
    (hparse : Parse .factor (t :: taken) e)
    (hremaining : c.advance.remaining = taken ++ d.remaining)
    (hpassed : d = c.advance.passed taken e) (hroom : d.chunk.constants.size ≤ Chunk.maxConstants) :
    Took .factor c d (t :: taken) e := by
  subst ht
  refine ⟨hparse, ?_, hpassed, hroom⟩
  calc c.remaining
      = c.current :: c.advance.remaining := remaining_advance hmore hsound
    _ = c.current :: (taken ++ d.remaining) := by rw [hremaining]

/-- An operator between what has been taken and its right operand. -/
theorem join {mark : Token} (hmark : c.current = mark) (hop : mark.kind.operator? = some op)
    (hleft : Took op.stratum base c earlier left)
    (hright : Took op.stratum.below c.advance right last e')
    (hjoined : joined = right.emit (.operator op) mark.line) :
    Took op.stratum base joined (earlier ++ mark :: last) (.binary op mark left e') := by
  have hkind : mark.kind = op.content.kind := Token.Kind.eq_of_operator? hop
  have hahead : c.remaining = mark :: c.advance.remaining := by
    rw [← hmark]
    refine remaining_advance ?_ ?_ <;> rw [hmark, hkind] <;> cases op <;> decide
  have hlast : c.advance.remaining = last ++ joined.remaining := by
    rw [hright.remaining, hjoined]
    rfl
  refine ⟨hleft.parse.join hkind hright.parse, ?_, ?_, ?_⟩
  · calc base.remaining
        = earlier ++ c.remaining := hleft.remaining
      _ = earlier ++ mark :: (last ++ joined.remaining) := by rw [hahead, hlast]
      _ = (earlier ++ mark :: last) ++ joined.remaining := by simp
  · calc joined
        = (c.advance.passed last e').emit (.operator op) mark.line := by
          rw [hjoined, hright.eq_passed]
      _ = ((base.passed earlier left).advance.passed last e').emit (.operator op) mark.line := by
          rw [hleft.eq_passed]
      _ = base.passed (earlier ++ mark :: last) (.binary op mark left e') := by
          simp [passed, emit, advance, Chunk.write_eq_extend, Expr.postorder, Expr.numbers,
            Expr.literals]
  · rw [hjoined]
    exact hright.room

end Took

/-! ## What the four functions take -/

/-- Climbing takes the tokens of a tree, and stops in front of what is looser. -/
def ClimbTakes (level : Precedence) (c d : Compilation α) : Prop :=
  d.window.hasFailed = false →
    ∃ taken e, Took level.stratum c d taken e ∧ d.Stops level

/-- The loop goes on with what has been taken since some state, if that may stand at the left of
the operator that comes next. -/
def LoopTakes (level : Precedence) (c d : Compilation α) : Prop :=
  d.window.hasFailed = false → ∀ base earlier left, Took level.stratum base c earlier left →
    (∀ op, c.current.kind.operator? = some op → level.rank ≤ op.precedence.rank →
      Took op.stratum base c earlier left) →
    ∃ taken e, Took level.stratum base d taken e ∧ d.Stops level

/-- An operand takes what is behind its first token. -/
def OperandTakes (form : OperandForm) (t : Token) (c d : Compilation α) : Prop :=
  d.window.hasFailed = false → t.kind = form.kind →
    ∃ taken e, Parse .factor (t :: taken) e ∧ c.remaining = taken ++ d.remaining ∧
      d = c.passed taken e ∧ d.chunk.constants.size ≤ Chunk.maxConstants

theorem operandTakes_number (t : Token) (c : Compilation α) :
    OperandTakes .number t c (c.emitNumber t) := by
  intro hfine hkind
  have hemitted := emitNumber_eq hfine
  have hroom : c.chunk.constants.size < Chunk.maxConstants := by
    by_contra hfull
    rw [emitNumber, if_neg hfull] at hfine
    simp [emitLoad, reportAt] at hfine
  refine ⟨[], .literal t, .number hkind, ?_, hemitted, ?_⟩
  · rw [hemitted]
    rfl
  · rw [hemitted, Chunk.size_constants_extend]
    exact hroom

theorem operandTakes_grouping {t : Token} {c inner : Compilation α}
    (hinner : ClimbTakes .assignment c inner) :
    OperandTakes .grouping t c (inner.expect .rightParen "Expect ')' after expression.") := by
  intro hfine hkind
  obtain ⟨body, e, htook, -⟩ := hinner ((reaches_expect _ _ _).unfailed hfine)
  have hclosing : inner.current.kind = .rightParen := by
    by_contra hne
    rw [expect_of_ne hne] at hfine
    simp [reportAt] at hfine
  rw [expect_of_kind hclosing]
  refine ⟨body ++ [inner.current], e, .grouping hkind hclosing htook.parse, ?_, ?_, htook.room⟩
  · calc c.remaining
        = body ++ inner.remaining := htook.remaining
      _ = body ++ (inner.current :: inner.advance.remaining) := by
          rw [remaining_advance] <;> rw [hclosing] <;> decide
      _ = (body ++ [inner.current]) ++ inner.advance.remaining := by simp
  · conv_lhs => rw [htook.eq_passed]
    simp [passed, advance]

theorem operandTakes_negation {t : Token} {c inner : Compilation α}
    (hinner : ClimbTakes .unary c inner) :
    OperandTakes .negation t c (inner.emit .negate t.line) := by
  intro hfine hkind
  obtain ⟨body, e, htook, -⟩ := hinner hfine
  refine ⟨body, .negation t e, .negation hkind htook.parse, htook.remaining, ?_, htook.room⟩
  conv_lhs => rw [htook.eq_passed]
  simp [passed, emit, Chunk.write_eq_extend, Expr.postorder, Expr.numbers, Expr.literals]

theorem climbTakes_operand {level : Precedence} {c first : Compilation α} {form : OperandForm}
    (h : c.current.kind.operandForm? = some form)
    (hoperand : OperandTakes form c.current c.advance first)
    (hloop : LoopTakes level first (operators level first).1) :
    ClimbTakes level c (operators level first).1 := by
  intro hfine
  have hfirst := (reaches_operators _ _).unfailed hfine
  have hkind : c.current.kind = form.kind := Token.Kind.eq_of_operandForm? h
  obtain ⟨taken, e, hparse, hremaining, hpassed, hroom⟩ := hoperand hfirst hkind
  have hsound : c.current.kind ≠ .error := by
    rw [hkind]
    cases form <;> decide
  have htook : Took .factor c first (c.current :: taken) e :=
    .operand rfl (kind_ne_eof_of_operandForm? h) hsound hparse hremaining hpassed hroom
  refine hloop hfine c (c.current :: taken) e (htook.widen level.level_stratum_le_unary) ?_
  intro op _ _
  exact htook.widen (by rw [op.level_stratum]; exact Nat.le_of_lt op.precedence_lt_unary)

theorem loopTakes_operator {level : Precedence} {c right joined : Compilation α} {op : Operator}
    (h : c.current.kind.operator? = some op) (htight : level.rank ≤ op.precedence.rank)
    (hjoined : joined = right.emit (.operator op) c.current.line)
    (hclimb : ClimbTakes op.precedence.next c.advance right)
    (hloop : LoopTakes level joined (operators level joined).1) :
    LoopTakes level c (operators level joined).1 := by
  intro hfine base earlier left _ hready
  have hright : right.window.hasFailed = false := by
    have hmore := (reaches_operators level joined).unfailed hfine
    rwa [hjoined] at hmore
  obtain ⟨last, e', hlast, hstops⟩ := hclimb hright
  rw [Precedence.stratum_next] at hlast
  have htook := (hready op h htight).join rfl h hlast hjoined
  refine hloop hfine base _ _ (htook.widen (Precedence.level_stratum_le htight)) ?_
  -- the right operand has left nothing that binds tighter than the operator
  intro op' hop' _
  rw [hjoined] at hop'
  exact htook.widen (Precedence.le_of_not_next_le (hstops op' hop'))

theorem loopTakes_stop {level : Precedence} {c : Compilation α} (h : c.Stops level) :
    LoopTakes level c c := by
  intro _ base earlier left htook _
  exact ⟨earlier, left, htook, h⟩

theorem rules_takes :
    Rules (α := α) ClimbTakes LoopTakes OperandTakes (fun level _ => ClimbTakes level) where
  no_operand _ hfine := by simp [reportAt] at hfine
  operand h _ hoperand hloop := climbTakes_operand h hoperand hloop
  number := operandTakes_number _ _
  grouping _ hinner := operandTakes_grouping hinner
  negation _ hinner := operandTakes_negation hinner
  nesting {level t c inner} _ _ hinner := by
    intro hfine
    obtain ⟨taken, e, htook, hstops⟩ := hinner hfine
    refine ⟨taken, e, ⟨htook.parse, htook.remaining, ?_, htook.room⟩, hstops⟩
    conv_lhs => rw [htook.eq_passed]
    rfl
  too_deep _ hfine := by simp [reportAt] at hfine
  no_operator h := loopTakes_stop fun op hop => by rw [h] at hop; cases hop
  looser h hlooser := loopTakes_stop fun op hop => by
    rw [h] at hop
    cases hop
    exact hlooser
  operator h htight _ hjoined hclimb hloop := loopTakes_operator h htight hjoined hclimb hloop

/-! ## The contract -/

theorem Faultless.sound {level : Precedence} {c : Compilation α} (h : Faultless level c) :
    c.current.kind ≠ .error := by
  intro herror
  have hnone : c.cleared.current.kind.operandForm? = none := by
    show c.current.kind.operandForm? = none
    rw [herror]
    rfl
  rw [Faultless, climb_of_no_operand hnone] at h
  simp [reportAt] at h

theorem Took.isLongestChain {level : Precedence} {c d : Compilation α} {taken : List Token}
    {e : Expr} (h : Took level.stratum c d taken e)
    (hnext : d.current.kind.precedence.rank < level.rank)
    (hhigh : level.rank ≤ Precedence.unary.rank) : IsLongestChain level c.remaining taken := by
  obtain ⟨depth, hchain⟩ := h.parse.exists_chain
  have hlevel : Phrase (.chain level) taken depth :=
    hchain.mono (Precedence.le_level_stratum hhigh)
  have hsound : d.current.kind ≠ .error := by
    rw [h.eq_passed]
    exact (Window.coherent_past h.parse.ne_nil c.window).sound
  obtain ⟨later, hlater⟩ := exists_remaining hsound
  have hsplit : c.remaining = taken ++ d.current :: later := by rw [h.remaining, hlater]
  refine ⟨⟨_, h.remaining.symm⟩, ⟨depth, hlevel⟩, ?_⟩
  rintro other n ⟨behind, hother⟩ hchain'
  exact hlevel.length_le_of_stop hchain' (hsplit.symm.trans hother.symm) hnext

/-- **The contract of climbing.**  Climbing at a level between assignments and negations that finds
no fault takes the longest chain of that level off the tokens ahead, from the current one on, and
what is ahead then binds less tightly.  The depth is as before.  The code of the one tree that the
chain has stands behind what has been emitted before, with the indices of its constants from the
first free one on, for which one byte is enough. -/
theorem climb_contract {level : Precedence} {c : Compilation α}
    (hlow : Precedence.assignment.rank ≤ level.rank)
    (hhigh : level.rank ≤ Precedence.unary.rank) (h : Faultless level c) :
    let d := (climb level c).1
    ∃ taken e, IsLongestChain level c.remaining taken ∧
      taken.head? = some c.current ∧
      c.remaining = taken ++ d.remaining ∧
      d.current.kind.precedence.rank < level.rank ∧
      d.depth = c.depth ∧
      (∀ e', Parse level.stratum taken e' ↔ e' = e) ∧
      d.chunk = c.chunk.extend (e.postorder c.chunk.constants.size) e.numbers ∧
      d.chunk.constants.size ≤ 256 := by
  intro d
  have hcleared : d.cleared = (climb level c.cleared).1.cleared := cleared_climb level c
  obtain ⟨taken, e, htook, hstops⟩ := rules_takes.all.1 level c.cleared h
  have hnext := hstops.precedence_lt hlow
  have hcurrent : d.current = (climb level c.cleared).1.current := current_of_cleared hcleared
  have hremaining : d.remaining = (climb level c.cleared).1.remaining :=
    remaining_of_cleared hcleared
  have hchunk : d.chunk = (climb level c.cleared).1.chunk := chunk_of_cleared hcleared
  refine ⟨taken, e, htook.isLongestChain hnext hhigh, ?_, ?_, ?_, ?_, ?_, ?_, ?_⟩
  · obtain ⟨later, hlater⟩ := exists_remaining h.sound
    obtain ⟨t, rest, rfl⟩ := List.exists_cons_of_ne_nil htook.parse.ne_nil
    have hfirst : c.current :: later = t :: rest ++ (climb level c.cleared).1.remaining :=
      hlater.symm.trans htook.remaining
    rw [List.head?_cons, (List.cons.inj hfirst).1]
  · rw [hremaining]
    exact htook.remaining
  · rw [hcurrent]
    exact hnext
  · rw [depth_of_cleared hcleared, htook.eq_passed]
    rfl
  · intro e'
    constructor
    · intro h'
      exact h'.unique htook.parse
    · rintro rfl
      exact htook.parse
  · rw [hchunk, htook.eq_passed]
    rfl
  · rw [hchunk]
    exact htook.room

/-- A product behind a text that no token begins with, with a chunk begun and two levels of nesting
left: what has been found before does not matter, and the sum behind the product stays. -/
theorem climb_contract_behind_fault :
    let c : Compilation Double := {
      window := (Window.ofSource "@ 1 + 2 * -(3 - 4)\n/ 5 + 6".toList).advance.advance
      chunk := ({} : Chunk Double).extend [(0, 1), (0, 1)] [Number.ofNumeral ['1']]
      depth := 126 }
    let d := (climb .factor c).1
    c.window.hasFailed = true ∧
      Precedence.assignment.rank ≤ Precedence.factor.rank ∧
      Precedence.factor.rank ≤ Precedence.unary.rank ∧
      Faultless .factor c ∧
      (∃ taken e, IsLongestChain .factor c.remaining taken ∧ Parse .term taken e ∧
        d.chunk = c.chunk.extend (e.postorder 1) e.numbers) ∧
      d.current.kind = .plus ∧ d.depth = 126 ∧
      d.chunk.annotated = [(0, 1), (0, 1), (0, 1), (1, 1), (0, 1), (2, 1), (0, 1), (3, 1), (2, 1),
        (5, 1), (3, 1), (0, 2), (4, 2), (4, 2)] := by
  intro c d
  have hlow : Precedence.assignment.rank ≤ Precedence.factor.rank := by decide
  have hhigh : Precedence.factor.rank ≤ Precedence.unary.rank := by decide
  have hfine : Faultless .factor c := by
    show (climb .factor c.cleared).1.window.hasFailed = false
    decide +kernel
  obtain ⟨taken, e, hlongest, -, -, -, hdepth, htree, hchunk, -⟩ := climb_contract hlow hhigh hfine
  refine ⟨by decide +kernel, hlow, hhigh, hfine, ⟨taken, e, hlongest, (htree e).mpr rfl, hchunk⟩,
    by decide +kernel, hdepth, by decide +kernel⟩

end Compilation

end LoxBytecode

import LoxBytecode.Double.Text
import LoxBytecode.Proofs.Compilation.Induction
import LoxBytecode.Proofs.Reading.Basic

/-!
# The calls of a compilation

The expression compiler says what a compilation comes to, and not what it goes through on the way.
Here it goes through single moments.  At each of them some calls are in progress, the innermost one
on top of a stack, and `Frame.next` says what this call does next.  Whatever calls wait below it, it
comes to the state that the expression compiler says (`leads_of_ends`).

A grouping and a negation take a level of nesting when they are let in, and give it back behind
their inner part.  So there are always as many levels as there are such calls in between
(`Balanced`), also when faults have been found: no report ends a call early.  The level is back
before the call has returned: what is left of it, a closing parenthesis or the operation, is done
without one.
-/

namespace LoxBytecode

/-! ## Calls -/

/-- How far the call of a grouping or of a negation has got. -/
inductive Stage where
  /-- It asks for a level of nesting. -/
  | asking
  /-- It has got a level, and its inner part is being compiled. -/
  | inside
  /-- It was not let in, and only its end is left to be done. -/
  | refused
  /-- It has given its level back, and only its end is left to be done. -/
  | givenBack
  deriving DecidableEq, Repr

/-- A frame is a call in progress, by what it does next. -/
inductive Frame where
  /-- A source text begins. -/
  | text
  /-- The end of the text is expected. -/
  | ending
  /-- The return is emitted. -/
  | returning
  | expression
  /-- An operand begins, with the operators behind it that bind at least as tightly as a level. -/
  | climb (level : Precedence)
  /-- A climb goes on with the operators behind an operand. -/
  | chain (level : Precedence)
  | number (t : Token)
  | nesting (opener : Opener) (t : Token) (stage : Stage)
  /-- The right operand of an operator begins. -/
  | right (op : Operator) (mark : Token)
  /-- An operator is emitted behind its operands. -/
  | operation (op : Operator) (mark : Token)
  deriving DecidableEq, Repr

namespace Opener

/-- The level at which the inner part is compiled. -/
def level : Opener → Precedence
  | grouping => .assignment
  | negation => .unary

/-- The call of the inner part. -/
def inner : Opener → Frame
  | grouping => .expression
  | negation => .climb .unary

/-- What is left to be done when the level of nesting has been given back or refused. -/
def close {α : Type} (opener : Opener) (t : Token) (c : Compilation α) : Compilation α :=
  match opener with
  | grouping => c.expect .rightParen "Expect ')' after expression."
  | negation => c.emit .negate t.line

end Opener

namespace Frame

variable {α : Type}

/-- The call that compiles an operand of a form. -/
def ofForm : OperandForm → Token → Frame
  | .number, t => number t
  | .grouping, t => nesting .grouping t .asking
  | .negation, t => nesting .negation t .asking

/-- The calls of groupings and negations. -/
def isNesting : Frame → Bool
  | nesting .. => true
  | _ => false

/-- The calls that have got a level of nesting and have not given it back. -/
def holdsLevel : Frame → Bool
  | nesting _ _ .inside => true
  | _ => false

/-- The calls that have got a level of nesting and have given it back. -/
def hasGivenBack : Frame → Bool
  | nesting _ _ .givenBack => true
  | _ => false

/-- The groupings and negations that have been let in. -/
def wasLetIn (call : Frame) : Bool := call.holdsLevel || call.hasGivenBack

/-- The calls that need no level of nesting, or have got theirs. -/
def settled (call : Frame) : Bool := !call.isNesting || call.holdsLevel

variable [Number α]

/-- What a call does next: the calls that take its place, the innermost first, and the state that
they find.  A call that leaves no call in its place has returned. -/
def next (call : Frame) (c : Compilation α) : List Frame × Compilation α :=
  match call with
  | text => ([expression, ending], c)
  | ending => ([returning], c.expect .eof "Expect end of expression.")
  | returning => ([], c.emit .ret (c.window.previous.elim 0 fun t => (t.line : Int)))
  | expression => ([climb .assignment], c)
  | climb level =>
    match c.current.kind.operandForm? with
    | none => ([], c.advance.reportAt c.current "Expect expression.")
    | some form => ([ofForm form c.current, chain level], c.advance)
  | chain level =>
    match c.current.kind.operator? with
    | none => ([], c)
    | some op =>
      if level.rank ≤ op.precedence.rank then ([right op c.current, chain level], c.advance)
      else ([], c)
  | number t => ([], c.emitNumber t)
  | nesting opener t .asking =>
    if c.depth < maxNesting then ([opener.inner, nesting opener t .inside], c.enter)
    else ([nesting opener t .refused], c.reportAt t "Expression nested too deeply.")
  | nesting opener t .inside => ([nesting opener t .givenBack], c.leave)
  | nesting opener t .refused | nesting opener t .givenBack => ([], opener.close t c)
  | right op mark => ([climb op.precedence.next, operation op mark], c)
  | operation op mark => ([], c.emit (.operator op) mark.line)

/-- What a call comes to when it begins in a state. -/
inductive Ends : Frame → Compilation α → Compilation α → Prop
  | text (c : Compilation α) : Ends text c c.complete
  | expression (c : Compilation α) : Ends expression c c.expression
  | climb (level : Precedence) (c : Compilation α) :
      Ends (climb level) c (Compilation.climb level c).1
  | operand (form : OperandForm) (t : Token) (c : Compilation α) :
      Ends (ofForm form t) c (Compilation.operand form t c).1
  | binary (op : Operator) (mark : Token) (c : Compilation α) :
      Ends (right op mark) c
        ((Compilation.climb op.precedence.next c).1.emit (.operator op) mark.line)

end Frame

/-! ## Moments -/

/-- The calls in progress, the innermost first, and the state of the compilation. -/
structure Moment (α : Type) where
  calls : List Frame
  state : Compilation α

namespace Moment

variable {α : Type} [Number α]

def next? (m : Moment α) : Option (Moment α) :=
  match m.calls with
  | [] => none
  | call :: waiting => some ⟨(call.next m.state).1 ++ waiting, (call.next m.state).2⟩

/-- A moment comes after another one. -/
abbrev Leads : Moment α → Moment α → Prop := Relation.ReflTransGen fun m n => m.next? = some n

/-! ## What calls come to -/

section Leads

variable {c d e : Compilation α} {call : Frame} {calls waiting : List Frame}

theorem Leads.head {n : Moment α} (h : call.next c = (calls, d))
    (hrest : Leads ⟨calls ++ waiting, d⟩ n) : Leads ⟨call :: waiting, c⟩ n := by
  refine Relation.ReflTransGen.head ?_ hrest
  show some _ = some _
  rw [h]

theorem leads_of_returns (h : call.next c = ([], d)) (waiting : List Frame) :
    Leads ⟨call :: waiting, c⟩ ⟨waiting, d⟩ := .head h .refl

/-- The inner part of a grouping is an expression, and the inner part of a negation is a climb. -/
theorem leads_inner {opener : Opener}
    (h : ∀ waiting, Leads ⟨.climb opener.level :: waiting, c⟩ ⟨waiting, d⟩)
    (waiting : List Frame) : Leads ⟨opener.inner :: waiting, c⟩ ⟨waiting, d⟩ := by
  cases opener with
  | grouping => exact .head rfl (h waiting)
  | negation => exact h waiting

theorem leads_givenBack {opener : Opener} {t : Token} (hdepth : c.depth < maxNesting)
    (h : ∀ waiting, Leads ⟨.climb opener.level :: waiting, c.enter⟩ ⟨waiting, d⟩)
    (waiting : List Frame) :
    Leads ⟨.nesting opener t .asking :: waiting, c⟩
      ⟨.nesting opener t .givenBack :: waiting, d.leave⟩ := by
  have hentered : Frame.next (.nesting opener t .asking) c =
      ([opener.inner, .nesting opener t .inside], c.enter) := if_pos hdepth
  have hleft : Leads ⟨.nesting opener t .inside :: waiting, d⟩
      ⟨.nesting opener t .givenBack :: waiting, d.leave⟩ := .head rfl .refl
  exact .head hentered ((leads_inner h _).trans hleft)

theorem rules_leads :
    Compilation.Rules (α := α)
      (fun level c d => ∀ waiting, Leads ⟨.climb level :: waiting, c⟩ ⟨waiting, d⟩)
      (fun level c d => ∀ waiting, Leads ⟨.chain level :: waiting, c⟩ ⟨waiting, d⟩)
      (fun form t c d => ∀ waiting, Leads ⟨.ofForm form t :: waiting, c⟩ ⟨waiting, d⟩)
      (fun level t c d => ∀ opener : Opener, opener.level = level → ∀ waiting,
        Leads ⟨.nesting opener t .asking :: waiting, c⟩ ⟨waiting, opener.close t d⟩) where
  no_operand h waiting := leads_of_returns (by simp only [Frame.next, h]) waiting
  operand {level c _ form} h _ hoperand hloop waiting := by
    have hnext : Frame.next (.climb level) c =
        ([.ofForm form c.current, .chain level], c.advance) := by
      simp only [Frame.next, h]
    exact .head hnext ((hoperand _).trans (hloop waiting))
  number waiting := leads_of_returns rfl waiting
  grouping _ hinner := hinner .grouping rfl
  negation _ hinner := hinner .negation rfl
  nesting hdepth _ hclimb opener hlevel waiting :=
    (leads_givenBack hdepth (hlevel ▸ hclimb) waiting).trans (leads_of_returns rfl waiting)
  too_deep {_ t c} hdepth opener _ waiting := by
    have hnext : Frame.next (.nesting opener t .asking) c =
        ([.nesting opener t .refused], c.reportAt t "Expression nested too deeply.") :=
      if_neg hdepth
    exact .head hnext (leads_of_returns rfl waiting)
  no_operator h waiting := leads_of_returns (by simp only [Frame.next, h]) waiting
  looser h hlooser waiting :=
    leads_of_returns (by simp only [Frame.next, h, if_neg hlooser]) waiting
  operator {level c right _ op} h htight _ hjoined hclimb hloop waiting := by
    subst hjoined
    have hnext : Frame.next (.chain level) c =
        ([.right op c.current, .chain level], c.advance) := by
      simp only [Frame.next, h, if_pos htight]
    have hjoin : Leads ⟨.right op c.current :: .chain level :: waiting, c.advance⟩
        ⟨.chain level :: waiting, right.emit (.operator op) c.current.line⟩ :=
      .head rfl ((hclimb _).trans (leads_of_returns rfl _))
    exact .head hnext (hjoin.trans (hloop waiting))

/-- Every call that begins returns, and it comes to what the expression compiler says. -/
theorem leads_of_ends (h : call.Ends c d) (waiting : List Frame) :
    Leads ⟨call :: waiting, c⟩ ⟨waiting, d⟩ := by
  have hexpression (c : Compilation α) (waiting : List Frame) :
      Leads ⟨.expression :: waiting, c⟩ ⟨waiting, c.expression⟩ :=
    .head rfl (rules_leads.all.1 .assignment c waiting)
  cases h with
  | text => exact .head rfl ((hexpression c _).trans (.head rfl (.head rfl .refl)))
  | expression => exact hexpression c waiting
  | climb level => exact rules_leads.all.1 level c waiting
  | operand form t => exact rules_leads.all.2.2.1 form t c waiting
  | binary op mark =>
      exact .head rfl ((rules_leads.all.1 op.precedence.next c _).trans (leads_of_returns rfl _))

end Leads

end Moment

/-! ## Levels of nesting -/

namespace Compilation

variable {α : Type}

theorem depth_emitNumber [Number α] (c : Compilation α) (t : Token) :
    (c.emitNumber t).depth = c.depth := by
  unfold emitNumber
  split <;> rfl

end Compilation

namespace Frame

variable {α : Type} [Number α]

theorem holdsLevel_ofForm (form : OperandForm) (t : Token) :
    (ofForm form t).holdsLevel = false := by
  cases form <;> rfl

/-- Calls that begin have no level yet. -/
theorem Ends.holdsLevel {call : Frame} {c d : Compilation α} (h : call.Ends c d) :
    call.holdsLevel = false := by
  cases h with
  | operand form t => exact holdsLevel_ofForm form t
  | _ => rfl

/-- A settled call has been let in just when it holds its level. -/
theorem wasLetIn_iff_holdsLevel {call : Frame} (h : call.settled) :
    call.wasLetIn ↔ call.holdsLevel := by
  cases call with
  | nesting opener t stage => cases stage <;> simp_all [settled, wasLetIn, isNesting, holdsLevel]
  | _ => rfl

/-- Where only the innermost call may be unsettled, it alone may be let in without a level. -/
theorem countP_wasLetIn {calls : List Frame} (h : calls.tail.all settled) :
    calls.countP wasLetIn =
      calls.countP holdsLevel + if calls.head?.any hasGivenBack then 1 else 0 := by
  cases calls with
  | nil => rfl
  | cons call waiting =>
      have hwaiting : waiting.countP wasLetIn = waiting.countP holdsLevel :=
        List.countP_congr fun f hf => wasLetIn_iff_holdsLevel (List.all_eq_true.mp h f hf)
      have hcall : (if call.wasLetIn then 1 else 0) =
          (if call.holdsLevel then 1 else 0) + if call.hasGivenBack then 1 else 0 := by
        cases call with
        | nesting opener t stage => cases stage <;> rfl
        | _ => rfl
      rw [List.countP_cons, List.countP_cons, hwaiting, hcall, Nat.add_assoc]
      rfl

theorem settled_tail_append {calls waiting : List Frame} (hcalls : calls.tail.all settled)
    (hwaiting : waiting.all settled) : (calls ++ waiting).tail.all settled := by
  cases calls with
  | nil =>
      rw [List.nil_append, List.all_eq_true]
      exact fun f hf => List.all_eq_true.mp hwaiting f (List.mem_of_mem_tail hf)
  | cons first later =>
      rw [List.tail_cons] at hcalls
      rw [List.cons_append, List.tail_cons, List.all_append, hcalls, hwaiting]
      rfl

/-- **Step.**  A call lets a grouping or negation in, it gives the level of one back, or it leaves
all levels where they are; then it holds none, and what comes in its place holds none. -/
theorem next_cases (call : Frame) (c : Compilation α) :
    (call.holdsLevel = false ∧ (call.next c).1.countP holdsLevel = 0 ∧
        (call.next c).1.tail.all settled ∧ (call.next c).2.depth = c.depth) ∨
      (∃ opener t, call = nesting opener t .asking ∧ c.depth < maxNesting ∧
        call.next c = ([opener.inner, nesting opener t .inside], c.enter)) ∨
      ∃ opener t, call = nesting opener t .inside ∧
        call.next c = ([nesting opener t .givenBack], c.leave) := by
  cases call with
  | text | ending | returning | expression | right | operation => exact .inl ⟨rfl, rfl, rfl, rfl⟩
  | number t => exact .inl ⟨rfl, rfl, rfl, c.depth_emitNumber t⟩
  | climb level =>
      left
      unfold next
      dsimp only
      split
      case h_1 => exact ⟨rfl, rfl, rfl, rfl⟩
      case h_2 form _ => cases form <;> exact ⟨rfl, rfl, rfl, rfl⟩
  | chain level =>
      left
      unfold next
      dsimp only
      split
      · exact ⟨rfl, rfl, rfl, rfl⟩
      · split <;> exact ⟨rfl, rfl, rfl, rfl⟩
  | nesting opener t stage =>
      cases stage with
      | asking =>
          by_cases hroom : c.depth < maxNesting
          · exact .inr (.inl ⟨opener, t, rfl, hroom, if_pos hroom⟩)
          · -- a refusal takes no level, so that there is none to be given back
            have hrefused : next (nesting opener t .asking) c =
                ([nesting opener t .refused], c.reportAt t "Expression nested too deeply.") :=
              if_neg hroom
            rw [hrefused]
            exact .inl ⟨rfl, rfl, rfl, rfl⟩
      | inside => exact .inr (.inr ⟨opener, t, rfl, rfl⟩)
      | refused | givenBack => cases opener <;> exact .inl ⟨rfl, rfl, rfl, rfl⟩

end Frame

namespace Moment

variable {α : Type}

/-- There are as many levels of nesting as there are calls that hold one, and not too many. -/
structure Balanced (m : Moment α) : Prop where
  depth_eq : m.state.depth = m.calls.countP Frame.holdsLevel
  depth_le : m.state.depth ≤ maxNesting
  /-- Of the groupings and negations, only the innermost call may be without a level. -/
  settled : m.calls.tail.all Frame.settled

theorem balanced_ofSource (source : List Char) :
    (⟨[.text], .ofSource source⟩ : Moment α).Balanced := ⟨rfl, Nat.zero_le _, rfl⟩

variable [Number α]

theorem Balanced.next {m n : Moment α} (h : m.Balanced) (hnext : m.next? = some n) :
    n.Balanced := by
  obtain ⟨calls, c⟩ := m
  cases calls with
  | nil => cases hnext
  | cons call waiting =>
      cases hnext
      have hdepth : c.depth = (call :: waiting).countP Frame.holdsLevel := h.depth_eq
      have hwaiting : waiting.all Frame.settled := h.settled
      have hbound : c.depth ≤ maxNesting := h.depth_le
      rcases call.next_cases c with ⟨hheld, hcount, hsettled, hsame⟩ |
        ⟨opener, t, rfl, hroom, hnext⟩ | ⟨opener, t, rfl, hnext⟩
      · rw [List.countP_cons_of_neg (by simp [hheld])] at hdepth
        refine ⟨?_, by simpa only [hsame] using hbound, ?_⟩
        · show (call.next c).2.depth = ((call.next c).1 ++ waiting).countP Frame.holdsLevel
          rw [List.countP_append, hcount, hsame, hdepth, Nat.zero_add]
        · exact Frame.settled_tail_append hsettled hwaiting
      · -- the call that is let in waits with its new level
        rw [hnext]
        have hinner : ¬opener.inner.holdsLevel = true := by cases opener <;> decide
        have hcount : ([opener.inner, .nesting opener t .inside] ++ waiting).countP
            Frame.holdsLevel = waiting.countP Frame.holdsLevel + 1 := by
          show (opener.inner :: .nesting opener t .inside :: waiting).countP _ = _
          rw [List.countP_cons_of_neg hinner, List.countP_cons_of_pos rfl]
        have hasked : c.depth = waiting.countP Frame.holdsLevel := hdepth
        exact ⟨(congrArg (· + 1) hasked).trans hcount.symm, hroom, hwaiting⟩
      · rw [hnext]
        have hgiven : c.depth = waiting.countP Frame.holdsLevel + 1 :=
          hdepth.trans (List.countP_cons_of_pos rfl)
        refine ⟨?_, Nat.le_trans (Nat.sub_le _ _) hbound, hwaiting⟩
        show c.depth - 1 = waiting.countP Frame.holdsLevel
        omega

/-- **Run.** -/
theorem Balanced.leads {m n : Moment α} (h : m.Balanced) (hleads : m.Leads n) : n.Balanced := by
  induction hleads with
  | refl => exact h
  | tail _ hnext ih => exact ih.next hnext

/-- **The levels of nesting are balanced.**  At every moment of the compilation of a source text,
whatever has been reported, there are as many levels as there are groupings and negations that have
been let in and have not given their level back, and no more than the bound; so whatever gives a
level back finds one.  Every grouping or negation in progress is such a call, but for the innermost
one while it asks for its level or has only its end left to do.  Of the calls that have been let in
there is therefore one more than there are levels while the innermost one has given its level back,
and otherwise there are as many.  A call that begins returns with as many levels as it has begun
with, and none is left in the end. -/
theorem nesting_balanced (source : List Char) :
    let start : Moment α := ⟨[.text], .ofSource source⟩
    (∀ m, start.Leads m →
        m.state.depth = m.calls.countP Frame.holdsLevel ∧ m.state.depth ≤ maxNesting ∧
          (∀ call ∈ m.calls.tail, call.isNesting → call.holdsLevel) ∧
          m.calls.countP Frame.wasLetIn =
            m.state.depth + if m.calls.head?.any Frame.hasGivenBack then 1 else 0) ∧
      (∀ call waiting c, start.Leads ⟨call :: waiting, c⟩ → call.holdsLevel → 0 < c.depth) ∧
      (∀ call waiting c, start.Leads ⟨call :: waiting, c⟩ → ∀ d, call.Ends c d →
        Leads ⟨call :: waiting, c⟩ ⟨waiting, d⟩ ∧ d.depth = c.depth) ∧
      start.Leads ⟨[], (Compilation.ofSource source).complete⟩ ∧
      (Compilation.ofSource source : Compilation α).complete.depth = 0 := by
  intro start
  have hbalanced : ∀ m, start.Leads m → m.Balanced := fun _ => (balanced_ofSource source).leads
  have hend : start.Leads ⟨[], (Compilation.ofSource source).complete⟩ :=
    leads_of_ends (.text _) []
  refine ⟨?_, ?_, ?_, hend, (hbalanced _ hend).depth_eq⟩
  · intro m hm
    have hm := hbalanced m hm
    refine ⟨hm.depth_eq, hm.depth_le, fun call hcall hnesting => ?_, ?_⟩
    · have hsettled := List.all_eq_true.mp hm.settled call hcall
      rwa [Frame.settled, hnesting, Bool.not_true, Bool.false_or] at hsettled
    · rw [hm.depth_eq]
      exact Frame.countP_wasLetIn hm.settled
  · intro call waiting c hc hholds
    have hdepth : c.depth = _ := (hbalanced _ hc).depth_eq
    rw [List.countP_cons_of_pos hholds] at hdepth
    omega
  · intro call waiting c hc d hends
    have hreturns := leads_of_ends hends waiting
    have hbegun : c.depth = _ := (hbalanced _ hc).depth_eq
    have hreturned : d.depth = _ := (hbalanced _ (hc.trans hreturns)).depth_eq
    have hnone : ¬call.holdsLevel = true := by simp [hends.holdsLevel]
    rw [List.countP_cons_of_neg hnone] at hbegun
    exact ⟨hreturns, hreturned.trans hbegun.symm⟩

/-- When the parenthesis of `(1)` is to be closed, its grouping has been let in and is in progress,
and no level is left. -/
theorem nesting_balanced_closing_parenthesis :
    let start : Moment Double := ⟨[.text], .ofSource "(1)".toList⟩
    (∃ t c, start.Leads ⟨[.nesting .grouping t .givenBack, .chain .assignment, .ending], c⟩ ∧
        c.depth = 0) ∧
      ¬∀ m, start.Leads m → m.state.depth = m.calls.countP Frame.wasLetIn := by
  intro start
  let c : Compilation Double := .ofSource "(1)".toList
  -- the opening parenthesis is passed
  have hform : c.current.kind.operandForm? = some .grouping := by decide +kernel
  have hasked : start.Leads
      ⟨[.nesting .grouping c.current .asking, .chain .assignment, .ending], c.advance⟩ := by
    have hnext : Frame.next (.climb .assignment) c =
        ([.ofForm .grouping c.current, .chain .assignment], c.advance) := by
      simp only [Frame.next, hform]
    exact .head rfl (.head rfl (.head hnext .refl))
  -- the grouping is let in, and its inner part is compiled
  have hinner (waiting : List Frame) :
      Leads ⟨.climb (Opener.level .grouping) :: waiting, c.advance.enter⟩
        ⟨waiting, (Compilation.climb .assignment c.advance.enter).1⟩ :=
    leads_of_ends (.climb .assignment c.advance.enter) waiting
  have hgiven : Leads
      ⟨[.nesting .grouping c.current .asking, .chain .assignment, .ending], c.advance⟩
      ⟨[.nesting .grouping c.current .givenBack, .chain .assignment, .ending],
        (Compilation.climb .assignment c.advance.enter).1.leave⟩ :=
    leads_givenBack (by decide) hinner _
  have hleads := hasked.trans hgiven
  have hnone := ((balanced_ofSource _).leads hleads).depth_eq
  refine ⟨⟨_, _, hleads, hnone⟩, fun hall => ?_⟩
  have hone := hall _ hleads
  rw [hnone] at hone
  exact absurd hone (by decide)

end Moment

end LoxBytecode

import LoxBytecode.Double.Text
import LoxBytecode.Proofs.Bytecode.Extend
import LoxBytecode.Proofs.Compilation.Acceptance
import LoxBytecode.Proofs.Grammar.Expr

/-!
# Compiled code is a postorder

The code of an expression is its tree in postorder, every byte with the line of the token
that it comes from.  The tree is never built, so the proof goes along the grammar: where
climbing meets the tokens of a tree, it ends up where those tokens are passed and just the
code of that tree has been emitted, or goes on with the operators from there.
-/

namespace LoxBytecode

namespace Compilation

variable {α : Type}

theorem awaits_ofSource {source : List Char} (h : Acceptable source) :
    (ofSource source : Compilation α).window.Awaits (tokens source) := by
  rcases ofSource_intact_or_reported (α := α) source with
    ⟨-, htokens⟩ | ⟨t, later, herror, htokens, -⟩
  · exact ⟨htokens.symm, h.no_error⟩
  · have hmem : t ∈ tokens source := by simp [htokens]
    cases h.no_error t hmem herror

variable [Number α]

/-! ## Emitting the code of a tree -/

/-- A compilation that has passed the tokens of an expression and emitted its code. -/
def passed (body : List Token) (e : Expr) (c : Compilation α) : Compilation α :=
  { c with
    window := c.window.past body
    chunk := c.chunk.extend (e.postorder c.chunk.constants.size) e.numbers }

/-- Wherever climbing meets the tokens of an expression, it emits the code of the
expression, unless an operator follows that binds tighter than `tightest`. -/
def Emits (α : Type) [Number α] (tightest : Precedence) (body : List Token) (e : Expr) : Prop :=
  ∀ {level : Precedence} {c : Compilation α} {later : List Token},
    level.rank ≤ tightest.rank → c.window.Awaits (body ++ later) →
    (∀ t ∈ later.head?, t.kind.precedence.rank ≤ tightest.rank) →
    (climb level c).1.window.hasFailed = false →
    (climb level c).1 = (operators level (c.passed body e)).1

section Emits

variable {tightest level : Precedence} {body later : List Token} {e : Expr} {c : Compilation α}

theorem Emits.mono {looser : Precedence} (h : Emits α tightest body e)
    (hlevel : looser.rank ≤ tightest.rank) : Emits α looser body e := by
  intro level c later hle hawaits hnext hfine
  refine h (Nat.le_trans hle hlevel) hawaits (fun t ht => ?_) hfine
  exact Nat.le_trans (hnext t ht) hlevel

/-- Where nothing follows that binds as tightly as the level in force, climbing ends
behind the expression. -/
theorem Emits.climb_eq (h : Emits α tightest body e) (hlevel : level.rank ≤ tightest.rank)
    (hawaits : c.window.Awaits (body ++ later)) (hmore : ∀ t ∈ body, t.kind ≠ .eof)
    (hnext : ∀ t ∈ later.head?, t.kind.precedence.rank < level.rank)
    (hfine : (climb level c).1.window.hasFailed = false) :
    (climb level c).1 = c.passed body e := by
  have hclimb := h hlevel hawaits (fun t ht => by have := hnext t ht; omega) hfine
  have hlooser : (c.passed body e).current.kind.precedence.rank < level.rank :=
    hnext _ (hawaits.past hmore).current_mem_head?
  rw [hclimb]
  cases hop : (c.passed body e).current.kind.operator? with
  | none => exact operators_of_none hop
  | some op =>
      rw [Token.Kind.precedence_of_operator? hop] at hlooser
      exact operators_of_looser hop (Nat.not_le.mpr hlooser)

theorem Emits.nested_eq {t : Token} (h : Emits α tightest body e)
    (hlevel : level.rank ≤ tightest.rank) (hawaits : c.window.Awaits (body ++ later))
    (hmore : ∀ t ∈ body, t.kind ≠ .eof)
    (hnext : ∀ t ∈ later.head?, t.kind.precedence.rank < level.rank)
    (hfine : (nested level t c).1.window.hasFailed = false) :
    (nested level t c).1 = c.passed body e := by
  by_cases hdepth : c.depth < maxNesting
  · rw [nested_of_lt hdepth] at hfine ⊢
    rw [h.climb_eq (c := c.enter) hlevel hawaits hmore hnext hfine]
    rfl
  · rw [nested_of_not_lt hdepth] at hfine
    simp [reportAt] at hfine

/-- A numeral is emitted with the next index that is free. -/
theorem emitNumber_eq {t : Token} (hfine : (c.emitNumber t).window.hasFailed = false) :
    c.emitNumber t = { c with
      chunk := c.chunk.extend ((Expr.literal t).postorder c.chunk.constants.size)
        (Expr.literal t).numbers } := by
  unfold emitNumber at hfine ⊢
  split
  · simp [emitLoad, Expr.postorder, Expr.numbers, Expr.literals, Chunk.write_eq_extend,
      Chunk.addConstant_eq_extend]
  · rename_i hfull
    rw [if_neg hfull] at hfine
    simp [emitLoad, reportAt] at hfine

theorem emits_number {t : Token} (hkind : t.kind = .number) :
    Emits α .unary [t] (.literal t) := by
  intro level c later _ hawaits _ hfine
  obtain rfl : c.current = t := hawaits.current
  have hform : c.current.kind.operandForm? = some .number := by rw [hkind]; rfl
  rw [climb_of_operand hform, operand_number] at hfine ⊢
  rw [emitNumber_eq ((reaches_operators _ _).unfailed hfine)]
  rfl

theorem emits_negation {sign : Token} (hkind : sign.kind = .minus)
    (hmore : ∀ t ∈ body, t.kind ≠ .eof) (h : Emits α .unary body e) :
    Emits α .unary (sign :: body) (.negation sign e) := by
  intro level c later _ hawaits _ hfine
  obtain rfl : c.current = sign := hawaits.current
  have hform : c.current.kind.operandForm? = some .negation := by rw [hkind]; rfl
  have hinside : c.advance.window.Awaits (body ++ later) :=
    hawaits.advance (by rw [hkind]; decide)
  rw [climb_of_operand hform, operand_negation] at hfine ⊢
  have hemitted := (reaches_operators _ _).unfailed hfine
  have hnested := h.nested_eq (Nat.le_refl _) hinside hmore
    (fun t _ => Phrase.precedence_lt_unary t.kind) hemitted
  have hpassed : (c.advance.passed body e).emit .negate c.current.line =
      c.passed (c.current :: body) (.negation c.current e) := by
    simp [passed, emit, advance, Chunk.write_eq_extend, Expr.postorder, Expr.numbers,
      Expr.literals]
  rw [hnested, hpassed]

theorem emits_grouping {opening closing : Token} (hopening : opening.kind = .leftParen)
    (hclosing : closing.kind = .rightParen) (hmore : ∀ t ∈ body, t.kind ≠ .eof)
    (h : Emits α .term body e) : Emits α .unary (opening :: (body ++ [closing])) e := by
  intro level c later _ hawaits _ hfine
  obtain rfl : c.current = opening := hawaits.current
  have hform : c.current.kind.operandForm? = some .grouping := by rw [hopening]; rfl
  have hinside : c.advance.window.Awaits (body ++ closing :: later) := by
    rw [List.cons_append, List.append_assoc] at hawaits
    exact hawaits.advance (by rw [hopening]; decide)
  rw [climb_of_operand hform, operand_grouping] at hfine ⊢
  have hexpected := (reaches_operators _ _).unfailed hfine
  have hnested := h.nested_eq (by decide) hinside hmore
    (by simp [hclosing]; decide) ((reaches_expect _ _ _).unfailed hexpected)
  have hcurrent : (c.advance.passed body e).current = closing := (hinside.past hmore).current
  have hpassed : (c.advance.passed body e).expect .rightParen "Expect ')' after expression." =
      c.passed (c.current :: (body ++ [closing])) e := by
    rw [expect_of_kind (hcurrent ▸ hclosing)]
    simp [passed, advance]
  rw [hnested, hpassed]

/-- Operands with an operator between them: the code of the operator comes last. -/
theorem emits_join {earlier last : List Token} {mark : Token} {op : Operator}
    {left right : Expr} (hop : mark.kind.operator? = some op)
    (hmore : ∀ t ∈ earlier, t.kind ≠ .eof) (hmore' : ∀ t ∈ last, t.kind ≠ .eof)
    (hleft : Emits α op.precedence earlier left)
    (hright : Emits α op.precedence.next last right) :
    Emits α op.precedence (earlier ++ mark :: last) (.binary op mark left right) := by
  intro level c later hlevel hawaits hnext hfine
  rw [List.append_assoc, List.cons_append] at hawaits
  have hprecedence : mark.kind.precedence = op.precedence :=
    Token.Kind.precedence_of_operator? hop
  have hfirst := hleft hlevel hawaits (by simp [hprecedence]) hfine
  -- behind the left operand the loop finds the operator
  have hawaits' : (c.passed earlier left).window.Awaits (mark :: (last ++ later)) :=
    hawaits.past hmore
  have hmark : (c.passed earlier left).current = mark := hawaits'.current
  have hloop := operators_of_tight (c := c.passed earlier left) (hmark ▸ hop) hlevel
  rw [hmark] at hloop
  rw [hfirst, hloop] at hfine ⊢
  have hoperands := (reaches_operators _ _).unfailed hfine
  have hsecond := hright.climb_eq (c := (c.passed earlier left).advance) (Nat.le_refl _)
    (hawaits'.advance (kind_ne_eof_of_operator? hop)) hmore'
    (fun t ht => Nat.lt_of_le_of_lt (hnext t ht) (by cases op <;> decide)) hoperands
  have hpassed : ((c.passed earlier left).advance.passed last right).emit (.operator op) mark.line =
      c.passed (earlier ++ mark :: last) (.binary op mark left right) := by
    simp [passed, emit, advance, Chunk.write_eq_extend, Expr.postorder, Expr.numbers,
      Expr.literals]
  rw [hsecond, hpassed]

end Emits

/-! ## The code of a source text -/

theorem emits_of_parse {stratum : Stratum} {body : List Token} {e : Expr}
    (h : Parse stratum body e) : Emits α stratum.level body e := by
  -- a stratum ends where its tightest chains do, so each right operand is all its level takes
  induction h with
  | number hkind => exact emits_number hkind
  | grouping hopening hclosing hbody ih =>
      exact emits_grouping hopening hclosing hbody.kind_ne_eof ih
  | negation hsign hbody ih => exact emits_negation hsign hbody.kind_ne_eof ih
  | ofFactor _ ih => exact ih.mono (by decide)
  | ofTerm _ ih => exact ih.mono (by decide)
  | product hleft hmark hright ihLeft ihRight =>
      simp only [productMarks, List.mem_cons, Prod.mk.injEq, List.not_mem_nil, or_false] at hmark
      rcases hmark with ⟨hkind, rfl⟩ | ⟨hkind, rfl⟩ <;>
        exact emits_join (by rw [hkind]; rfl) hleft.kind_ne_eof hright.kind_ne_eof ihLeft ihRight
  | sum hleft hmark hright ihLeft ihRight =>
      simp only [sumMarks, List.mem_cons, Prod.mk.injEq, List.not_mem_nil, or_false] at hmark
      rcases hmark with ⟨hkind, rfl⟩ | ⟨hkind, rfl⟩ <;>
        exact emits_join (by rw [hkind]; rfl) hleft.kind_ne_eof hright.kind_ne_eof ihLeft ihRight

/-- A whole expression is followed by the return, which belongs to the line of the end. -/
theorem chunk_complete {c : Compilation α} {body : List Token} {stop : Token} {e : Expr}
    (hparse : Parse .expression body e) (hstop : stop.kind = .eof)
    (hawaits : c.window.Awaits (body ++ [stop])) (hfine : c.complete.window.hasFailed = false) :
    c.complete.chunk = c.chunk.extend
      (e.postorder c.chunk.constants.size ++ [(Opcode.ret.byte, (stop.line : Int))]) e.numbers := by
  have hemits : Emits α .term body e := emits_of_parse hparse
  have hnext : ∀ t ∈ [stop].head?, t.kind.precedence.rank < Precedence.assignment.rank := by
    simp [hstop]
    decide
  have hexpression : c.expression = c.passed body e :=
    hemits.climb_eq (by decide) hawaits hparse.kind_ne_eof hnext
      ((reaches_expect c.expression _ _).unfailed hfine)
  have hcurrent : (c.passed body e).current = stop := (hawaits.past hparse.kind_ne_eof).current
  have hprevious : (c.passed body e).advance.window.previous = some stop :=
    (Window.previous_advance _).trans (congrArg some hcurrent)
  calc c.complete.chunk
      = (c.passed body e).chunk.write Opcode.ret.byte stop.line := by
        rw [complete, hexpression, expect_of_kind (hcurrent ▸ hstop)]
        simp only [emit, hprevious, Option.elim_some]
        rfl
    _ = _ := by simp [passed, Chunk.write_eq_extend]

end Compilation

variable {α : Type} [Number α]

theorem Acceptable.exists_parse {source : List Char} (h : Acceptable source) :
    ∃ e, Parse .expression (body source) e := by
  obtain ⟨depth, hphrase⟩ := h.expression
  exact hphrase.exists_parse

/-- All that a source text compiles to is told by its tree and the line it ends on. -/
theorem eq_extend_of_compile {source : List Char} {chunk : Chunk α}
    (h : compile source = .ok chunk) {e : Expr} (hparse : Parse .expression (body source) e)
    {stop : Token} (htokens : tokens source = body source ++ [stop]) (hstop : stop.kind = .eof) :
    chunk = ({} : Chunk α).extend
      (e.postorder 0 ++ [(Opcode.ret.byte, (stop.line : Int))]) e.numbers := by
  have hawaits := Compilation.awaits_ofSource (α := α) (acceptable_of_compile h)
  rw [htokens] at hawaits
  obtain ⟨hfine, rfl⟩ := eq_chunk_of_compile h
  exact Compilation.chunk_complete hparse hstop hawaits hfine

/-- Every numeral has a constant of its own, also where the same number comes again. -/
theorem constants_of_compile {source : List Char} {chunk : Chunk α}
    (h : compile source = .ok chunk) :
    chunk.constants.toList =
      ((body source).filter (·.kind = .number)).map (Number.ofNumeral ·.lexeme) := by
  obtain ⟨stop, htokens, hstop⟩ := tokens_eq_body_append source
  obtain ⟨e, hparse⟩ := (acceptable_of_compile h).exists_parse
  rw [eq_extend_of_compile h hparse htokens hstop, ← hparse.literals_eq]
  simp [Chunk.extend, Expr.numbers]

theorem size_constants_of_compile {source : List Char} {chunk : Chunk α}
    (h : compile source = .ok chunk) : chunk.constants.size ≤ 256 := by
  rw [← Array.length_toList, constants_of_compile h, List.length_map,
    ← List.countP_eq_length_filter]
  exact (acceptable_of_compile h).numerals

/-- The chunk is the compiled form of a source text: its tree in postorder, and a return
that belongs to the line of the end. -/
structure Chunk.IsCodeOf (chunk : Chunk α) (source : List Char) : Prop where
  size_lines : chunk.lines.size = chunk.code.size
  constants : chunk.constants.toList =
    ((body source).filter (·.kind = .number)).map (Number.ofNumeral ·.lexeme)
  /-- One byte is enough for every index. -/
  size_constants : chunk.constants.size ≤ 256
  exists_tree : ∃ e, Parse .expression (body source) e
  postorder {e : Expr} : Parse .expression (body source) e →
    e.literals = (body source).filter (·.kind = .number) ∧
      ∃ stop ∈ (tokens source).getLast?, stop.kind = .eof ∧
        chunk.annotated = e.postorder 0 ++ [(Opcode.ret.byte, (stop.line : Int))]

/-- **The code of a source text.**  Whatever compiles, compiles to its tree in postorder
and a return, every byte with the line of the token that it comes from. -/
theorem isCodeOf_of_compile {source : List Char} {chunk : Chunk α}
    (h : compile source = .ok chunk) : chunk.IsCodeOf source := by
  obtain ⟨stop, htokens, hstop⟩ := tokens_eq_body_append source
  obtain ⟨e, hparse⟩ := (acceptable_of_compile h).exists_parse
  refine ⟨?_, constants_of_compile h, size_constants_of_compile h, ⟨e, hparse⟩, ?_⟩
  · rw [eq_extend_of_compile h hparse htokens hstop]
    simp [Chunk.extend]
  · intro e' hparse'
    refine ⟨hparse'.literals_eq, stop, by simp [htokens], hstop, ?_⟩
    rw [eq_extend_of_compile h hparse' htokens hstop, Chunk.annotated_extend_empty]

/-- The lines need not rise along the code: a sum is told after its right operand, with the
line of its mark. -/
theorem isCodeOf_sum_over_three_lines :
    ∃ chunk : Chunk Double, compile "-1\n+ 2\n* 3".toList = .ok chunk ∧
      chunk.IsCodeOf "-1\n+ 2\n* 3".toList ∧
      chunk.annotated =
        [(0, 1), (0, 1), (5, 1), (0, 2), (1, 2), (0, 3), (2, 3), (3, 3), (1, 2), (6, 3)] := by
  have hfits : Reading.start.diagnosis? (tokens "-1\n+ 2\n* 3".toList) = none := by
    decide +kernel
  have hcompile := compile_eq_ok (α := Double) hfits
  exact ⟨_, hcompile, isCodeOf_of_compile hcompile, by decide +kernel⟩

end LoxBytecode

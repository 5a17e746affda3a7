import LoxBytecode.Proofs.Compilation.Contents
import LoxBytecode.Proofs.Grammar.Written

/-!
# Compiling what is written

The tokens of an expression in writing stand side by side with nothing in between, and none of
them runs into the next: numerals are followed by marks only, and no operand begins with a
slash.  So the text is read as the tokens that it is put together from, and compiles to the
code of the tree that it was written from (`compile_text`).
-/

namespace LoxBytecode

/-! ## Tokens side by side -/

/-- Every numeral of an expression is spelled as one. -/
def Expr.Spelled (e : Expr) : Prop := ∀ t ∈ e.literals, Spells .number t.lexeme

namespace Token.Content

/-- Contents that may stand in front of anything that no token goes on with: they are read just
as they are, and what they begin with is no slash. -/
structure SideBySide (contents : List Token.Content) : Prop where
  yields {behind : List Char} {later : List Token.Content} :
    EndsToken behind → Yields behind later →
      Yields (contents.flatMap text ++ behind) (contents ++ later)
  head : ∃ first rest, contents.flatMap text = first :: rest ∧ first ≠ '/'

namespace SideBySide

variable {contents earlier last : List Token.Content}

theorem numeral {text : List Char} (h : Spells .number text) : SideBySide [⟨.number, text⟩] where
  yields hends hlater := by
    rw [List.flatMap_singleton]
    exact .numeral h hends hlater
  head := by
    obtain ⟨first, rest, htext, hdigit, -⟩ := h.of_number
    refine ⟨first, rest, by rw [List.flatMap_singleton, htext], ?_⟩
    rintro rfl
    exact absurd hdigit (by decide)

theorem negated (h : SideBySide contents) : SideBySide (⟨.minus, ['-']⟩ :: contents) where
  yields hends hlater := .mark_of_ne rfl (by decide) (h.yields hends hlater)
  head := ⟨'-', _, rfl, by decide⟩

theorem enclosed (needed : Bool) (h : SideBySide contents) :
    SideBySide (enclose needed contents) := by
  cases needed with
  | false => exact h
  | true =>
      refine ⟨fun {behind later} _ hlater => ?_, ⟨'(', _, rfl, by decide⟩⟩
      have hclosing : Yields (')' :: behind) (⟨.rightParen, [')']⟩ :: later) :=
        .mark_of_ne rfl (by decide) hlater
      have hends : EndsToken (')' :: behind) := by
        rintro _ ⟨rfl⟩
        decide
      have hopening : Yields ('(' :: (contents.flatMap text ++ ')' :: behind))
          (⟨.leftParen, ['(']⟩ :: (contents ++ ⟨.rightParen, [')']⟩ :: later)) :=
        .mark_of_ne rfl (by decide) (h.yields hends hclosing)
      simpa [enclose] using hopening

theorem endsToken_operator (op : Operator) (behind : List Char) :
    EndsToken (op.content.text ++ behind) := by
  cases op <;> rintro _ ⟨rfl⟩ <;> decide

theorem join (op : Operator) (hearlier : SideBySide earlier) (hlast : SideBySide last) :
    SideBySide (earlier ++ op.content :: last) where
  yields {behind later} hends hlater := by
    have hbehind := hlast.yields hends hlater
    have hmark : Yields (op.content.text ++ (last.flatMap text ++ behind))
        (op.content :: (last ++ later)) := by
      -- a slash is no comment, as no operand begins with another one
      obtain ⟨first, rest, hfirst, hslash⟩ := hlast.head
      rw [hfirst] at hbehind ⊢
      cases op <;> exact .mark rfl (fun _ heq => hslash (Option.some.inj heq)) hbehind
    have hall := hearlier.yields (endsToken_operator op _) hmark
    simpa using hall
  head := by
    obtain ⟨first, rest, hfirst, hslash⟩ := hearlier.head
    exact ⟨first, _, by rw [List.flatMap_append, hfirst]; rfl, hslash⟩

end SideBySide

end Token.Content

theorem Expr.sideBySide_written {e : Expr} (h : e.Spelled) :
    Token.Content.SideBySide e.written := by
  induction e with
  | literal t => exact .numeral (h t (by simp [literals]))
  | negation sign e ih => exact ((ih h).enclosed _).negated
  | binary op mark left right ihLeft ihRight =>
      obtain ⟨hleft, hright⟩ := List.forall_mem_append.mp h
      exact .join op ((ihLeft hleft).enclosed _) ((ihRight hright).enclosed _)

/-! ## Reading and compiling -/

namespace Expr

variable {e : Expr}

theorem contents_body_text (h : e.Spelled) : (body e.text).map Token.content = e.written := by
  have hyields := (e.sideBySide_written h).yields (by simp [EndsToken]) (.layout .none)
  rw [List.append_nil, List.append_nil] at hyields
  exact contents_body_of_yields hyields

theorem exists_parse_text (h : e.Spelled) :
    ∃ e', Parse .expression (body e.text) e' ∧ e'.Alike e :=
  exists_parse_written (contents_body_text h) e.term_le_precedence

theorem countNumerals_text (h : e.Spelled) : countNumerals (body e.text) = e.literals.length := by
  obtain ⟨e', hparse, halike⟩ := exists_parse_text h
  rw [countNumerals, List.countP_eq_length_filter, ← hparse.literals_eq, halike.length_literals]

theorem diagnosis?_text (h : e.Spelled) (hnesting : e.nesting ≤ 128)
    (hnumerals : e.literals.length ≤ 256) : Reading.start.diagnosis? (tokens e.text) = none := by
  have hphrase := (phrase_written (contents_body_text h)).1
  refine hphrase.diagnosis?_eq_none ⟨by simpa using hnesting, ?_⟩
  rw [countNumerals_text h, Nat.zero_add]
  exact hnumerals

end Expr

section Compile

variable {α : Type} [Number α]

/-- The numerals of a source text are spelled as numerals. -/
theorem Parse.spelled {source : List Char} {stratum : Stratum} {e : Expr}
    (h : Parse stratum (body source) e) : e.Spelled := by
  intro t ht
  rw [h.literals_eq, List.mem_filter, decide_eq_true_eq] at ht
  obtain ⟨hmem, hkind⟩ := ht
  have hspells := spells_of_mem_tokens (List.dropLast_subset _ hmem) (by rw [hkind]; decide)
    (by rw [hkind]; decide)
  rwa [hkind] at hspells

theorem exists_compile_text {e : Expr} (h : e.Spelled) (hnesting : e.nesting ≤ 128)
    (hnumerals : e.literals.length ≤ 256) :
    ∃ chunk : Chunk α, compile e.text = .ok chunk ∧
      chunk.code.toList = (e.postorder 0).map Prod.fst ++ [Opcode.ret.byte] ∧
      chunk.constants.toList = e.numbers := by
  have hcompile := compile_eq_ok (α := α) (Expr.diagnosis?_text h hnesting hnumerals)
  obtain ⟨e', hparse, halike⟩ := Expr.exists_parse_text h
  obtain ⟨hcode, hconstants⟩ := code_of_compile hcompile hparse
  rw [halike.code] at hcode
  rw [halike.numbers] at hconstants
  exact ⟨_, hcompile, hcode, hconstants⟩

/-- What compiles in some writing stays within the bounds with the least parentheses. -/
theorem Acceptable.bounds {source : List Char} (h : Acceptable source) {e : Expr}
    (hparse : Parse .expression (body source) e) :
    e.nesting ≤ 128 ∧ e.literals.length ≤ 256 := by
  obtain ⟨depth, hphrase, hle⟩ := hparse.exists_phrase
  have hdepth := h.nesting depth hphrase
  have hbare : e.nesting ≤ e.nestingAt Stratum.expression.level := Nat.le_add_left _ _
  refine ⟨by omega, ?_⟩
  rw [hparse.literals_eq, ← List.countP_eq_length_filter]
  exact h.numerals

/-- **Compiling what is written.**  An expression in writing nests as deep as its nesting says,
and if that and its numerals are within the bounds, it compiles to its own code and constants.
So for each source text that compiles, the writing of its tree compiles to the same: neither
layout nor parentheses beyond those that are needed make a difference. -/
theorem compile_text :
    (∀ e : Expr, e.Spelled →
      Phrase.Expression (body e.text) e.nesting ∧
        (e.nesting ≤ 128 → e.literals.length ≤ 256 →
          ∃ chunk : Chunk α, compile e.text = .ok chunk ∧
            chunk.code.toList = (e.postorder 0).map Prod.fst ++ [Opcode.ret.byte] ∧
            chunk.constants.toList = e.numbers)) ∧
      ∀ (source : List Char) (chunk : Chunk α), compile source = .ok chunk →
        (∃ e, Parse .expression (body source) e) ∧
          ∀ e, Parse .expression (body source) e →
            ∃ other : Chunk α, compile e.text = .ok other ∧ other.code = chunk.code ∧
              other.constants = chunk.constants := by
  constructor
  · intro e hspelled
    refine ⟨(Expr.phrase_written (Expr.contents_body_text hspelled)).1, ?_⟩
    exact exists_compile_text hspelled
  · intro source chunk hcompile
    have hacceptable := acceptable_of_compile hcompile
    refine ⟨hacceptable.exists_parse, fun e hparse => ?_⟩
    obtain ⟨hnesting, hnumerals⟩ := hacceptable.bounds hparse
    obtain ⟨other, hother, -⟩ := exists_compile_text (α := α) hparse.spelled hnesting hnumerals
    obtain ⟨e', hparse', halike⟩ := Expr.exists_parse_text hparse.spelled
    exact ⟨other, hother, code_eq_of_alike hcompile hother hparse hparse' halike⟩

end Compile

/-- Parentheses stay around a difference that is taken away and around one that is negated, and
around nothing else. -/
theorem compile_text_negated_difference :
    let numeral (text : String) : Token := ⟨.number, text.toList, 0, 0, 1, none⟩
    let mark : Token := ⟨.minus, ['-'], 0, 0, 1, none⟩
    let difference : Expr :=
      .binary .subtract mark (.literal (numeral "2")) (.literal (numeral "3"))
    let e : Expr := .binary .multiply mark
      (.negation mark (.binary .subtract mark (.literal (numeral "1")) difference))
      (.literal (numeral "4.5"))
    e.text = "-(1-(2-3))*4.5".toList ∧ e.Spelled ∧
      Phrase.Expression (body e.text) 3 ∧
      (∃ chunk : Chunk Double, compile e.text = .ok chunk ∧
        chunk.code.toList = [0, 0, 0, 1, 0, 2, 2, 2, 5, 0, 3, 3, 6] ∧
        chunk.constants.toList = e.numbers) ∧
      ∃ (chunk other : Chunk Double) (e' : Expr),
        compile "-((1) - ((2 - 3)))\n* (4.5)".toList = .ok chunk ∧
          Parse .expression (body "-((1) - ((2 - 3)))\n* (4.5)".toList) e' ∧
          compile e'.text = .ok other ∧ other.code = chunk.code ∧
          other.constants = chunk.constants := by
  intro numeral mark difference e
  have hspelled : e.Spelled := by
    intro t ht
    simp only [e, difference, Expr.literals, List.cons_append, List.nil_append, List.mem_cons,
      List.not_mem_nil, or_false] at ht
    rcases ht with rfl | rfl | rfl | rfl
    · exact .whole (by decide : IsDigit '1') (by simp)
    · exact .whole (by decide : IsDigit '2') (by simp)
    · exact .whole (by decide : IsDigit '3') (by simp)
    · show Spells .number ('4' :: ([] ++ '.' :: '5' :: []))
      exact .fraction (by decide) (by simp) (by decide) (by simp)
  have hfits : Reading.start.diagnosis? (tokens "-((1) - ((2 - 3)))\n* (4.5)".toList) = none := by
    decide +kernel
  have hcompile := compile_eq_ok (α := Double) hfits
  obtain ⟨hphrase, hwritten⟩ := (compile_text (α := Double)).1 e hspelled
  obtain ⟨⟨e', hparse⟩, hagain⟩ := (compile_text (α := Double)).2 _ _ hcompile
  obtain ⟨other, hother, hcode, hconstants⟩ := hagain e' hparse
  refine ⟨by decide +kernel, hspelled, hphrase, ?_, _, other, e', hcompile, hparse, hother, hcode,
    hconstants⟩
  exact hwritten (by decide) (by decide)

end LoxBytecode

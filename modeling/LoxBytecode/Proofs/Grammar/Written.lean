import LoxBytecode.Proofs.Grammar.Alike

/-!
# Expressions in writing

An expression is written from its tree with no more parentheses than it needs: around an
operand of a negation that is no numeral or negation itself, around a left operand that binds
less tightly than its operator, and around a right operand that binds no more tightly.

What is written is read as the same tree again (`Expr.exists_parse_written`), nested as deep as
`Expr.nesting` says (`Expr.phrase_written`).  No way of writing the expression nests less
deeply (`Parse.exists_phrase`).
-/

namespace LoxBytecode

/-! ## Writing -/

/-- The token that an operator is written as. -/
def Operator.content : Operator → Token.Content
  | add => ⟨.plus, ['+']⟩
  | subtract => ⟨.minus, ['-']⟩
  | multiply => ⟨.star, ['*']⟩
  | divide => ⟨.slash, ['/']⟩

/-- Contents between parentheses, where these are needed. -/
def enclose (needed : Bool) (contents : List Token.Content) : List Token.Content :=
  if needed then ⟨.leftParen, ['(']⟩ :: (contents ++ [⟨.rightParen, [')']⟩]) else contents

namespace Expr

/-- How tightly the parts of an expression hold together. -/
def precedence : Expr → Precedence
  | literal _ => .unary
  | negation _ _ => .unary
  | binary op _ _ _ => op.precedence

/-- An expression needs parentheses where a level is asked for at which it does not hold
together. -/
def isLooser (e : Expr) (level : Precedence) : Bool := e.precedence.rank < level.rank

/-- The tokens that an expression is written as.  On the right of an operator the next tighter
level is asked for, so that an operand of the same precedence is enclosed there. -/
def written : Expr → List Token.Content
  | literal t => [⟨.number, t.lexeme⟩]
  | negation _ e => ⟨.minus, ['-']⟩ :: enclose (e.isLooser .unary) e.written
  | binary op _ left right =>
    enclose (left.isLooser op.precedence) left.written ++
      op.content :: enclose (right.isLooser op.precedence.next) right.written

/-- An expression in writing: its tokens with nothing in between. -/
def text (e : Expr) : List Char := e.written.flatMap Token.Content.text

/-- The largest number of parentheses and minus signs around one and the same token of an
expression in writing. -/
def nesting : Expr → Nat
  | literal _ => 0
  | negation _ e => (e.isLooser .unary).toNat + e.nesting + 1
  | binary op _ left right =>
    max ((left.isLooser op.precedence).toNat + left.nesting)
      ((right.isLooser op.precedence.next).toNat + right.nesting)

/-- The nesting of an expression that is written where a level is asked for. -/
def nestingAt (level : Precedence) (e : Expr) : Nat := (e.isLooser level).toNat + e.nesting

end Expr

/-! ## Levels and strata -/

/-- The stratum whose chains an operator joins. -/
def Operator.stratum : Operator → Stratum
  | add => .expression
  | subtract => .expression
  | multiply => .term
  | divide => .term

/-- The stratum below, to which the right operands of a chain belong. -/
def Stratum.below : Stratum → Stratum
  | expression => .term
  | term => .factor
  | factor => .factor

namespace Operator

theorem mem_joiningKinds (op : Operator) : op.content.kind ∈ joiningKinds := by
  cases op <;> decide

theorem term_le_precedence (op : Operator) : Precedence.term.rank ≤ op.precedence.rank := by
  cases op <;> decide

theorem level_stratum (op : Operator) : op.stratum.level = op.precedence := by
  cases op <;> rfl

theorem level_below_stratum (op : Operator) :
    op.stratum.below.level = op.precedence.next := by
  cases op <;> rfl

end Operator

theorem Parse.join {earlier last : List Token} {mark : Token} {op : Operator} {left right : Expr}
    (hleft : Parse op.stratum earlier left) (hmark : mark.kind = op.content.kind)
    (hright : Parse op.stratum.below last right) :
    Parse op.stratum (earlier ++ mark :: last) (.binary op mark left right) := by
  cases op with
  | add | subtract => exact .sum hleft (by rw [hmark]; decide) hright
  | multiply | divide => exact .product hleft (by rw [hmark]; decide) hright

/-- What belongs to a stratum belongs to all above it. -/
theorem Parse.widen {stratum wider : Stratum} {body : List Token} {e : Expr}
    (h : Parse stratum body e) (hle : wider.level.rank ≤ stratum.level.rank) :
    Parse wider body e := by
  cases stratum with
  | factor =>
      cases wider with
      | factor => exact h
      | term => exact .ofFactor h
      | expression => exact .ofTerm (.ofFactor h)
  | term =>
      cases wider with
      | factor => exact absurd hle (by decide)
      | term => exact h
      | expression => exact .ofTerm h
  | expression =>
      cases wider with
      | factor | term => exact absurd hle (by decide)
      | expression => exact h

namespace Expr

theorem not_isLooser {e : Expr} {level : Precedence} :
    e.isLooser level = false ↔ level.rank ≤ e.precedence.rank := by
  simp [isLooser]

/-- Between parentheses no expression needs any more of them. -/
theorem term_le_precedence (e : Expr) : Precedence.term.rank ≤ e.precedence.rank := by
  cases e with
  | literal | negation => exact (by decide : Precedence.term.rank ≤ Precedence.unary.rank)
  | binary op => exact op.term_le_precedence

/-! ## What is written is read again -/

/-- Where a level is asked for, an expression is written as it is or as a grouping. -/
theorem bare_or_grouped {e : Expr} {level : Precedence} {tokens : List Token}
    (h : tokens.map Token.content = enclose (e.isLooser level) e.written) :
    (e.isLooser level = false ∧ tokens.map Token.content = e.written) ∨
      (e.isLooser level = true ∧ ∃ opening body closing, tokens = opening :: (body ++ [closing]) ∧
        opening.kind = .leftParen ∧ closing.kind = .rightParen ∧
        body.map Token.content = e.written) := by
  cases hlooser : e.isLooser level with
  | false =>
      rw [hlooser, enclose, if_neg Bool.false_ne_true] at h
      exact .inl ⟨rfl, h⟩
  | true =>
      rw [hlooser, enclose, if_pos rfl] at h
      obtain ⟨opening, body, closing, hsplit, hopening, hbody, hclosing⟩ :=
        Token.exists_grouping_of_contents h
      exact .inr ⟨rfl, opening, body, closing, hsplit, congrArg Token.Content.kind hopening,
        congrArg Token.Content.kind hclosing, hbody⟩

theorem exists_parse_enclose {e : Expr} {stratum : Stratum} {tokens : List Token}
    (h : tokens.map Token.content = enclose (e.isLooser stratum.level) e.written)
    (ih : ∀ {stratum : Stratum} {tokens : List Token}, tokens.map Token.content = e.written →
      stratum.level.rank ≤ e.precedence.rank → ∃ e', Parse stratum tokens e' ∧ e'.Alike e) :
    ∃ e', Parse stratum tokens e' ∧ e'.Alike e := by
  rcases bare_or_grouped h with
    ⟨htight, hbare⟩ | ⟨-, opening, body, closing, rfl, hopening, hclosing, hbody⟩
  · exact ih hbare (not_isLooser.mp htight)
  · obtain ⟨e', hparse, halike⟩ := @ih .expression _ hbody e.term_le_precedence
    have hgrouping : Parse .factor (opening :: (body ++ [closing])) e' :=
      .grouping hopening hclosing hparse
    exact ⟨e', hgrouping.widen (by cases stratum <;> decide), halike⟩

/-- The tokens that an expression is written as form that expression. -/
theorem exists_parse_written {e : Expr} {stratum : Stratum} {tokens : List Token}
    (h : tokens.map Token.content = e.written) (hle : stratum.level.rank ≤ e.precedence.rank) :
    ∃ e', Parse stratum tokens e' ∧ e'.Alike e := by
  induction e generalizing stratum tokens with
  | literal t =>
      obtain ⟨u, rfl, hu⟩ := List.map_eq_singleton_iff.mp h
      have hnumber : Parse .factor [u] (.literal u) := .number (congrArg Token.Content.kind hu)
      exact ⟨_, hnumber.widen hle, .literal (congrArg Token.Content.text hu)⟩
  | negation sign e ih =>
      obtain ⟨sign', body, rfl, hsign, hbody⟩ := List.map_eq_cons_iff.mp h
      obtain ⟨e', hparse, halike⟩ : ∃ e', Parse .factor body e' ∧ e'.Alike e :=
        exists_parse_enclose hbody ih
      have hnegation : Parse .factor (sign' :: body) (.negation sign' e') :=
        .negation (congrArg Token.Content.kind hsign) hparse
      exact ⟨_, hnegation.widen hle, .negation halike⟩
  | binary op mark left right ihLeft ihRight =>
      obtain ⟨earlier, mark', last, rfl, hearlier, hmark, hlast⟩ :=
        Token.exists_join_of_contents h
      rw [← op.level_stratum] at hearlier
      rw [← op.level_below_stratum] at hlast
      obtain ⟨left', hleft, hleftAlike⟩ := exists_parse_enclose hearlier ihLeft
      obtain ⟨right', hright, hrightAlike⟩ := exists_parse_enclose hlast ihRight
      have hjoin := Parse.join hleft (congrArg Token.Content.kind hmark) hright
      refine ⟨_, hjoin.widen ?_, .binary hleftAlike hrightAlike⟩
      rw [op.level_stratum]
      exact hle

/-! ## How deep an expression nests -/

theorem phrase_enclose {e : Expr} {level : Precedence} {tokens : List Token}
    (h : tokens.map Token.content = enclose (e.isLooser level) e.written)
    (ih : ∀ {tokens : List Token}, tokens.map Token.content = e.written →
      Phrase.Expression tokens e.nesting ∧
        (e.isLooser .unary = false → Phrase .operand tokens e.nesting)) :
    Phrase.Expression tokens (e.nestingAt level) ∧
      (level = .unary → Phrase .operand tokens (e.nestingAt level)) := by
  rcases bare_or_grouped h with
    ⟨htight, hbare⟩ | ⟨hlooser, opening, body, closing, rfl, hopening, hclosing, hbody⟩
  · obtain ⟨hphrase, hoperand⟩ := ih hbare
    have hnesting : e.nestingAt level = e.nesting := by simp [nestingAt, htight]
    rw [hnesting]
    exact ⟨hphrase, fun hlevel => hoperand (hlevel ▸ htight)⟩
  · have hnesting : e.nestingAt level = e.nesting + 1 := by
      simp [nestingAt, hlooser, Nat.add_comm]
    have hgrouping : Phrase .operand (opening :: (body ++ [closing])) (e.nestingAt level) :=
      hnesting ▸ .grouping hopening hclosing (ih hbody).1
    exact ⟨.single hgrouping, fun _ => hgrouping⟩

/-- The tokens that an expression is written as nest as deep as its nesting says. -/
theorem phrase_written {e : Expr} {tokens : List Token}
    (h : tokens.map Token.content = e.written) :
    Phrase.Expression tokens e.nesting ∧
      (e.isLooser .unary = false → Phrase .operand tokens e.nesting) := by
  induction e generalizing tokens with
  | literal t =>
      obtain ⟨u, rfl, hu⟩ := List.map_eq_singleton_iff.mp h
      have hnumber : Phrase .operand [u] 0 := .number (congrArg Token.Content.kind hu)
      exact ⟨.single hnumber, fun _ => hnumber⟩
  | negation sign e ih =>
      obtain ⟨sign', body, rfl, hsign, hbody⟩ := List.map_eq_cons_iff.mp h
      have hoperand := (phrase_enclose hbody ih).2 rfl
      have hnegation : Phrase .operand (sign' :: body) (e.nestingAt .unary + 1) :=
        .negation (congrArg Token.Content.kind hsign) hoperand
      exact ⟨.single hnegation, fun _ => hnegation⟩
  | binary op mark left right ihLeft ihRight =>
      obtain ⟨earlier, mark', last, rfl, hearlier, hmark, hlast⟩ :=
        Token.exists_join_of_contents h
      have hleft := (phrase_enclose hearlier ihLeft).1
      have hright := (phrase_enclose hlast ihRight).1
      have hjoining : mark'.kind ∈ joiningKinds := by
        rw [show mark'.kind = op.content.kind from congrArg Token.Content.kind hmark]
        exact op.mem_joiningKinds
      refine ⟨hleft.append hjoining (Nat.zero_le _) hright, fun htight => ?_⟩
      exact absurd (not_isLooser.mp htight) (Nat.not_le.mpr op.precedence_lt_unary)

/-! ## No less nesting in any other writing -/

theorem nestingAt_mono {looser tighter : Precedence} (h : looser.rank ≤ tighter.rank) (e : Expr) :
    e.nestingAt looser ≤ e.nestingAt tighter := by
  cases hlooser : e.isLooser looser with
  | false =>
      simp only [nestingAt, hlooser, Bool.toNat_false]
      omega
  | true =>
      have htighter : e.isLooser tighter = true := by
        simp only [isLooser, decide_eq_true_eq] at hlooser ⊢
        omega
      rw [nestingAt, nestingAt, hlooser, htighter]

theorem nestingAt_le (level : Precedence) (e : Expr) : e.nestingAt level ≤ e.nesting + 1 := by
  have := (e.isLooser level).toNat_le
  simp only [nestingAt]
  omega

theorem nestingAt_binary_le {op : Operator} {mark : Token} {left right : Expr} {m n : Nat}
    (hleft : left.nestingAt op.stratum.level ≤ m)
    (hright : right.nestingAt op.stratum.below.level ≤ n) :
    (binary op mark left right).nestingAt op.stratum.level ≤ max m n := by
  have hnesting : (binary op mark left right).nestingAt op.precedence =
      max (left.nestingAt op.precedence) (right.nestingAt op.precedence.next) := by
    simp [nestingAt, isLooser, precedence, nesting]
  rw [op.level_stratum] at hleft ⊢
  rw [op.level_below_stratum] at hright
  omega

end Expr

/-- The sort of the phrases that belong to a stratum. -/
def Stratum.sort : Stratum → PhraseSort
  | factor => .operand
  | term => .chain .none
  | expression => .chain .none

theorem Phrase.of_sort {stratum : Stratum} {body : List Token} {depth : Nat}
    (h : Phrase stratum.sort body depth) : Phrase.Expression body depth := by
  cases stratum with
  | factor => exact .single h
  | term | expression => exact h

theorem Phrase.exists_join {stratum below : Stratum} {earlier last : List Token} {mark : Token}
    {op : Operator} {left right : Expr} {m n : Nat} (hstratum : op.stratum = stratum)
    (hbelow : stratum.below = below) (hmark : mark.kind ∈ joiningKinds)
    (hearlier : Phrase stratum.sort earlier m) (hleft : left.nestingAt stratum.level ≤ m)
    (hlast : Phrase below.sort last n) (hright : right.nestingAt below.level ≤ n) :
    ∃ depth, Phrase stratum.sort (earlier ++ mark :: last) depth ∧
      (Expr.binary op mark left right).nestingAt stratum.level ≤ depth := by
  subst hstratum hbelow
  have hphrase := hearlier.of_sort.append hmark (Nat.zero_le _) hlast.of_sort
  refine ⟨max m n, ?_, Expr.nestingAt_binary_le hleft hright⟩
  cases op <;> exact hphrase

/-- However an expression is written, it nests at least as deep as its nesting says. -/
theorem Parse.exists_phrase {stratum : Stratum} {body : List Token} {e : Expr}
    (h : Parse stratum body e) :
    ∃ depth, Phrase stratum.sort body depth ∧ e.nestingAt stratum.level ≤ depth := by
  induction h with
  | number hkind => exact ⟨0, .number hkind, Nat.le_refl 0⟩
  | @grouping _ _ _ e hopening hclosing _ ih =>
      obtain ⟨depth, hphrase, hle⟩ := ih
      have hbare : e.nesting ≤ e.nestingAt Stratum.expression.level := Nat.le_add_left _ _
      have hgrouped := e.nestingAt_le Stratum.factor.level
      exact ⟨depth + 1, .grouping hopening hclosing hphrase, by omega⟩
  | @negation sign _ e hsign _ ih =>
      obtain ⟨depth, hphrase, hle⟩ := ih
      have hsame : (Expr.negation sign e).nestingAt Stratum.factor.level =
          e.nestingAt Stratum.factor.level + 1 := Nat.zero_add _
      exact ⟨depth + 1, .negation hsign hphrase, by omega⟩
  | @ofFactor _ e _ ih =>
      obtain ⟨depth, hphrase, hle⟩ := ih
      exact ⟨depth, .single hphrase, Nat.le_trans (e.nestingAt_mono (by decide)) hle⟩
  | @ofTerm _ e _ ih =>
      obtain ⟨depth, hphrase, hle⟩ := ih
      exact ⟨depth, hphrase, Nat.le_trans (e.nestingAt_mono (by decide)) hle⟩
  | @product _ _ mark op _ _ _ hmark _ ihLeft ihRight
  | @sum _ _ mark op _ _ _ hmark _ ihLeft ihRight =>
      obtain ⟨m, hearlier, hleft⟩ := ihLeft
      obtain ⟨n, hlast, hright⟩ := ihRight
      have hmarks : (mark.kind, op) ∈ sumMarks ++ productMarks := by simp [hmark]
      have hjoins := Phrase.mem_joiningKinds_of_operator? (operator?_of_mem_marks hmarks)
      simp only [sumMarks, productMarks, List.mem_cons, Prod.mk.injEq, List.not_mem_nil,
        or_false] at hmark
      rcases hmark with ⟨-, rfl⟩ | ⟨-, rfl⟩ <;>
        exact Phrase.exists_join rfl rfl hjoins hearlier hleft hlast hright

end LoxBytecode

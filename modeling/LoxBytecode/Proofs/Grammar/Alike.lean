import LoxBytecode.Proofs.Cursor.Contents
import LoxBytecode.Proofs.Grammar.Expr

/-!
# Trees that are alike

Two trees are alike if they differ in nothing but the places of their tokens: the same
operations on the same numerals.  Alike trees have the same code and the same numbers.  Tokens
with the same contents form alike trees (`Parse.exists_alike`), so what an expression means does
not depend on where its tokens stand.
-/

namespace LoxBytecode

/-- The same tree, but for the places of the tokens. -/
inductive Expr.Alike : Expr → Expr → Prop
  | literal {t u : Token} : t.lexeme = u.lexeme → Alike (.literal t) (.literal u)
  | negation {sign sign' : Token} {e e' : Expr} :
      Alike e e' → Alike (.negation sign e) (.negation sign' e')
  | binary {op : Operator} {mark mark' : Token} {left left' right right' : Expr} :
      Alike left left' → Alike right right' →
      Alike (.binary op mark left right) (.binary op mark' left' right')

namespace Expr.Alike

variable {e e' : Expr}

theorem literals (h : e.Alike e') :
    e.literals.map Token.lexeme = e'.literals.map Token.lexeme := by
  induction h with
  | literal hlexeme => simp [Expr.literals, hlexeme]
  | negation _ ih => exact ih
  | binary _ _ ihLeft ihRight => simp [Expr.literals, ihLeft, ihRight]

theorem length_literals (h : e.Alike e') : e.literals.length = e'.literals.length := by
  have hlength := congrArg List.length h.literals
  simpa using hlength

theorem numbers {α : Type} [Number α] (h : e.Alike e') : (e.numbers : List α) = e'.numbers := by
  have hmap (l : List Token) : l.map (Number.ofNumeral ·.lexeme) =
      (l.map Token.lexeme).map (Number.ofNumeral (α := α)) := by simp
  rw [Expr.numbers, Expr.numbers, hmap, hmap, h.literals]

theorem code (h : e.Alike e') (first : Nat) :
    (e.postorder first).map Prod.fst = (e'.postorder first).map Prod.fst := by
  induction h generalizing first with
  | literal => rfl
  | negation _ ih => simp [Expr.postorder, ih]
  | binary hleft _ ihLeft ihRight =>
      simp [Expr.postorder, ihLeft, ihRight, hleft.length_literals]

end Expr.Alike

/-! ## Tokens with the same contents -/

namespace Token

theorem kind_eq_of_content {t u : Token} (h : t.content = u.content) : t.kind = u.kind :=
  congrArg Content.kind h

/-- Tokens are taken apart around a mark as their contents are. -/
theorem exists_join_of_contents {tokens : List Token} {earlier last : List Content} {mark : Content}
    (h : tokens.map content = earlier ++ mark :: last) :
    ∃ before t behind, tokens = before ++ t :: behind ∧ before.map content = earlier ∧
      t.content = mark ∧ behind.map content = last := by
  obtain ⟨before, later, rfl, hbefore, hlater⟩ := List.map_eq_append_iff.mp h
  obtain ⟨t, behind, rfl, ht, hbehind⟩ := List.map_eq_cons_iff.mp hlater
  exact ⟨before, t, behind, rfl, hbefore, ht, hbehind⟩

/-- Tokens are taken apart between two parentheses as their contents are. -/
theorem exists_grouping_of_contents {tokens : List Token} {inner : List Content}
    {first last : Content} (h : tokens.map content = first :: (inner ++ [last])) :
    ∃ opening body closing, tokens = opening :: (body ++ [closing]) ∧ opening.content = first ∧
      body.map content = inner ∧ closing.content = last := by
  obtain ⟨opening, later, rfl, hopening, hlater⟩ := List.map_eq_cons_iff.mp h
  obtain ⟨body, closing, behind, rfl, hbody, hclosing, hbehind⟩ := exists_join_of_contents hlater
  obtain rfl := List.map_eq_nil_iff.mp hbehind
  exact ⟨opening, body, closing, rfl, hopening, hbody, hclosing⟩

end Token

/-- Tokens with the same contents as those of an expression form an alike expression. -/
theorem Parse.exists_alike {stratum : Stratum} {body other : List Token} {e : Expr}
    (h : Parse stratum body e) (hsame : other.map Token.content = body.map Token.content) :
    ∃ e', Parse stratum other e' ∧ e'.Alike e := by
  induction h generalizing other with
  | number hkind =>
      obtain ⟨u, rfl, hu⟩ := List.map_eq_singleton_iff.mp hsame
      exact ⟨_, .number ((Token.kind_eq_of_content hu).trans hkind),
        .literal (congrArg Token.Content.text hu)⟩
  | grouping hopening hclosing _ ih =>
      rw [List.map_cons, List.map_append] at hsame
      obtain ⟨opening', body', closing', rfl, hopening', hbody, hclosing'⟩ :=
        Token.exists_grouping_of_contents hsame
      obtain ⟨e', hparse, halike⟩ := ih hbody
      exact ⟨e', .grouping ((Token.kind_eq_of_content hopening').trans hopening)
        ((Token.kind_eq_of_content hclosing').trans hclosing) hparse, halike⟩
  | negation hsign _ ih =>
      obtain ⟨sign', body', rfl, hsign', hbody⟩ := List.map_eq_cons_iff.mp hsame
      obtain ⟨e', hparse, halike⟩ := ih hbody
      exact ⟨_, .negation ((Token.kind_eq_of_content hsign').trans hsign) hparse,
        .negation halike⟩
  | ofFactor _ ih =>
      obtain ⟨e', hparse, halike⟩ := ih hsame
      exact ⟨e', .ofFactor hparse, halike⟩
  | ofTerm _ ih =>
      obtain ⟨e', hparse, halike⟩ := ih hsame
      exact ⟨e', .ofTerm hparse, halike⟩
  | product _ hmark _ ihLeft ihRight | sum _ hmark _ ihLeft ihRight =>
      rw [List.map_append, List.map_cons] at hsame
      obtain ⟨earlier', mark', last', rfl, hearlier, hmark', hlast⟩ :=
        Token.exists_join_of_contents hsame
      obtain ⟨left', hleft, hleftAlike⟩ := ihLeft hearlier
      obtain ⟨right', hright, hrightAlike⟩ := ihRight hlast
      rw [← Token.kind_eq_of_content hmark'] at hmark
      refine ⟨.binary _ mark' left' right', ?_, .binary hleftAlike hrightAlike⟩
      first
        | exact .product hleft hmark hright
        | exact .sum hleft hmark hright

end LoxBytecode

import LoxBytecode.Proofs.Grammar.Expr

/-!
# The grammar is unambiguous

Two chains that one and the same list of tokens begins with end at the same place, or the longer
one goes on behind the shorter one with an operator of its own level (`Phrase.compare`).  So a chain
that no such operator follows is the longest one there, and an expression can be taken apart at its
last operator in one way only, which leaves it with one tree (`Parse.unique`).
-/

namespace LoxBytecode

/-! ## Tails -/

namespace IsTail

variable {level : Precedence} {tail behind rest last : List Token} {t mark : Token} {depth : Nat}

/-- A tail begins with an operator, unless there is none. -/
theorem eq_nil_or_head (h : IsTail level tail) (hsplit : tail ++ behind = t :: rest) :
    tail = [] ∨ (t.kind ∈ joiningKinds ∧ level.rank ≤ t.kind.precedence.rank) := by
  rcases h with rfl | ⟨mark, later, _, rfl, hmark, htight, -⟩
  · exact .inl rfl
  · obtain rfl : mark = t := (List.cons.inj hsplit).1
    exact .inr ⟨hmark, htight⟩

/-- No operator closes a grouping. -/
theorem eq_nil_of_closing (h : IsTail level tail) (ht : t.kind = .rightParen)
    (hsplit : tail ++ behind = t :: rest) : tail = [] := by
  rcases h.eq_nil_or_head hsplit with hnil | ⟨hjoins, -⟩
  · exact hnil
  · rw [ht] at hjoins
    exact absurd hjoins (by decide)

theorem join (h : IsTail level tail) (hmark : mark.kind ∈ joiningKinds)
    (htight : level.rank ≤ mark.kind.precedence.rank) (hlast : Phrase .operand last depth) :
    IsTail level (tail ++ mark :: last) := by
  rcases h with rfl | ⟨mark', later, _, rfl, hmark', htight', hlater⟩
  · exact .inr ⟨mark, last, depth, rfl, hmark, htight, .single hlast⟩
  · exact .inr ⟨mark', _, _, rfl, hmark', htight', .join hlater hmark htight hlast⟩

end IsTail

namespace Phrase

/-! ## Two phrases at one place -/

/-- A chain is an operand and a tail. -/
theorem exists_first {level : Precedence} {body : List Token} {depth : Nat}
    (h : Phrase (.chain level) body depth) :
    ∃ first tail n, body = first ++ tail ∧ Phrase .operand first n ∧ IsTail level tail := by
  generalize hsort : PhraseSort.chain level = sort at h
  induction h with
  | number | grouping | negation => cases hsort
  | @single _ body n hoperand =>
      cases hsort
      exact ⟨body, [], n, (List.append_nil body).symm, hoperand, .inl rfl⟩
  | @join _ _ last mark _ _ _ hmark htight hlast ih =>
      cases hsort
      obtain ⟨first, tail, n, rfl, hfirst, htail⟩ := ih rfl
      exact ⟨first, tail ++ mark :: last, n, List.append_assoc _ _ _, hfirst,
        htail.join hmark htight hlast⟩

/-- How a phrase compares with any other one of its sort that begins at the same place. -/
def Compares : PhraseSort → List Token → Prop
  | .operand, body => ∀ {other behind behind' n}, Phrase .operand other n →
      body ++ behind = other ++ behind' → body = other
  | .chain level, body => ∀ {level' other behind behind' n}, Phrase (.chain level') other n →
      body ++ behind = other ++ behind' →
        (∃ tail, other = body ++ tail ∧ IsTail level' tail) ∨
          ∃ tail, body = other ++ tail ∧ IsTail level tail

theorem compares_number {t : Token} (ht : t.kind = .number) : Compares .operand [t] := by
  intro other behind behind' n hother hsame
  cases hother with
  | number => rw [(List.cons.inj hsame).1]
  | grouping hopening =>
      rw [(List.cons.inj hsame).1, hopening] at ht
      cases ht
  | negation hsign =>
      rw [(List.cons.inj hsame).1, hsign] at ht
      cases ht

/-- Two groupings that begin at the same place close at the same place. -/
theorem compares_grouping {opening closing : Token} {body : List Token}
    (hopening : opening.kind = .leftParen) (hclosing : closing.kind = .rightParen)
    (h : Compares (.chain .none) body) : Compares .operand (opening :: (body ++ [closing])) := by
  intro other behind behind' n hother hsame
  cases hother with
  | number ht =>
      rw [← (List.cons.inj hsame).1, hopening] at ht
      cases ht
  | negation hsign =>
      rw [← (List.cons.inj hsame).1, hopening] at hsign
      cases hsign
  | @grouping opening' closing' body' _ _ hclosing' hbody' =>
      simp only [List.cons_append, List.append_assoc, List.nil_append, List.cons.injEq] at hsame
      obtain ⟨rfl, hinner⟩ := hsame
      rcases h hbody' hinner with ⟨tail, rfl, htail⟩ | ⟨tail, rfl, htail⟩
      · rw [List.append_assoc, List.append_cancel_left_eq] at hinner
        obtain rfl := htail.eq_nil_of_closing hclosing hinner.symm
        rw [(List.cons.inj hinner).1, List.append_nil]
      · rw [List.append_assoc, List.append_cancel_left_eq] at hinner
        obtain rfl := htail.eq_nil_of_closing hclosing' hinner
        rw [← (List.cons.inj hinner).1, List.append_nil]

theorem compares_negation {sign : Token} {body : List Token} (hsign : sign.kind = .minus)
    (h : Compares .operand body) : Compares .operand (sign :: body) := by
  intro other behind behind' n hother hsame
  cases hother with
  | number ht =>
      rw [← (List.cons.inj hsame).1, hsign] at ht
      cases ht
  | grouping hopening =>
      rw [← (List.cons.inj hsame).1, hsign] at hopening
      cases hopening
  | negation _ hbody' =>
      obtain ⟨rfl, hinner⟩ := List.cons.inj hsame
      rw [h hbody' hinner]

theorem compares_single {level : Precedence} {body : List Token} (h : Compares .operand body) :
    Compares (.chain level) body := by
  intro level' other behind behind' n hother hsame
  obtain ⟨first, tail, _, rfl, hfirst, htail⟩ := hother.exists_first
  rw [List.append_assoc] at hsame
  obtain rfl := h hfirst hsame
  exact .inl ⟨tail, rfl, htail⟩

theorem compares_join {level : Precedence} {earlier last : List Token} {mark : Token} {n : Nat}
    (hearlier : Compares (.chain level) earlier) (hmark : mark.kind ∈ joiningKinds)
    (htight : level.rank ≤ mark.kind.precedence.rank) (hlast : Phrase .operand last n)
    (hcompares : Compares .operand last) : Compares (.chain level) (earlier ++ mark :: last) := by
  intro level' other behind behind' _ hother hsame
  rw [List.append_assoc, List.cons_append] at hsame
  rcases hearlier hother hsame with ⟨tail, rfl, htail⟩ | ⟨tail, rfl, htail⟩
  · rcases htail with rfl | ⟨mark', later, _, rfl, -, -, hlater⟩
    · refine .inr ⟨mark :: last, by rw [List.append_nil], ?_⟩
      exact .inr ⟨mark, last, n, rfl, hmark, htight, .single hlast⟩
    · -- both go on with the same operator, and its right operand is the same too
      rw [List.append_assoc, List.append_cancel_left_eq, List.cons_append] at hsame
      obtain ⟨rfl, hinner⟩ := List.cons.inj hsame
      obtain ⟨first, tail, _, rfl, hfirst, htail⟩ := hlater.exists_first
      rw [List.append_assoc] at hinner
      obtain rfl := hcompares hfirst hinner
      exact .inl ⟨tail, by simp, htail⟩
  · exact .inr ⟨tail ++ mark :: last, List.append_assoc _ _ _, htail.join hmark htight hlast⟩

theorem compares {sort : PhraseSort} {body : List Token} {depth : Nat}
    (h : Phrase sort body depth) : Compares sort body := by
  induction h with
  | number ht => exact compares_number ht
  | grouping hopening hclosing _ ih => exact compares_grouping hopening hclosing ih
  | negation hsign _ ih => exact compares_negation hsign ih
  | single _ ih => exact compares_single ih
  | join _ hmark htight hlast ihEarlier ihLast =>
      exact compares_join ihEarlier hmark htight hlast ihLast

section Compare

variable {level level' tighter : Precedence} {body other earlier earlier' last last' : List Token}
  {behind behind' : List Token} {t mark mark' : Token} {k l m n : Nat}

/-- Of two chains at one place, one is the other with a tail of its own level. -/
theorem compare (h : Phrase (.chain level) body m) (h' : Phrase (.chain level') other n)
    (hsame : body ++ behind = other ++ behind') :
    (∃ tail, other = body ++ tail ∧ IsTail level' tail) ∨
      ∃ tail, body = other ++ tail ∧ IsTail level tail :=
  h.compares h' hsame

/-- A chain is the longest one at its place if no operator of its level follows. -/
theorem length_le_of_stop (h : Phrase (.chain level) body m) (h' : Phrase (.chain level) other n)
    (hsame : body ++ t :: behind = other ++ behind')
    (ht : t.kind.precedence.rank < level.rank) : other.length ≤ body.length := by
  rcases h.compare h' hsame with ⟨tail, rfl, htail⟩ | ⟨tail, rfl, -⟩
  · rw [List.append_assoc, List.append_cancel_left_eq] at hsame
    rcases htail.eq_nil_or_head hsame.symm with rfl | ⟨-, htight⟩
    · exact Nat.le_of_eq (congrArg List.length (List.append_nil body))
    · omega
  · rw [List.length_append]
    omega

/-- Behind a chain that it begins with, a chain goes on with an operator of its own level. -/
theorem rank_le_of_split (h : Phrase (.chain level) (earlier ++ mark :: last) m)
    (hearlier : Phrase (.chain level') earlier n) :
    level.rank ≤ mark.kind.precedence.rank := by
  rcases h.compare hearlier (List.append_nil _) with ⟨tail, hlonger, -⟩ | ⟨tail, hsplit, htail⟩
  · have hlength := congrArg List.length hlonger
    simp only [List.length_append, List.length_cons] at hlength
    omega
  · rw [List.append_cancel_left_eq] at hsplit
    rcases htail.eq_nil_or_head ((List.append_nil tail).trans hsplit.symm) with rfl | ⟨-, htight⟩
    · cases hsplit
    · exact htight

/-- An operator that binds less tightly than what is behind it is the last one of its level, so the
chain in front of it does not go on. -/
theorem eq_nil_of_split {tail : List Token} (htail : IsTail level tail)
    (hlast : Phrase (.chain tighter) last m) (hmark' : mark'.kind.precedence.rank < tighter.rank)
    (hsame : mark :: last = tail ++ mark' :: last') : tail = [] := by
  rcases htail with hnil | ⟨next, later, _, rfl, -, -, hlater⟩
  · exact hnil
  · obtain ⟨-, rfl⟩ := List.cons.inj hsame
    have htight := hlast.rank_le_of_split hlater
    omega

/-- Chains with an operator that binds less tightly than what is behind it are the same if all of
it is the same. -/
theorem split_unique (hearlier : Phrase (.chain level) earlier k)
    (hearlier' : Phrase (.chain level) earlier' l) (hlast : Phrase (.chain tighter) last m)
    (hlast' : Phrase (.chain tighter) last' n) (hmark : mark.kind.precedence.rank < tighter.rank)
    (hmark' : mark'.kind.precedence.rank < tighter.rank)
    (hsame : earlier ++ mark :: last = earlier' ++ mark' :: last') :
    earlier = earlier' ∧ mark = mark' ∧ last = last' := by
  rcases hearlier.compare hearlier' hsame with ⟨tail, rfl, htail⟩ | ⟨tail, rfl, htail⟩
  · rw [List.append_assoc, List.append_cancel_left_eq] at hsame
    obtain rfl := eq_nil_of_split htail hlast hmark' hsame
    obtain ⟨rfl, rfl⟩ := List.cons.inj hsame
    exact ⟨(List.append_nil _).symm, rfl, rfl⟩
  · rw [List.append_assoc, List.append_cancel_left_eq] at hsame
    obtain rfl := eq_nil_of_split htail hlast' hmark hsame.symm
    obtain ⟨rfl, rfl⟩ := List.cons.inj hsame
    exact ⟨List.append_nil _, rfl, rfl⟩

end Compare

end Phrase

/-! ## One tree -/

namespace Parse

variable {stratum : Stratum} {body earlier earlier' last last' : List Token}
  {mark mark' : Token} {op op' : Operator} {e left right : Expr}

theorem operator?_of_mem_sumMarks {kind : Token.Kind} (h : (kind, op) ∈ sumMarks) :
    kind.operator? = some op :=
  operator?_of_mem_marks (List.mem_append_left _ h)

theorem operator?_of_mem_productMarks {kind : Token.Kind} (h : (kind, op) ∈ productMarks) :
    kind.operator? = some op :=
  operator?_of_mem_marks (List.mem_append_right _ h)

theorem precedence_of_mem_sumMarks {kind : Token.Kind} (h : (kind, op) ∈ sumMarks) :
    kind.precedence = .term := by
  simp only [sumMarks, List.mem_cons, Prod.mk.injEq, List.not_mem_nil, or_false] at h
  rcases h with ⟨rfl, -⟩ | ⟨rfl, -⟩ <;> rfl

theorem precedence_of_mem_productMarks {kind : Token.Kind} (h : (kind, op) ∈ productMarks) :
    kind.precedence = .factor := by
  simp only [productMarks, List.mem_cons, Prod.mk.injEq, List.not_mem_nil, or_false] at h
  rcases h with ⟨rfl, -⟩ | ⟨rfl, -⟩ <;> rfl

theorem rank_lt_factor {kind : Token.Kind} (h : (kind, op) ∈ sumMarks) :
    kind.precedence.rank < Precedence.factor.rank := by
  rw [precedence_of_mem_sumMarks h]
  decide

/-- What belongs to a stratum is a chain of its level. -/
theorem exists_chain (h : Parse stratum body e) : ∃ n, Phrase (.chain stratum.level) body n := by
  induction h with
  | number ht => exact ⟨_, .single (.number ht)⟩
  | grouping hopening hclosing _ ih =>
      obtain ⟨n, hbody⟩ := ih
      exact ⟨_, .single (.grouping hopening hclosing (hbody.mono (by decide)))⟩
  | negation hsign _ ih =>
      obtain ⟨n, hbody⟩ := ih
      exact ⟨_, .single (.negation hsign (hbody.operand_of_unary (Nat.le_refl _)))⟩
  | ofFactor _ ih | ofTerm _ ih =>
      obtain ⟨n, hbody⟩ := ih
      exact ⟨n, hbody.mono (by decide)⟩
  | product _ hmark _ ihLeft ihRight =>
      obtain ⟨m, hearlier⟩ := ihLeft
      obtain ⟨n, hlast⟩ := ihRight
      refine ⟨_, hearlier.append ?_ ?_ (hlast.mono (by decide))⟩
      · exact Phrase.mem_joiningKinds_of_operator? (operator?_of_mem_productMarks hmark)
      · rw [precedence_of_mem_productMarks hmark]
        exact Nat.le_refl _
  | sum _ hmark _ ihLeft ihRight =>
      obtain ⟨m, hearlier⟩ := ihLeft
      obtain ⟨n, hlast⟩ := ihRight
      refine ⟨_, hearlier.append ?_ ?_ (hlast.mono (by decide))⟩
      · exact Phrase.mem_joiningKinds_of_operator? (operator?_of_mem_sumMarks hmark)
      · rw [precedence_of_mem_sumMarks hmark]
        exact Nat.le_refl _

/-! ## The last step of a tree -/

theorem cases_factor (h : Parse .factor body e) :
    (∃ t, t.kind = .number ∧ body = [t] ∧ e = .literal t) ∨
      (∃ opening closing inner, opening.kind = .leftParen ∧
        body = opening :: (inner ++ [closing]) ∧ Parse .expression inner e) ∨
      ∃ sign inner e', sign.kind = .minus ∧ body = sign :: inner ∧ Parse .factor inner e' ∧
        e = .negation sign e' := by
  cases h with
  | number ht => exact .inl ⟨_, ht, rfl, rfl⟩
  | grouping hopening _ hinner => exact .inr (.inl ⟨_, _, _, hopening, rfl, hinner⟩)
  | negation hsign hinner => exact .inr (.inr ⟨_, _, _, hsign, rfl, hinner, rfl⟩)

theorem cases_term (h : Parse .term body e) :
    Parse .factor body e ∨ ∃ earlier last mark op left right, body = earlier ++ mark :: last ∧
      e = .binary op mark left right ∧ Parse .term earlier left ∧
      (mark.kind, op) ∈ productMarks ∧ Parse .factor last right := by
  cases h with
  | ofFactor hfactor => exact .inl hfactor
  | product hleft hmark hright => exact .inr ⟨_, _, _, _, _, _, rfl, rfl, hleft, hmark, hright⟩

theorem cases_expression (h : Parse .expression body e) :
    Parse .term body e ∨ ∃ earlier last mark op left right, body = earlier ++ mark :: last ∧
      e = .binary op mark left right ∧ Parse .expression earlier left ∧
      (mark.kind, op) ∈ sumMarks ∧ Parse .term last right := by
  cases h with
  | ofTerm hterm => exact .inl hterm
  | sum hleft hmark hright => exact .inr ⟨_, _, _, _, _, _, rfl, rfl, hleft, hmark, hright⟩

/-- The tokens of a stratum have no operator of a looser one. -/
theorem level_le_of_split {below : Stratum} (h : Parse below (earlier ++ mark :: last) e)
    (hleft : Parse stratum earlier left) : below.level.rank ≤ mark.kind.precedence.rank := by
  obtain ⟨m, hchain⟩ := h.exists_chain
  obtain ⟨n, hearlier⟩ := hleft.exists_chain
  exact hchain.rank_le_of_split hearlier

/-- Two strata that are joined by an operator are joined by it in one way only. -/
theorem join_unique {below : Stratum} {left' right' : Expr} (hleft : Parse stratum earlier left)
    (hleft' : Parse stratum earlier' left') (hright : Parse below last right)
    (hright' : Parse below last' right') (hop : mark.kind.operator? = some op)
    (hop' : mark'.kind.operator? = some op') (hmark : mark.kind.precedence.rank < below.level.rank)
    (hmark' : mark'.kind.precedence.rank < below.level.rank)
    (hsame : earlier ++ mark :: last = earlier' ++ mark' :: last') :
    earlier = earlier' ∧ mark = mark' ∧ last = last' ∧ op = op' := by
  obtain ⟨_, hearlier⟩ := hleft.exists_chain
  obtain ⟨_, hearlier'⟩ := hleft'.exists_chain
  obtain ⟨_, hlast⟩ := hright.exists_chain
  obtain ⟨_, hlast'⟩ := hright'.exists_chain
  obtain ⟨rfl, rfl, rfl⟩ := hearlier.split_unique hearlier' hlast hlast' hmark hmark' hsame
  exact ⟨rfl, rfl, rfl, Option.some.inj (hop.symm.trans hop')⟩

/-- **The grammar is unambiguous**: no tokens have two trees. -/
theorem unique {e' : Expr} (h : Parse stratum body e) (h' : Parse stratum body e') : e = e' := by
  induction h generalizing e' with
  | number ht =>
      rcases h'.cases_factor with ⟨_, -, hbody, rfl⟩ | ⟨_, _, _, hopening, hbody, -⟩ |
        ⟨_, _, _, hsign, hbody, -, -⟩
      · rw [(List.cons.inj hbody).1]
      · rw [← (List.cons.inj hbody).1, ht] at hopening
        cases hopening
      · rw [← (List.cons.inj hbody).1, ht] at hsign
        cases hsign
  | grouping hopening _ _ ih =>
      rcases h'.cases_factor with ⟨_, ht, hbody, -⟩ | ⟨_, _, _, -, hbody, hinner⟩ |
        ⟨_, _, _, hsign, hbody, -, -⟩
      · rw [← (List.cons.inj hbody).1, hopening] at ht
        cases ht
      · obtain ⟨rfl, -⟩ := List.append_inj' (List.cons.inj hbody).2 rfl
        exact ih hinner
      · rw [← (List.cons.inj hbody).1, hopening] at hsign
        cases hsign
  | negation hsign _ ih =>
      rcases h'.cases_factor with ⟨_, ht, hbody, -⟩ | ⟨_, _, _, hopening, hbody, -⟩ |
        ⟨_, _, _, -, hbody, hinner, rfl⟩
      · rw [← (List.cons.inj hbody).1, hsign] at ht
        cases ht
      · rw [← (List.cons.inj hbody).1, hsign] at hopening
        cases hopening
      · obtain ⟨rfl, rfl⟩ := List.cons.inj hbody
        rw [ih hinner]
  | ofFactor hfactor ih =>
      rcases h'.cases_term with hfactor' | ⟨_, _, mark, _, _, _, rfl, rfl, hleft, -, -⟩
      · exact ih hfactor'
      · have hlevel := hfactor.level_le_of_split hleft
        exact absurd hlevel (Nat.not_le.mpr (Phrase.precedence_lt_unary mark.kind))
  | @product _ _ mark _ _ _ hleft hmark hright ihLeft ihRight =>
      rcases h'.cases_term with
        hfactor | ⟨_, _, mark', _, _, _, hsame, rfl, hleft', hmark', hright'⟩
      · have hlevel := hfactor.level_le_of_split hleft
        exact absurd hlevel (Nat.not_le.mpr (Phrase.precedence_lt_unary mark.kind))
      · obtain ⟨rfl, rfl, rfl, rfl⟩ := hleft.join_unique hleft' hright hright'
          (operator?_of_mem_productMarks hmark) (operator?_of_mem_productMarks hmark')
          (Phrase.precedence_lt_unary mark.kind) (Phrase.precedence_lt_unary mark'.kind) hsame
        rw [ihLeft hleft', ihRight hright']
  | ofTerm hterm ih =>
      rcases h'.cases_expression with hterm' | ⟨_, _, mark, _, _, _, rfl, rfl, hleft, hmark, -⟩
      · exact ih hterm'
      · have hlevel := hterm.level_le_of_split hleft
        exact absurd hlevel (Nat.not_le.mpr (rank_lt_factor hmark))
  | sum hleft hmark hright ihLeft ihRight =>
      rcases h'.cases_expression with
        hterm | ⟨_, _, _, _, _, _, hsame, rfl, hleft', hmark', hright'⟩
      · have hlevel := hterm.level_le_of_split hleft
        exact absurd hlevel (Nat.not_le.mpr (rank_lt_factor hmark))
      · obtain ⟨rfl, rfl, rfl, rfl⟩ := hleft.join_unique hleft' hright hright'
          (operator?_of_mem_sumMarks hmark) (operator?_of_mem_sumMarks hmark')
          (rank_lt_factor hmark) (rank_lt_factor hmark') hsame
        rw [ihLeft hleft', ihRight hright']

end Parse

end LoxBytecode

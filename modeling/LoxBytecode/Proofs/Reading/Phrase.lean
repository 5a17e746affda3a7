import LoxBytecode.Proofs.Reading.Basic

/-!
# Reading a phrase

A reader gets through a phrase just when it nests no deeper and holds no more numerals
than there is room for where the phrase begins.  So the room that is needed can be told
from the phrase as a whole, in whatever order it is used up.
-/

namespace LoxBytecode

/-- How many numerals there are among some tokens. -/
def countNumerals (tokens : List Token) : Nat := tokens.countP (·.kind = .number)

@[simp] theorem countNumerals_append (earlier later : List Token) :
    countNumerals (earlier ++ later) = countNumerals earlier + countNumerals later :=
  List.countP_append

theorem countNumerals_cons_of_ne {t : Token} (h : t.kind ≠ .number) (later : List Token) :
    countNumerals (t :: later) = countNumerals later := by
  simp [countNumerals, h]

theorem countNumerals_cons_joining {mark : Token} (h : mark.kind ∈ joiningKinds)
    (later : List Token) : countNumerals (mark :: later) = countNumerals later := by
  apply countNumerals_cons_of_ne
  intro hnumber
  simp [hnumber, joiningKinds] at h

/-- A reader may begin a chain only where no negation is the innermost opener. -/
def PhraseSort.Admits : PhraseSort → List Opener → Prop
  | operand, _ => True
  | chain _, opened => closeNegations opened = opened

/-- There is room for a phrase of some depth and some numerals. -/
def HasRoom (opened : List Opener) (numerals depth : Nat) (body : List Token) : Prop :=
  opened.length + depth ≤ 128 ∧ numerals + countNumerals body ≤ 256

namespace Reading

theorem misfit?_opening {kind : Token.Kind} (h : kind = .leftParen ∨ kind = .minus)
    (opened : List Opener) (numerals : Nat) :
    misfit? ⟨true, opened, numerals⟩ kind =
      if opened.length < 128 then none else some .tooDeep := by
  rcases h with rfl | rfl <;> rfl

theorem misfit?_closing (opened : List Opener) (numerals : Nat) :
    misfit? ⟨false, .grouping :: opened, numerals⟩ .rightParen = none := by
  simp [misfit?, joiningKinds]

theorem exists_diagnosis?_of_misfit {r : Reading} {t : Token} {m : Misfit}
    (hsound : t.kind ≠ .error) (h : r.misfit? t.kind = some m) (later : List Token) :
    ∃ found, r.diagnosis? (t :: later) = some found := by
  unfold diagnosis?
  rw [firstMisfit?, if_neg hsound]
  simp only [h]
  split
  · exact ⟨_, rfl⟩
  · exact ⟨_, rfl⟩

theorem diagnosis?_joining {mark : Token} (hmark : mark.kind ∈ joiningKinds)
    (opened : List Opener) (numerals : Nat) (later : List Token) :
    diagnosis? ⟨false, opened, numerals⟩ (mark :: later) =
      diagnosis? ⟨true, opened, numerals⟩ later := by
  have hsound : mark.kind ≠ .error := by
    intro herror
    simp [herror, joiningKinds] at hmark
  rw [diagnosis?_fit hsound (misfit?_joining _ _ hmark), after_joining _ _ hmark]

end Reading

open Reading

/-- With room for it a phrase is read to its end. -/
theorem Phrase.diagnosis?_append {sort : PhraseSort} {body : List Token} {depth : Nat}
    (h : Phrase sort body depth) {opened : List Opener} {numerals : Nat}
    (hadmits : sort.Admits opened) (hroom : HasRoom opened numerals depth body)
    (later : List Token) :
    diagnosis? ⟨true, opened, numerals⟩ (body ++ later) =
      diagnosis? ⟨false, closeNegations opened, numerals + countNumerals body⟩ later := by
  induction h generalizing opened numerals later with
  | @number t hkind =>
      have hsound : t.kind ≠ .error := by rw [hkind]; decide
      have hcount : countNumerals [t] = 1 := by simp [countNumerals, hkind]
      rw [HasRoom, hcount] at hroom
      have hlt : numerals < 256 := by omega
      have hfit : misfit? ⟨true, opened, numerals⟩ t.kind = none := by
        rw [hkind]
        exact if_pos hlt
      rw [List.singleton_append, diagnosis?_fit hsound hfit, hcount, hkind]
      rfl
  | @grouping opening closing body depth hopening hclosing _ ih =>
      have hsound : opening.kind ≠ .error := by rw [hopening]; decide
      have hsound' : closing.kind ≠ .error := by rw [hclosing]; decide
      have hcount : countNumerals (opening :: (body ++ [closing])) = countNumerals body := by
        simp [countNumerals, hopening, hclosing]
      rw [HasRoom, hcount] at hroom
      have hfit : misfit? ⟨true, opened, numerals⟩ opening.kind = none := by
        rw [misfit?_opening (.inl hopening), if_pos (by omega)]
      have hfit' (n : Nat) : misfit? ⟨false, .grouping :: opened, n⟩ closing.kind = none := by
        rw [hclosing, misfit?_closing]
      have hinner : HasRoom (.grouping :: opened) numerals depth body :=
        ⟨by simp only [List.length_cons]; omega, hroom.2⟩
      have hadmits' : (PhraseSort.chain .none).Admits (.grouping :: opened) := rfl
      calc diagnosis? ⟨true, opened, numerals⟩ (opening :: (body ++ [closing]) ++ later)
          = diagnosis? ⟨true, .grouping :: opened, numerals⟩ (body ++ closing :: later) := by
            rw [List.cons_append, List.append_assoc, diagnosis?_fit hsound hfit, hopening]
            rfl
        _ = diagnosis? ⟨false, .grouping :: opened, numerals + countNumerals body⟩
              (closing :: later) := ih hadmits' hinner _
        _ = _ := by
            rw [diagnosis?_fit hsound' (hfit' _), hcount, hclosing]
            rfl
  | @negation sign body depth hsign _ ih =>
      have hsound : sign.kind ≠ .error := by rw [hsign]; decide
      have hcount : countNumerals (sign :: body) = countNumerals body :=
        countNumerals_cons_of_ne (by rw [hsign]; decide) _
      rw [HasRoom, hcount] at hroom
      have hfit : misfit? ⟨true, opened, numerals⟩ sign.kind = none := by
        rw [misfit?_opening (.inr hsign), if_pos (by omega)]
      have hinner : HasRoom (.negation :: opened) numerals depth body :=
        ⟨by simp only [List.length_cons]; omega, hroom.2⟩
      have hbody : diagnosis? ⟨true, .negation :: opened, numerals⟩ (body ++ later) = _ :=
        ih trivial hinner later
      rw [List.cons_append, diagnosis?_fit hsound hfit, hcount, hsign]
      exact hbody
  | single _ ih => exact ih trivial hroom later
  | @join level earlier last mark m n _ hmark _ _ ihEarlier ihLast =>
      have hopened : closeNegations opened = opened := hadmits
      rw [HasRoom, countNumerals_append, countNumerals_cons_joining hmark] at hroom
      have hfirst : HasRoom opened numerals m earlier := ⟨by omega, by omega⟩
      have hsecond : HasRoom opened (numerals + countNumerals earlier) n last :=
        ⟨by omega, by omega⟩
      calc diagnosis? ⟨true, opened, numerals⟩ (earlier ++ mark :: last ++ later)
          = diagnosis? ⟨false, opened, numerals + countNumerals earlier⟩
              (mark :: (last ++ later)) := by
            rw [List.append_assoc, ihEarlier hadmits hfirst, hopened]
            rfl
        _ = diagnosis? ⟨true, opened, numerals + countNumerals earlier⟩ (last ++ later) :=
            diagnosis?_joining hmark _ _ _
        _ = _ := by
            rw [ihLast trivial hsecond, countNumerals_append, countNumerals_cons_joining hmark,
              Nat.add_assoc]

/-- Without room for it a phrase is not read to its end, whatever follows. -/
theorem Phrase.exists_diagnosis? {sort : PhraseSort} {body : List Token} {depth : Nat}
    (h : Phrase sort body depth) {opened : List Opener} {numerals : Nat}
    (hadmits : sort.Admits opened) (hopened : opened.length ≤ 128)
    (hroom : ¬HasRoom opened numerals depth body) (later : List Token) :
    ∃ found, diagnosis? ⟨true, opened, numerals⟩ (body ++ later) = some found := by
  induction h generalizing opened numerals later with
  | @number t hkind =>
      have hcount : countNumerals [t] = 1 := by simp [countNumerals, hkind]
      rw [HasRoom, hcount] at hroom
      have hfull : ¬numerals < 256 := by omega
      have hmisfit : misfit? ⟨true, opened, numerals⟩ t.kind = some .tooManyNumerals := by
        rw [hkind]
        exact if_neg hfull
      exact exists_diagnosis?_of_misfit (by rw [hkind]; decide) hmisfit later
  | @grouping opening closing body depth hopening hclosing _ ih =>
      have hsound : opening.kind ≠ .error := by rw [hopening]; decide
      have hmisfit? := misfit?_opening (.inl hopening) opened numerals
      by_cases hdeeper : opened.length < 128
      · have hcount : countNumerals (opening :: (body ++ [closing])) = countNumerals body := by
          simp [countNumerals, hopening, hclosing]
        rw [HasRoom, hcount] at hroom
        have hinner : ¬HasRoom (.grouping :: opened) numerals depth body := by
          simp only [HasRoom, List.length_cons]
          omega
        have hadmits' : (PhraseSort.chain .none).Admits (.grouping :: opened) := rfl
        rw [if_pos hdeeper] at hmisfit?
        rw [List.cons_append, List.append_assoc, diagnosis?_fit hsound hmisfit?, hopening]
        exact ih hadmits' hdeeper hinner _
      · rw [if_neg hdeeper] at hmisfit?
        exact exists_diagnosis?_of_misfit hsound hmisfit? _
  | @negation sign body depth hsign _ ih =>
      have hsound : sign.kind ≠ .error := by rw [hsign]; decide
      have hmisfit? := misfit?_opening (.inr hsign) opened numerals
      by_cases hdeeper : opened.length < 128
      · have hcount : countNumerals (sign :: body) = countNumerals body :=
          countNumerals_cons_of_ne (by rw [hsign]; decide) _
        rw [HasRoom, hcount] at hroom
        have hinner : ¬HasRoom (.negation :: opened) numerals depth body := by
          simp only [HasRoom, List.length_cons]
          omega
        rw [if_pos hdeeper] at hmisfit?
        rw [List.cons_append, diagnosis?_fit hsound hmisfit?, hsign]
        refine ih trivial ?_ hinner _
        exact hdeeper
      · rw [if_neg hdeeper] at hmisfit?
        exact exists_diagnosis?_of_misfit hsound hmisfit? _
  | single _ ih => exact ih trivial hopened hroom later
  | @join level earlier last mark m n hearlier hmark _ _ ihEarlier ihLast =>
      rw [List.append_assoc]
      by_cases hfirst : HasRoom opened numerals m earlier
      · have hclosed : closeNegations opened = opened := hadmits
        rw [hearlier.diagnosis?_append hadmits hfirst, hclosed, List.cons_append,
          diagnosis?_joining hmark]
        rw [HasRoom, countNumerals_append, countNumerals_cons_joining hmark] at hroom
        rw [HasRoom] at hfirst
        have hsecond : ¬HasRoom opened (numerals + countNumerals earlier) n last := by
          rw [HasRoom]
          omega
        exact ihLast trivial hopened hsecond later
      · exact ihEarlier hadmits hopened hfirst _

end LoxBytecode

import LoxBytecode.Proofs.Compilation.Induction
import LoxBytecode.Proofs.Grammar.Phrase
import LoxBytecode.Proofs.Reading.Basic

/-!
# How a part of a compilation ends

A part of a compilation that is begun without a fault ends in one of two ways: it has
passed a phrase and stands where a reader stands behind that phrase, or it has reported
just what the reader has to say about the tokens.  `Outcome` puts this in one statement,
which goes along when parts are put together.
-/

namespace LoxBytecode.Compilation

variable {α : Type}

/-! ## States without a fault -/

/-- The tokens ahead of a compilation. -/
def ahead (c : Compilation α) : List Token := c.window.ahead

/-- The reader that has got as far as a compilation. -/
def reading (c : Compilation α) (expecting : Bool) (opened : List Opener) : Reading :=
  ⟨expecting, opened, c.chunk.constants.size⟩

/-- Nothing has been reported so far. -/
structure Intact (c : Compilation α) : Prop where
  coherent : c.window.Coherent
  clean : c.window.Reported none

theorem Intact.sound {c : Compilation α} (h : c.Intact) : c.current.kind ≠ .error := h.coherent.sound

theorem Intact.head_sound {c : Compilation α} (h : c.Intact) :
    ∀ t ∈ c.ahead.head?, t.kind ≠ .error := by
  intro t ht
  obtain rfl : c.current = t := Option.some.inj ht
  exact h.sound

/-- Moving on from an intact state either leaves it intact, or it meets an error. -/
theorem Intact.advance {c : Compilation α} (h : c.Intact) :
    (c.advance.Intact ∧ (c.current.kind ≠ .eof → c.ahead = c.current :: c.advance.ahead)) ∨
      ∃ t later, t.kind = .error ∧ c.ahead = c.current :: t :: later ∧
        c.advance.window.Reported (some t.fault) := by
  have hreported := h.clean.advance
  cases herrors : c.window.cursor.nextSound.1 with
  | nil =>
      rw [herrors] at hreported
      refine .inl ⟨⟨c.window.coherent_advance, hreported⟩, fun hmore => ?_⟩
      have hahead := Window.ahead_advance hmore
      rw [herrors] at hahead
      exact hahead
  | cons t later =>
      rw [herrors] at hreported
      have hmore : c.current.kind ≠ .eof := by
        intro heof
        simp [h.coherent.nextSound_of_eof heof] at herrors
      have hahead := Window.ahead_advance hmore
      rw [herrors] at hahead
      have hmem : t ∈ c.window.cursor.nextSound.1 := by simp [herrors]
      exact .inr ⟨t, _, Cursor.error_of_mem_nextSound hmem, hahead, hreported⟩

/-- A compilation either begins intact, or its tokens begin with an error. -/
theorem ofSource_intact_or_reported (source : List Char) :
    ((ofSource source : Compilation α).Intact ∧
        tokens source = (ofSource source : Compilation α).ahead) ∨
      ∃ t later, t.kind = .error ∧ tokens source = t :: later ∧
        (ofSource source : Compilation α).window.Reported (some t.fault) := by
  have hreported := Window.reported_ofSource source
  have htokens := Window.tokens_eq_ahead source
  cases herrors : (Cursor.ofText source).nextSound.1 with
  | nil =>
      rw [herrors] at hreported htokens
      exact .inl ⟨⟨Window.coherent_ofSource source, hreported⟩, htokens⟩
  | cons t later =>
      rw [herrors] at hreported htokens
      have hmem : t ∈ (Cursor.ofText source).nextSound.1 := by simp [herrors]
      exact .inr ⟨t, _, Cursor.error_of_mem_nextSound hmem, htokens, hreported⟩

theorem Intact.reportAt {c : Compilation α} (h : c.Intact) {t : Token} (hsound : t.kind ≠ .error)
    (m : Misfit) : (c.reportAt t m.message).window.Reported (some (m.diagnostic t)) := by
  rw [m.diagnostic_eq hsound]
  exact h.clean.reportAt t m.message

theorem Intact.advance_fit {c : Compilation α} (h : c.Intact) {r : Reading}
    (hmore : c.current.kind ≠ .eof) (hfit : r.misfit? c.current.kind = none) :
    (c.advance.Intact ∧ c.ahead = c.current :: c.advance.ahead ∧
        r.diagnosis? c.ahead = (r.after c.current.kind).diagnosis? c.advance.ahead) ∨
      ∃ found, c.advance.window.Reported (some found) ∧ r.diagnosis? c.ahead = some found := by
  rcases h.advance with ⟨hintact, hahead⟩ | ⟨t, later, herror, hahead, hreported⟩
  · refine .inl ⟨hintact, hahead hmore, ?_⟩
    rw [hahead hmore, Reading.diagnosis?_fit h.sound hfit]
  · refine .inr ⟨t.fault, hreported, ?_⟩
    rw [hahead, Reading.diagnosis?_fit h.sound hfit, Reading.diagnosis?_error _ herror]

/-! ## How a part of a compilation ends -/

/-- The compilation of a part of `tokens`, begun where the reader stood at `r`, ends in
`d`: it has passed a phrase with the property `P`, or reported what the reader says. -/
inductive Outcome (r : Reading) (tokens : List Token) (depth : Nat) (opened : List Opener)
    (P : List Token → Prop) (d : Compilation α) : Prop
  | failed {found : Diagnostic} : d.window.Reported (some found) →
      r.diagnosis? tokens = some found → Outcome r tokens depth opened P d
  | passed {taken : List Token} : d.Intact → d.depth = depth → tokens = taken ++ d.ahead →
      r.diagnosis? tokens = (d.reading false opened).diagnosis? d.ahead → P taken →
      Outcome r tokens depth opened P d

section Outcome

variable {r : Reading} {tokens : List Token} {depth : Nat} {opened : List Opener}
  {P Q : List Token → Prop} {c d : Compilation α}

theorem Outcome.mono (h : Outcome r tokens depth opened P d) (himp : ∀ taken, P taken → Q taken) :
    Outcome r tokens depth opened Q d := by
  cases h with
  | failed hreported hverdict => exact .failed hreported hverdict
  | passed hintact hdepth hsplit hverdict hP => exact .passed hintact hdepth hsplit hverdict (himp _ hP)

/-- Two parts in a row: a fault in the first stays, and otherwise the second goes on. -/
theorem Outcome.andThen {depth' : Nat} {opened' : List Opener} (h : Outcome r tokens depth opened P c)
    (hreaches : c.Reaches d)
    (hnext : ∀ taken, P taken → c.Intact → c.depth = depth →
      Outcome (c.reading false opened) c.ahead depth' opened' Q d) :
    Outcome r tokens depth' opened'
      (fun taken => ∃ first second, P first ∧ Q second ∧ taken = first ++ second) d := by
  cases h with
  | failed hreported hverdict => exact .failed (hreaches.reported hreported) hverdict
  | passed hintact hdepth hsplit hverdict hP =>
      cases hnext _ hP hintact hdepth with
      | failed hreported hverdict' => exact .failed hreported (hverdict.trans hverdict')
      | passed hintact' hdepth' hsplit' hverdict' hQ =>
          refine .passed hintact' hdepth' ?_ (hverdict.trans hverdict') ⟨_, _, hP, hQ, rfl⟩
          rw [hsplit, hsplit', List.append_assoc]

/-- A part behind a token that the reader has passed. -/
theorem Outcome.behind {r' : Reading} {t : Token} (h : Outcome r' tokens depth opened P d)
    (hverdict : r.diagnosis? (t :: tokens) = r'.diagnosis? tokens) :
    Outcome r (t :: tokens) depth opened (fun taken => ∃ body, taken = t :: body ∧ P body) d := by
  cases h with
  | failed hreported hverdict' => exact .failed hreported (hverdict.trans hverdict')
  | passed hintact hdepth hsplit hverdict' hP =>
      exact .passed hintact hdepth (by rw [hsplit]; rfl) (hverdict.trans hverdict') ⟨_, rfl, hP⟩

theorem Outcome.emit (h : Outcome r tokens depth opened P d) (op : Opcode) (line : Int) :
    Outcome r tokens depth opened P (d.emit op line) := by
  cases h with
  | failed hreported hverdict => exact .failed hreported hverdict
  | passed hintact hdepth hsplit hverdict hP =>
      exact .passed ⟨hintact.coherent, hintact.clean⟩ hdepth hsplit hverdict hP

theorem Outcome.leave (h : Outcome r tokens (depth + 1) opened P d) :
    Outcome r tokens depth opened P d.leave := by
  cases h with
  | failed hreported hverdict => exact .failed hreported hverdict
  | passed hintact hdepth hsplit hverdict hP =>
      refine .passed ⟨hintact.coherent, hintact.clean⟩ ?_ hsplit hverdict hP
      show d.depth - 1 = depth
      omega

end Outcome

end LoxBytecode.Compilation

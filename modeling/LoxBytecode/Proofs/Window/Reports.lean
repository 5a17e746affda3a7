import LoxBytecode.Proofs.Window.Operations

/-!
# What is kept of what is found

The errors of a source text are found by the moves over them, a token that is not the expected one
by the expectation, and whatever else there is by explicit reports.  Only the first fault is kept,
from the beginning or from a recovery up to the next one, and it is kept for good
(`keeps_first_of_each_stretch`).

A report may come when there is no token that it could be about: of any kind before the first move,
and at the token just passed before the second one.  Such a report fails, but the flags are up by
then.  So it is a fault as well, of which there is nothing to keep.
-/

namespace LoxBytecode

/-- What a report at a token says. -/
def Token.report (t : Token) (message : String) : Diagnostic := ⟨message, some t.line, t.location⟩

namespace Window

/-! ## What is found -/

/-- The errors right behind the token ahead. -/
def errorsBehind (w : Window) : List Token := w.ahead.tail.takeWhile (·.kind = .error)

/-- The faults that an operation finds, whether they are kept or not.  A fault that is about no
token has no diagnostic. -/
def faults (w : Window) : Operation → List (Option Diagnostic)
  | .advance => w.errorsBehind.map fun t => some t.fault
  | .expect kind message =>
    if w.check kind then w.errorsBehind.map fun t => some t.fault
    else [some (w.current.report message)]
  | .reportPrevious message => [w.previous.map (·.report message)]
  | .reportCurrent message => [some (w.current.report message)]
  | .check _ | .recover => []

end Window

namespace Lookout

open Window (Operation)

/-- The faults that an operation finds.  The errors in front of the first sound token are found by
the first move. -/
def faults : Lookout → Operation → List (Option Diagnostic)
  | up w, operation => w.faults operation
  | shut source _ _, operation =>
    match operation with
    | .advance => ((tokens source).takeWhile (·.kind = .error)).map fun t => some t.fault
    | .reportPrevious _ | .reportCurrent _ => [none]
    | .expect .. | .check _ | .recover => []

/-- Whether an operation is a report that fails. -/
def misses (l : Lookout) : Operation → Bool
  | .reportPrevious message => l.answer (.reportPrevious message) = .noToken
  | .reportCurrent message => l.answer (.reportCurrent message) = .noToken
  | .advance | .expect .. | .check _ | .recover => false

/-- The lookout that some operations leave, performed one after the other. -/
def after (l : Lookout) (operations : List Operation) : Lookout := operations.foldl perform l

/-- The faults that are found in the course of some operations, in the order in which they are. -/
def faultsIn (l : Lookout) : List Operation → List (Option Diagnostic)
  | [] => []
  | operation :: later => l.faults operation ++ (l.perform operation).faultsIn later

/-- Whether a report fails in the course of some operations. -/
def missesIn (l : Lookout) : List Operation → Bool
  | [] => false
  | operation :: later => l.misses operation || (l.perform operation).missesIn later

@[simp] theorem after_nil (l : Lookout) : l.after [] = l := rfl

@[simp] theorem after_cons (l : Lookout) (operation : Operation) (later : List Operation) :
    l.after (operation :: later) = (l.perform operation).after later := rfl

end Lookout

/-! ## Errors on the way -/

namespace Window

/-- Before the first sound token there are just the errors that are passed on the way to it. -/
theorem takeWhile_nextSound_append {c : Cursor} {w : Window} (h : w.current.kind ≠ .error) :
    (c.nextSound.1 ++ w.ahead).takeWhile (·.kind = .error) = c.nextSound.1 := by
  have herrors : ∀ t ∈ c.nextSound.1, decide (t.kind = .error) = true :=
    fun t ht => decide_eq_true (Cursor.error_of_mem_nextSound ht)
  have hnone : w.ahead.takeWhile (·.kind = .error) = [] :=
    List.takeWhile_cons_of_neg (by simpa using h)
  rw [List.takeWhile_append_of_pos herrors, hnone, List.append_nil]

theorem errorsBehind_eq {w : Window} (h : w.Coherent) : w.errorsBehind = w.cursor.nextSound.1 := by
  unfold errorsBehind
  by_cases heof : w.current.kind = .eof
  · rw [ahead_of_eof heof, h.nextSound_of_eof heof]
    rfl
  · rw [ahead_advance heof]
    exact takeWhile_nextSound_append w.coherent_advance.sound

theorem takeWhile_tokens (source : List Char) :
    (tokens source).takeWhile (·.kind = .error) = (Cursor.ofText source).nextSound.1 := by
  rw [tokens_eq_ahead]
  exact takeWhile_nextSound_append (coherent_ofSource source).sound

/-! ## One operation -/

section Step

variable {w : Window} {missed : Bool} {earlier : List Diagnostic}
  {found? : Option (Option Diagnostic)}

theorem kept_passing (h : w.reports.Kept missed earlier found?) (hcoherent : w.Coherent) :
    w.advance.reports.Kept missed earlier
      (found?.or (w.errorsBehind.map fun t => some t.fault).head?) := by
  rw [errorsBehind_eq hcoherent, List.head?_map]
  exact kept_advance h

/-- A report that is about no token puts the flags up, and there is nothing to be kept. -/
theorem Reports.Kept.miss {r : Reports} (h : r.Kept missed earlier found?) :
    ({ r with hasFailed := true, panicking := true } : Reports).Kept (missed || !r.panicking)
      earlier (found?.or (some none)) := by
  cases found? with
  | none =>
      have hcalm : r.panicking = false := h.panicking
      refine ⟨?_, rfl, h.diagnostics, fun _ => ?_⟩ <;> simp [hcalm]
  | some finding =>
      have hpanic : r.panicking = true := h.panicking
      have hraised := h.hasFailed_of_panicking hpanic
      rw [hpanic, Bool.not_true, Bool.or_false]
      exact ⟨hraised.symm.trans h.hasFailed, rfl, h.diagnostics, h.missed_of_found⟩

end Step

end Window

namespace Lookout

open Window (Operation Reports)

variable {l : Lookout} {missed : Bool} {earlier : List Diagnostic}
  {found? : Option (Option Diagnostic)}

theorem eq_up_of_window? {w : Window} (h : w ∈ l.window?) : l = up w := by
  cases l with
  | shut => cases h
  | up v => exact congrArg up (Option.some.inj h)

/-- A window that has come up is coherent. -/
def Coherent (l : Lookout) : Prop := ∀ w ∈ l.window?, w.Coherent

theorem Coherent.perform (h : l.Coherent) (operation : Operation) :
    (l.perform operation).Coherent := by
  intro w hw
  cases l with
  | up v =>
      cases hw
      exact (h v rfl).perform operation
  | shut source hasFailed panicking =>
      cases operation with
      | advance =>
          cases hw
          exact Window.coherent_comeUp source hasFailed panicking
      | expect | check | reportPrevious | reportCurrent | recover => cases hw

theorem Coherent.after (h : l.Coherent) (operations : List Operation) :
    (l.after operations).Coherent := by
  induction operations generalizing l with
  | nil => exact h
  | cons operation later ih => exact ih (h.perform operation)

theorem kept_perform_up {w : Window} (h : w.reports.Kept missed earlier found?)
    (hcoherent : w.Coherent) {operation : Operation} (hstretch : operation ≠ .recover) :
    (w.perform operation).reports.Kept (missed || (up w).misses operation) earlier
      (found?.or (w.faults operation).head?) := by
  have hmissed : (missed || false) = missed := Bool.or_false missed
  cases operation with
  | advance =>
      rw [misses, hmissed]
      exact Window.kept_passing h hcoherent
  | expect kind message =>
      rw [misses, hmissed]
      cases hcheck : w.check kind with
      | true =>
          have hmoved : w.perform (.expect kind message) = w.advance :=
            Window.perform_of_moves hcheck
          have hfaults : w.faults (.expect kind message) =
              w.errorsBehind.map fun t => some t.fault := if_pos hcheck
          rw [hmoved, hfaults]
          exact Window.kept_passing h hcoherent
      | false =>
          have hfaults : w.faults (.expect kind message) = [some (w.current.report message)] :=
            if_neg (by simp [hcheck])
          rw [Window.perform_refused hcheck, hfaults]
          exact Window.kept_reportAt h w.current message
  | check kind =>
      rw [misses, hmissed]
      show w.reports.Kept missed earlier (found?.or none)
      rwa [Option.or_none]
  | reportPrevious message =>
      show (w.reportPrevious message).reports.Kept _ earlier (found?.or (some _))
      cases hprevious : w.previous with
      | none =>
          -- in panic the report is dropped, so that it does not fail
          have hmisses : (up w).misses (.reportPrevious message) = !w.panicking := by
            simp only [misses, answer, Window.answer, hprevious]
            cases w.panicking <;> rfl
          have hraised : (w.reportPrevious message).reports =
              { w.reports with hasFailed := true, panicking := true } := by
            simp only [Window.reportPrevious, hprevious]
            rfl
          rw [hmisses, hraised]
          exact h.miss
      | some t =>
          have hmisses : (up w).misses (.reportPrevious message) = false := by
            simp [misses, answer, Window.answer, hprevious]
          have hreported : w.reportPrevious message = w.reportAt t message := by
            simp only [Window.reportPrevious, hprevious]
          rw [hmisses, hmissed, hreported]
          exact Window.kept_reportAt h t message
  | reportCurrent message =>
      rw [misses, answer, Window.answer, decide_eq_false nofun, hmissed]
      exact Window.kept_reportAt h w.current message
  | recover => exact absurd rfl hstretch

/-- **Step.**  If nothing has been found since the last recovery, the first fault that an operation
finds is kept, if there is a token that it is about. -/
theorem kept_perform (h : l.reports.Kept missed earlier found?) (hcoherent : l.Coherent)
    {operation : Operation} (hstretch : operation ≠ .recover) :
    (l.perform operation).reports.Kept (missed || l.misses operation) earlier
      (found?.or (l.faults operation).head?) := by
  cases l with
  | up w => exact kept_perform_up h (hcoherent w rfl) hstretch
  | shut source hasFailed panicking =>
      have hmissed : (missed || false) = missed := Bool.or_false missed
      cases operation with
      | advance =>
          rw [misses, hmissed, faults, List.head?_map, Window.takeWhile_tokens]
          exact Window.kept_comeUp h
      | expect | check =>
          rw [misses, hmissed]
          show ({ hasFailed, panicking } : Reports).Kept missed earlier (found?.or none)
          rwa [Option.or_none]
      | reportPrevious message | reportCurrent message =>
          have hmisses : ∀ a : Bool, decide ((if a then Window.Answer.done else .noToken) =
              .noToken) = !a := by decide
          rw [misses, answer, hmisses]
          exact h.miss
      | recover => exact absurd rfl hstretch

theorem kept_recover (h : l.reports.Kept missed earlier found?) :
    (l.perform .recover).reports.Kept missed l.reports.diagnostics none := by
  cases l with
  | up w => exact ⟨h.hasFailed, rfl, (List.append_nil _).symm, nofun⟩
  | shut => exact ⟨h.hasFailed, rfl, rfl, nofun⟩

/-! ## Many operations -/

/-- **Run.**  Without a recovery, the first fault of all is the one that may be kept. -/
theorem kept_stretch (h : l.reports.Kept missed earlier found?) (hcoherent : l.Coherent)
    {operations : List Operation} (hstretch : .recover ∉ operations) :
    (l.after operations).reports.Kept (missed || l.missesIn operations) earlier
      (found?.or (l.faultsIn operations).head?) := by
  induction operations generalizing l missed found? with
  | nil => simpa [faultsIn, missesIn] using h
  | cons operation later ih =>
      have hfirst : operation ≠ .recover := fun heq => hstretch (heq ▸ List.mem_cons_self)
      have hlater := ih (kept_perform h hcoherent hfirst) (hcoherent.perform operation)
        fun hmem => hstretch (List.mem_cons_of_mem _ hmem)
      rw [faultsIn, missesIn, List.head?_append, ← Option.or_assoc, ← Bool.or_assoc]
      exact hlater

/-- What is kept is kept for good, and so is the memory of a report that failed. -/
theorem exists_kept_after (h : l.reports.Kept missed earlier found?) (hcoherent : l.Coherent)
    (operations : List Operation) :
    ∃ earlier' found'?,
      (l.after operations).reports.Kept (missed || l.missesIn operations) earlier' found'? ∧
        l.reports.diagnostics <+: (l.after operations).reports.diagnostics := by
  induction operations generalizing l missed earlier found? with
  | nil => exact ⟨earlier, found?, by simpa [missesIn] using h, List.prefix_rfl⟩
  | cons operation later ih =>
      have hstep : ∃ earlier' found'?,
          (l.perform operation).reports.Kept (missed || l.misses operation) earlier' found'? ∧
            l.reports.diagnostics <+: (l.perform operation).reports.diagnostics := by
        by_cases hrecover : operation = .recover
        · -- what has been kept so far lies behind the new stretch
          subst hrecover
          have hkept := kept_recover h
          refine ⟨_, _, by rwa [misses, Bool.or_false], ?_⟩
          rw [hkept.diagnostics]
          exact List.prefix_append _ _
        · have hkept := kept_perform h hcoherent hrecover
          refine ⟨_, _, hkept, ?_⟩
          rw [hkept.diagnostics, h.diagnostics]
          cases found? with
          | none => exact (List.prefix_append_right_inj earlier).mpr List.nil_prefix
          | some finding => exact List.prefix_rfl
      obtain ⟨_, _, hkept, hgrown⟩ := hstep
      obtain ⟨earlier', found'?, hkept', hgrown'⟩ := ih hkept (hcoherent.perform operation)
      rw [Bool.or_assoc] at hkept'
      exact ⟨earlier', found'?, hkept', hgrown.trans hgrown'⟩

/-! ## Where every report has its token -/

/-- From the second move on no report fails. -/
theorem missesIn_of_passed {w : Window} (h : w.previous.isSome) (operations : List Operation) :
    (up w).missesIn operations = false := by
  induction operations generalizing w with
  | nil => rfl
  | cons operation later ih =>
      have hmisses : (up w).misses operation = false := by
        cases operation with
        | reportPrevious message =>
            obtain ⟨t, ht⟩ := Option.isSome_iff_exists.mp h
            simp [misses, answer, Window.answer, ht]
        | advance | expect | check | reportCurrent | recover => rfl
      have hpassed : (w.perform operation).previous.isSome := by
        cases hmoves : w.moves operation with
        | true =>
            rw [Window.perform_of_moves hmoves, Window.previous_advance]
            rfl
        | false =>
            rw [(Window.still_of_not_moves hmoves).previous]
            exact h
      rw [missesIn, hmisses, Bool.false_or]
      exact ih hpassed

/-! ## What is left of it all -/

theorem kept_ofSource (source : List Char) : (ofSource source).reports.Kept false [] none :=
  ⟨rfl, rfl, rfl, nofun⟩

theorem coherent_ofSource (source : List Char) : (ofSource source).Coherent := by
  intro w hw
  cases hw

theorem join_head?_toList {β : Type} (l : List (Option β)) :
    l.head?.join.toList = (l.take 1).reduceOption := by
  cases l with
  | nil => rfl
  | cons first later => cases first <;> rfl

/-- **One report for each stretch.**  After any operations from the beginning on, the flag for a
failure is up just if a diagnostic has been kept or a report has failed, and in panic it is up.  It
is never taken down, and diagnostics are only ever added.  From the beginning or from a recovery up
to the next one at most one is added, namely the first fault that is found in this stretch; and if
that is a report that failed, none is.  From the second move on no report fails. -/
theorem keeps_first_of_each_stretch (source : List Char) (operations : List Operation) :
    let start := ofSource source
    let l := start.after operations
    (l.reports.hasFailed = true ↔
        l.reports.diagnostics ≠ [] ∨ start.missesIn operations = true) ∧
      (l.reports.panicking = true → l.reports.hasFailed = true) ∧
      (∀ later, (l.reports.hasFailed = true → (l.after later).reports.hasFailed = true) ∧
        l.reports.diagnostics <+: (l.after later).reports.diagnostics) ∧
      (∀ stretch, .recover ∉ stretch →
        ((l.perform .recover).after stretch).reports.diagnostics =
          l.reports.diagnostics ++
            (((l.perform .recover).faultsIn stretch).take 1).reduceOption) ∧
      (.recover ∉ operations →
        l.reports.diagnostics = ((start.faultsIn operations).take 1).reduceOption) ∧
      ∀ w ∈ l.window?, w.previous.isSome → ∀ later, l.missesIn later = false := by
  intro start l
  have hstart : start.reports.Kept false [] none := kept_ofSource source
  have hcoherent : l.Coherent := (coherent_ofSource source).after operations
  obtain ⟨earlier, found?, hkept, -⟩ :=
    exists_kept_after hstart (coherent_ofSource source) operations
  rw [Bool.false_or] at hkept
  have hraised : l.reports.hasFailed = true ↔
      l.reports.diagnostics ≠ [] ∨ start.missesIn operations = true := by
    rw [hkept.hasFailed]
    cases l.reports.diagnostics <;> simp
  refine ⟨hraised, hkept.hasFailed_of_panicking, fun later => ?_, fun stretch hstretch => ?_,
    fun hstretch => ?_, fun w hw hpassed later => ?_⟩
  · -- neither a diagnostic nor a report that failed is ever forgotten
    obtain ⟨_, _, hlater, hgrown⟩ := exists_kept_after hkept hcoherent later
    refine ⟨fun hfailed => ?_, hgrown⟩
    rw [hlater.hasFailed]
    rcases hraised.mp hfailed with hsome | hmissed
    · have hmore : (l.after later).reports.diagnostics ≠ [] := fun hnone =>
        hsome (List.prefix_nil.mp (hnone ▸ hgrown))
      rw [List.isEmpty_eq_false_iff.mpr hmore, Bool.not_false, Bool.or_true]
    · rw [hmissed, Bool.true_or, Bool.true_or]
  · have hadded := kept_stretch (kept_recover hkept) (hcoherent.perform .recover) hstretch
    rw [hadded.diagnostics, Option.none_or, join_head?_toList]
  · have hall := kept_stretch hstart (coherent_ofSource source) hstretch
    rw [hall.diagnostics, List.nil_append, Option.none_or, join_head?_toList]
  · rw [eq_up_of_window? hw]
    exact missesIn_of_passed hpassed later

/-- A report at the token just passed comes before there is one.  It fails with the flags up, and
nothing is kept. -/
theorem keeps_first_of_each_stretch_missed_report :
    let w := (ofSource "1".toList).perform .advance
    let l := w.perform (.reportPrevious "Odd.")
    w.answer (.reportPrevious "Odd.") = .noToken ∧ l.reports.panicking = true ∧
      l.reports.hasFailed = true ∧ l.reports.diagnostics = [] ∧
      ¬∀ (source : List Char) (operations : List Operation),
        let r := ((ofSource source).after operations).reports
        r.hasFailed = true ↔ r.diagnostics ≠ [] := by
  intro w l
  have hraised : l.reports = ⟨true, true, []⟩ := by decide +kernel
  refine ⟨by decide +kernel, congrArg _ hraised, congrArg _ hraised, congrArg _ hraised,
    fun halways => ?_⟩
  have hfailed : l.reports.hasFailed = true := congrArg _ hraised
  exact (halways "1".toList [.advance, .reportPrevious "Odd."]).mp hfailed (congrArg _ hraised)

/-- Two errors are passed by the first move of a stretch.  The first of them is kept, and nothing
that is found behind it. -/
example :
    let l := ((ofSource "1\n# $ 2 ? 3".toList).perform .advance).perform .recover
    let stretch : List Operation :=
      [.advance, .reportPrevious "Late.", .expect .number "No number.", .reportCurrent "Odd."]
    (l.faultsIn stretch).length = 5 ∧
      (l.after stretch).reports.diagnostics = [⟨"Unexpected character.", some 2, ""⟩] := by
  decide +kernel

end Lookout

end LoxBytecode

import LoxBytecode.Proofs.Cursor.Stream
import LoxBytecode.Window.Operation
import LoxBytecode.Window.Progress

/-!
# The window over its stream

A window that has come from the beginning of a source text is *coherent*: the token
ahead is no error, and if it is the end of the text, then the end is all that comes.
What is ahead of such a window is a list of tokens, and moving on takes one sound
token off it, together with the errors behind that token.

From one recovery to the next only the first fault is ever kept, if there is a token that
it is about.  `Kept` says which one that is, if any; a report adds to it what `Option.or`
adds.  `Reported` says the same of a window that has never recovered and whose faults all
have their tokens.
-/

namespace LoxBytecode

/-- The diagnostic for a token that stands for faulty text. -/
def Token.fault (t : Token) : Diagnostic := ⟨t.message.getD "", some t.line, ""⟩

theorem Token.location_of_error {t : Token} (h : t.kind = .error) : t.location = "" := by
  simp [location, h]

namespace Window

/-! ## What is ahead -/

/-- The tokens from the one ahead up to the end of the text, errors included. -/
def ahead (w : Window) : List Token :=
  w.current :: if w.current.kind = .eof then [] else w.cursor.readAll.1

theorem ahead_of_eof {w : Window} (h : w.current.kind = .eof) : w.ahead = [w.current] := by
  rw [ahead, if_pos h]

/-- The token ahead is sound, and behind the end of the text there is only the end. -/
structure Coherent (w : Window) : Prop where
  sound : w.current.kind ≠ .error
  nextToken_of_eof : w.current.kind = .eof → w.cursor.nextToken = (w.current, w.cursor)

theorem Coherent.nextSound_of_eof {w : Window} (h : w.Coherent) (heof : w.current.kind = .eof) :
    w.cursor.nextSound = ([], w.current, w.cursor) := by
  have hnext := h.nextToken_of_eof heof
  rw [Cursor.nextSound_of_sound (by rw [hnext]; exact h.sound), hnext]

/-! ## What reports leave alone -/

@[simp] theorem cursor_reportErrors (w : Window) (errors : List Token) :
    (w.reportErrors errors).cursor = w.cursor := by
  unfold reportErrors
  induction errors generalizing w with
  | nil => rfl
  | cons t later ih => simp [ih]

@[simp] theorem current_reportErrors (w : Window) (errors : List Token) :
    (w.reportErrors errors).current = w.current := by
  unfold reportErrors
  induction errors generalizing w with
  | nil => rfl
  | cons t later ih => simp [ih]

@[simp] theorem previous_reportErrors (w : Window) (errors : List Token) :
    (w.reportErrors errors).previous = w.previous := by
  unfold reportErrors
  induction errors generalizing w with
  | nil => rfl
  | cons t later ih => simp [ih]

/-! ## Moving on -/

@[simp] theorem current_advance (w : Window) : w.advance.current = w.cursor.nextSound.2.1 := by
  simp [advance]

@[simp] theorem cursor_advance (w : Window) : w.advance.cursor = w.cursor.nextSound.2.2 := by
  simp [advance]

@[simp] theorem previous_advance (w : Window) : w.advance.previous = some w.current := by
  simp [advance]

theorem coherent_advance (w : Window) : w.advance.Coherent := by
  constructor
  · simpa using w.cursor.nextSound_kind_ne_error
  · intro heof
    rw [current_advance] at heof
    simp [Cursor.nextToken_of_nextSound_eof heof]

theorem ahead_advance {w : Window} (h : w.current.kind ≠ .eof) :
    w.ahead = w.current :: (w.cursor.nextSound.1 ++ w.advance.ahead) := by
  rw [ahead, if_neg h, Cursor.readAll_eq_nextSound]
  simp [ahead]

/-- The window at the beginning of a source text has all its tokens ahead but the
errors that come first. -/
theorem tokens_eq_ahead (source : List Char) :
    tokens source =
      (Cursor.ofText source).nextSound.1 ++ (ofSource source).ahead := by
  rw [tokens, Cursor.readAll_eq_nextSound]
  simp [ofSource, comeUp, ahead]

theorem coherent_comeUp (source : List Char) (hasFailed panicking : Bool) :
    (comeUp source hasFailed panicking).Coherent := by
  constructor
  · simpa [comeUp] using (Cursor.ofText source).nextSound_kind_ne_error
  · intro heof
    simp only [comeUp, current_reportErrors] at heof
    simp [comeUp, Cursor.nextToken_of_nextSound_eof heof]

theorem coherent_ofSource (source : List Char) : (ofSource source).Coherent :=
  coherent_comeUp source false false

/-! ## Sound tokens -/

/-- The tokens ahead that are no errors. -/
def remaining (w : Window) : List Token := w.ahead.filter (·.kind ≠ .error)

theorem remaining_advance {w : Window} (hmore : w.current.kind ≠ .eof)
    (hsound : w.current.kind ≠ .error) : w.remaining = w.current :: w.advance.remaining := by
  unfold remaining
  rw [ahead_advance hmore, List.filter_cons, if_pos (decide_eq_true hsound), List.filter_append,
    Cursor.filter_nextSound, List.nil_append]

theorem exists_remaining {w : Window} (hsound : w.current.kind ≠ .error) :
    ∃ later, w.remaining = w.current :: later := by
  unfold remaining ahead
  rw [List.filter_cons, if_pos (decide_eq_true hsound)]
  exact ⟨_, rfl⟩

theorem remaining_ofSource (source : List Char) :
    (ofSource source).remaining = (tokens source).filter (·.kind ≠ .error) := by
  rw [tokens_eq_ahead, List.filter_append, Cursor.filter_nextSound, List.nil_append]
  rfl

/-! ## Moving over sound tokens -/

/-- The window moved on by as many tokens as are given. -/
def past (body : List Token) (w : Window) : Window := body.foldl (fun w _ => w.advance) w

@[simp] theorem past_nil (w : Window) : w.past [] = w := rfl

@[simp] theorem past_cons (t : Token) (body : List Token) (w : Window) :
    w.past (t :: body) = w.advance.past body := rfl

@[simp] theorem past_append (first second : List Token) (w : Window) :
    w.past (first ++ second) = (w.past first).past second := by
  simp [past]

/-- Just the given tokens are ahead, and none of them is an error. -/
structure Awaits (w : Window) (tokens : List Token) : Prop where
  ahead : w.ahead = tokens
  sound : ∀ t ∈ tokens, t.kind ≠ .error

theorem Awaits.current {w : Window} {t : Token} {later : List Token} (h : w.Awaits (t :: later)) :
    w.current = t :=
  (List.cons.inj h.ahead).1

theorem Awaits.current_mem_head? {w : Window} {tokens : List Token} (h : w.Awaits tokens) :
    w.current ∈ tokens.head? := by
  rw [← h.ahead]
  rfl

theorem Awaits.advance {w : Window} {t : Token} {later : List Token} (h : w.Awaits (t :: later))
    (hmore : t.kind ≠ .eof) : w.advance.Awaits later := by
  obtain rfl := h.current
  have hahead := h.ahead.symm.trans (ahead_advance hmore)
  have hlater := (List.cons.inj hahead).2
  have herrors : w.cursor.nextSound.1 = [] := by
    refine List.eq_nil_iff_forall_not_mem.mpr fun t ht => ?_
    refine h.sound t ?_ (Cursor.error_of_mem_nextSound ht)
    rw [hlater]
    exact List.mem_cons_of_mem _ (List.mem_append_left _ ht)
  rw [herrors, List.nil_append] at hlater
  exact ⟨hlater.symm, fun t ht => h.sound t (List.mem_cons_of_mem _ ht)⟩

theorem Awaits.past {body later : List Token} {w : Window} (h : w.Awaits (body ++ later))
    (hmore : ∀ t ∈ body, t.kind ≠ .eof) : (w.past body).Awaits later := by
  induction body generalizing w with
  | nil => exact h
  | cons t body ih =>
      have hstep : w.advance.Awaits (body ++ later) := h.advance (hmore t List.mem_cons_self)
      exact ih hstep fun u hu => hmore u (List.mem_cons_of_mem _ hu)

/-! ## What is kept -/

namespace Reports

/-- Just `earlier` has been kept up to the last recovery.  The first fault since then, if any, is
`found?`, and it has been kept unless there was no token that it is about; `missed` says whether
there ever was such a fault. -/
structure Kept (r : Reports) (missed : Bool) (earlier : List Diagnostic)
    (found? : Option (Option Diagnostic)) : Prop where
  hasFailed : r.hasFailed = (missed || !r.diagnostics.isEmpty)
  panicking : r.panicking = found?.isSome
  diagnostics : r.diagnostics = earlier ++ found?.join.toList
  missed_of_found : found? = some none → missed = true

theorem Kept.hasFailed_of_panicking {r : Reports} {missed : Bool} {earlier : List Diagnostic}
    {found? : Option (Option Diagnostic)} (h : r.Kept missed earlier found?)
    (hpanic : r.panicking = true) : r.hasFailed = true := by
  rw [h.hasFailed, h.diagnostics]
  rw [h.panicking] at hpanic
  cases found? with
  | none => cases hpanic
  | some finding =>
      cases finding with
      | none => rw [h.missed_of_found rfl, Bool.true_or]
      | some d => simp

end Reports

section Kept

variable {w : Window} {missed : Bool} {earlier : List Diagnostic}
  {found? : Option (Option Diagnostic)}

theorem kept_reportAt (h : w.reports.Kept missed earlier found?) (t : Token) (message : String) :
    (w.reportAt t message).reports.Kept missed earlier
      (found?.or (some (some ⟨message, some t.line, t.location⟩))) := by
  have hpanic : w.panicking = found?.isSome := h.panicking
  have hkept : w.diagnostics = earlier ++ found?.join.toList := h.diagnostics
  unfold reportAt
  cases found? with
  | none =>
      rw [if_neg (by simp [hpanic])]
      exact ⟨by simp [reports], rfl, by simp [reports, hkept], nofun⟩
  | some finding =>
      -- in panic nothing is added, and the flag is up already
      have hraised : w.hasFailed = true := h.hasFailed_of_panicking hpanic
      rw [if_pos (by simp [hpanic])]
      exact ⟨hraised.symm.trans h.hasFailed, h.panicking, h.diagnostics, h.missed_of_found⟩

theorem kept_reportErrors (h : w.reports.Kept missed earlier found?) {errors : List Token}
    (herrors : ∀ t ∈ errors, t.kind = .error) :
    (w.reportErrors errors).reports.Kept missed earlier
      (found?.or (errors.head?.map fun t => some t.fault)) := by
  induction errors generalizing w found? with
  | nil => simpa [reportErrors] using h
  | cons t later ih =>
      have hfirst := kept_reportAt h t (t.message.getD "")
      rw [Token.location_of_error (herrors t List.mem_cons_self)] at hfirst
      have hrest := ih hfirst fun u hu => herrors u (List.mem_cons_of_mem _ hu)
      rw [Option.or_assoc, Option.some_or] at hrest
      exact hrest

theorem kept_advance (h : w.reports.Kept missed earlier found?) :
    w.advance.reports.Kept missed earlier
      (found?.or (w.cursor.nextSound.1.head?.map fun t => some t.fault)) := by
  have hmoved : ({ w with
      cursor := w.cursor.nextSound.2.2
      previous := some w.current
      current := w.cursor.nextSound.2.1 } : Window).reports.Kept missed earlier found? := h
  exact kept_reportErrors hmoved fun _ => Cursor.error_of_mem_nextSound

theorem kept_comeUp {source : List Char} {hasFailed panicking : Bool}
    (h : ({ hasFailed, panicking } : Reports).Kept missed earlier found?) :
    (comeUp source hasFailed panicking).reports.Kept missed earlier
      (found?.or ((Cursor.ofText source).nextSound.1.head?.map fun t => some t.fault)) := by
  have hmoved : ({
      cursor := (Cursor.ofText source).nextSound.2.2
      current := (Cursor.ofText source).nextSound.2.1
      hasFailed
      panicking } : Window).reports.Kept missed earlier found? := h
  exact kept_reportErrors hmoved fun _ => Cursor.error_of_mem_nextSound

end Kept

/-! ## The first fault -/

/-- The window has kept just `found?`, the first fault of its source text, if any. -/
structure Reported (w : Window) (found? : Option Diagnostic) : Prop where
  hasFailed : w.hasFailed = found?.isSome
  panicking : w.panicking = found?.isSome
  diagnostics : w.diagnostics = found?.toList

theorem reported_iff_kept {w : Window} {found? : Option Diagnostic} :
    w.Reported found? ↔ w.reports.Kept false [] (found?.map some) := by
  constructor
  · intro h
    refine ⟨?_, ?_, ?_, ?_⟩
    · simp only [reports, h.hasFailed, h.diagnostics]
      cases found? <;> rfl
    · simp only [reports, h.panicking, Option.isSome_map]
    · simp only [reports, h.diagnostics]
      cases found? <;> rfl
    · cases found? <;> nofun
  · intro h
    have hkept : w.diagnostics = found?.toList := by
      refine Eq.trans h.diagnostics ?_
      cases found? <;> rfl
    have hfailed : w.hasFailed = !w.diagnostics.isEmpty := h.hasFailed
    refine ⟨?_, ?_, hkept⟩
    · rw [hfailed, hkept]
      cases found? <;> rfl
    · exact Eq.trans h.panicking Option.isSome_map

theorem Reported.reportAt {w : Window} {found? : Option Diagnostic} (h : w.Reported found?)
    (t : Token) (message : String) :
    (w.reportAt t message).Reported (found?.or (some ⟨message, some t.line, t.location⟩)) := by
  rw [reported_iff_kept, Option.map_or]
  exact kept_reportAt (reported_iff_kept.mp h) t message

theorem Reported.advance {w : Window} {found? : Option Diagnostic} (h : w.Reported found?) :
    w.advance.Reported (found?.or (w.cursor.nextSound.1.head?.map Token.fault)) := by
  rw [reported_iff_kept, Option.map_or, Option.map_map]
  exact kept_advance (reported_iff_kept.mp h)

theorem reported_ofSource (source : List Char) :
    (ofSource source).Reported ((Cursor.ofText source).nextSound.1.head?.map Token.fault) := by
  have hstart : ({} : Reports).Kept false [] none := ⟨rfl, rfl, rfl, nofun⟩
  rw [reported_iff_kept, Option.map_map]
  exact kept_comeUp hstart

/-! ## Faults stay -/

@[simp] theorem hasFailed_reportAt (w : Window) (t : Token) (message : String) :
    (w.reportAt t message).hasFailed = true := by
  unfold reportAt
  split <;> rfl

theorem hasFailed_reportErrors {w : Window} (h : w.hasFailed = true) (errors : List Token) :
    (w.reportErrors errors).hasFailed = true := by
  unfold reportErrors
  induction errors generalizing w with
  | nil => exact h
  | cons t later ih => exact ih (w.hasFailed_reportAt t _)

theorem hasFailed_advance {w : Window} (h : w.hasFailed = true) : w.advance.hasFailed = true := by
  unfold advance
  exact hasFailed_reportErrors (w := { w with
    cursor := w.cursor.nextSound.2.2
    previous := some w.current
    current := w.cursor.nextSound.2.1 }) h _

end Window

end LoxBytecode

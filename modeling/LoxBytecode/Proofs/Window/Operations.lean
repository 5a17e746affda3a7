import LoxBytecode.Proofs.Window.Stream

/-!
# What comes into view

A window is moved on, asked about the token ahead, told to report, and told to recover, in any
order.  Only a move changes what is in view, whatever is reported in the middle of it.  So the
tokens that come to be ahead, one after the other, are those of the source text, with its errors
left out and its end repeated as often as need be (`currents_follow_tokens`).
-/

namespace LoxBytecode.Window

/-! ## Operations -/

/-- Whether an operation moves the window. -/
def moves (w : Window) : Operation → Bool
  | .advance => true
  | .expect kind _ => w.check kind
  | .check _ | .reportPrevious _ | .reportCurrent _ | .recover => false

/-- The window that some operations leave, performed one after the other. -/
def after (w : Window) (operations : List Operation) : Window := operations.foldl perform w

/-- The tokens that come to be ahead in the course of some operations: the one that is ahead in the
beginning, and one for each move. -/
def currents (w : Window) : List Operation → List Token
  | [] => [w.current]
  | operation :: later =>
    if w.moves operation then w.current :: (w.perform operation).currents later
    else (w.perform operation).currents later

@[simp] theorem after_nil (w : Window) : w.after [] = w := rfl

@[simp] theorem after_cons (w : Window) (operation : Operation) (later : List Operation) :
    w.after (operation :: later) = (w.perform operation).after later := rfl

/-! ## What an operation changes -/

/-- The same tokens are in view, and the source text has been read equally far. -/
structure Still (w v : Window) : Prop where
  cursor : v.cursor = w.cursor
  previous : v.previous = w.previous
  current : v.current = w.current

theorem still_reportAt (w : Window) (t : Token) (message : String) :
    w.Still (w.reportAt t message) :=
  ⟨w.cursor_reportAt t message, w.previous_reportAt t message, w.current_reportAt t message⟩

theorem perform_of_moves {w : Window} {operation : Operation} (h : w.moves operation = true) :
    w.perform operation = w.advance := by
  cases operation with
  | advance => rfl
  | expect kind message => exact if_pos h
  | check | reportPrevious | reportCurrent | recover => cases h

theorem perform_refused {w : Window} {kind : Token.Kind} (h : w.check kind = false)
    (message : String) : w.perform (.expect kind message) = w.reportAt w.current message := by
  have hcheck : ¬w.check kind = true := Bool.eq_false_iff.mp h
  exact if_neg hcheck

/-- What does not move the window leaves it where it is. -/
theorem still_of_not_moves {w : Window} {operation : Operation} (h : w.moves operation = false) :
    w.Still (w.perform operation) := by
  cases operation with
  | advance => cases h
  | expect kind message =>
      rw [perform_refused h]
      exact w.still_reportAt w.current message
  | check kind => exact ⟨rfl, rfl, rfl⟩
  | reportPrevious message =>
      show w.Still (w.reportPrevious message)
      unfold reportPrevious
      split
      · exact w.still_reportAt _ message
      · exact ⟨rfl, rfl, rfl⟩
  | reportCurrent message => exact w.still_reportAt w.current message
  | recover => exact ⟨rfl, rfl, rfl⟩

theorem Coherent.still {w v : Window} (h : w.Coherent) (hstill : w.Still v) : v.Coherent := by
  constructor
  · rw [hstill.current]
    exact h.sound
  · rw [hstill.current, hstill.cursor]
    exact h.nextToken_of_eof

theorem Coherent.perform {w : Window} (h : w.Coherent) (operation : Operation) :
    (w.perform operation).Coherent := by
  cases hmoves : w.moves operation with
  | true =>
      rw [perform_of_moves hmoves]
      exact w.coherent_advance
  | false => exact h.still (still_of_not_moves hmoves)

theorem Coherent.after {w : Window} (h : w.Coherent) (operations : List Operation) :
    (w.after operations).Coherent := by
  induction operations generalizing w with
  | nil => exact h
  | cons operation later ih => exact ih (h.perform operation)

/-! ## What is still to come -/

/-- The sound tokens ahead are `body`, and behind them there is nothing but `stop`. -/
structure Faces (w : Window) (body : List Token) (stop : Token) : Prop where
  coherent : w.Coherent
  remaining : w.remaining = body ++ [stop]
  ends : stop.kind = .eof
  more : ∀ t ∈ body, t.kind ≠ .eof

theorem Faces.still {w v : Window} {body : List Token} {stop : Token} (h : w.Faces body stop)
    (hstill : w.Still v) : v.Faces body stop := by
  have hahead : v.ahead = w.ahead := by rw [ahead, hstill.current, hstill.cursor]; rfl
  have hremaining : v.remaining = w.remaining := by rw [Window.remaining, hahead]; rfl
  exact ⟨h.coherent.still hstill, hremaining.trans h.remaining, h.ends, h.more⟩

theorem Faces.current {w : Window} {body : List Token} {stop : Token} (h : w.Faces body stop) :
    w.current = body.headD stop := by
  obtain ⟨later, hlater⟩ := exists_remaining h.coherent.sound
  have hsplit : w.current :: later = body ++ [stop] := hlater.symm.trans h.remaining
  cases body with
  | nil => exact (List.cons.inj hsplit).1
  | cons t body => exact (List.cons.inj hsplit).1

/-- **Step.**  A move takes one sound token off what is ahead, unless only the end is. -/
theorem Faces.advance {w : Window} {body : List Token} {stop : Token} (h : w.Faces body stop) :
    w.advance.Faces body.tail stop := by
  have hcurrent := h.current
  cases body with
  | nil =>
      -- the end of the text is read again from where it has been read
      have heof : w.current.kind = .eof := by rw [hcurrent]; exact h.ends
      have hsame := h.coherent.nextSound_of_eof heof
      have hstop : w.advance.current = stop := by rw [current_advance, hsame]; exact hcurrent
      have hsound : stop.kind ≠ .error := by rw [h.ends]; decide
      refine ⟨w.coherent_advance, ?_, h.ends, h.more⟩
      rw [Window.remaining, ahead_of_eof (hstop ▸ h.ends), hstop]
      exact List.filter_cons_of_pos (by simpa using hsound)
  | cons t body =>
      have hmore : w.current.kind ≠ .eof := by
        rw [hcurrent]
        exact h.more t List.mem_cons_self
      have hsplit := (remaining_advance hmore h.coherent.sound).symm.trans h.remaining
      exact ⟨w.coherent_advance, (List.cons.inj hsplit).2, h.ends,
        fun u hu => h.more u (List.mem_cons_of_mem _ hu)⟩

theorem Faces.perform {w : Window} {body : List Token} {stop : Token} (h : w.Faces body stop)
    (operation : Operation) :
    (w.perform operation).Faces (if w.moves operation then body.tail else body) stop := by
  cases hmoves : w.moves operation with
  | true =>
      rw [perform_of_moves hmoves]
      exact h.advance
  | false => exact h.still (still_of_not_moves hmoves)

theorem faces_ofSource (source : List Char) :
    ∃ body stop, (tokens source).filter (·.kind ≠ .error) = body ++ [stop] ∧
      (ofSource source).Faces body stop := by
  obtain ⟨before, stop, hsplit, hstop, hbefore⟩ := (Cursor.ofText source).readAll_eq_append
  have hsound : [stop].filter (·.kind ≠ .error) = [stop] :=
    List.filter_cons_of_pos (by simp [hstop])
  have htokens : (tokens source).filter (·.kind ≠ .error) =
      before.filter (·.kind ≠ .error) ++ [stop] := by
    rw [tokens, hsplit, List.filter_append, hsound]
  exact ⟨_, stop, htokens, coherent_ofSource source, (remaining_ofSource source).trans htokens, hstop,
    fun t ht => hbefore t (List.mem_filter.mp ht).1⟩

/-! ## What has come into view -/

/-- **Run.** -/
theorem Faces.currents_prefix {w : Window} {body : List Token} {stop : Token}
    (h : w.Faces body stop) (operations : List Operation) :
    ∃ n, w.currents operations <+: body ++ List.replicate n stop := by
  induction operations generalizing w body with
  | nil =>
      refine ⟨1, ?_⟩
      rw [currents, h.current]
      cases body with
      | nil => exact List.prefix_rfl
      | cons t body => exact List.prefix_append [t] _
  | cons operation later ih =>
      obtain ⟨n, hn⟩ := ih (h.perform operation)
      cases hmoves : w.moves operation with
      | false =>
          rw [hmoves] at hn
          rw [currents, hmoves]
          exact ⟨n, hn⟩
      | true =>
          rw [hmoves] at hn
          rw [currents, hmoves, h.current]
          cases body with
          | nil => exact ⟨n + 1, List.cons_prefix_cons.mpr ⟨rfl, hn⟩⟩
          | cons t body => exact ⟨n, List.cons_prefix_cons.mpr ⟨rfl, hn⟩⟩

/-- The last token that has come to be ahead is ahead now, and the one before it has just been
passed. -/
theorem exists_passed (w : Window) (operations : List Operation) :
    ∃ passed, w.currents operations = passed ++ [(w.after operations).current] ∧
      (w.after operations).previous = (w.previous.toList ++ passed).getLast? := by
  induction operations generalizing w with
  | nil =>
      refine ⟨[], rfl, ?_⟩
      cases hprevious : w.previous <;> simp [hprevious]
  | cons operation later ih =>
      obtain ⟨passed, hcurrents, hprevious⟩ := ih (w.perform operation)
      cases hmoves : w.moves operation with
      | false =>
          rw [(still_of_not_moves hmoves).previous] at hprevious
          rw [currents, hmoves]
          exact ⟨passed, hcurrents, hprevious⟩
      | true =>
          have hpassed : (w.perform operation).previous = some w.current := by
            rw [perform_of_moves hmoves, previous_advance]
          refine ⟨w.current :: passed, ?_, ?_⟩
          · rw [currents, hmoves, if_pos rfl, hcurrents]
            rfl
          · rw [after_cons, hprevious, hpassed]
            simp [List.getLast?_append, List.getLast?_cons]

/-! ## The first move -/

/-- The window, as if no token had been passed. -/
def unpassed (w : Window) : Window := { w with previous := none }

theorem unpassed_reportAt (w : Window) (t : Token) (message : String) :
    w.unpassed.reportAt t message = (w.reportAt t message).unpassed := by
  unfold reportAt unpassed
  dsimp only
  split <;> rfl

theorem unpassed_reportErrors (errors : List Token) (w : Window) :
    w.unpassed.reportErrors errors = (w.reportErrors errors).unpassed := by
  induction errors generalizing w with
  | nil => rfl
  | cons t later ih =>
      show (w.unpassed.reportAt t _).reportErrors later = ((w.reportAt t _).reportErrors later).unpassed
      rw [unpassed_reportAt, ih]

/-- A move from in front of the text brings the window up.  No token has been passed then, and it
does not matter what is taken to be ahead before. -/
theorem ofSource_eq_advance (source : List Char) (t : Token) :
    ofSource source = (advance { cursor := .ofText source, current := t }).unpassed := by
  let errors := (Cursor.ofText source).nextSound.1
  let moved : Window := {
    cursor := (Cursor.ofText source).nextSound.2.2
    previous := some t
    current := (Cursor.ofText source).nextSound.2.1 }
  show moved.unpassed.reportErrors errors = (moved.reportErrors errors).unpassed
  exact unpassed_reportErrors errors moved

/-! ## All that comes into view -/

/-- **What comes into view is the source text.**  A first move brings the window up.  Whatever is
asked of it then, the tokens that come to be ahead, one for each move, are the sound tokens of the
source text, in their order and with the end of the text repeated.  The one before the last is the
token just passed, if there has been a second move; and neither this one nor the one ahead is ever
an error.  What does not move the window leaves it where it is, and its cursor too. -/
theorem currents_follow_tokens (source : List Char) :
    (∀ t, ofSource source = (advance { cursor := .ofText source, current := t }).unpassed) ∧
      ∃ body stop, (tokens source).filter (·.kind ≠ .error) = body ++ [stop] ∧
        stop.kind = .eof ∧ (∀ t ∈ body, t.kind ≠ .eof) ∧
        ∀ operations,
          let w := (ofSource source).after operations
          (∃ n, (ofSource source).currents operations <+: body ++ List.replicate n stop) ∧
          (∃ passed, (ofSource source).currents operations = passed ++ [w.current] ∧
            w.previous = passed.getLast?) ∧
          w.current.kind ≠ .error ∧ (∀ t ∈ w.previous, t.kind ≠ .error) ∧
          ∀ operation,
            if w.moves operation then (w.perform operation).previous = some w.current
            else w.Still (w.perform operation) := by
  obtain ⟨body, stop, htokens, hfaces⟩ := faces_ofSource source
  refine ⟨ofSource_eq_advance source, body, stop, htokens, hfaces.ends, hfaces.more, ?_⟩
  intro operations w
  obtain ⟨n, hbegins⟩ := hfaces.currents_prefix operations
  obtain ⟨passed, hcurrents, hprevious⟩ := (ofSource source).exists_passed operations
  have hnone : (ofSource source).previous = none := by simp [ofSource, comeUp]
  rw [hnone, Option.toList_none, List.nil_append] at hprevious
  have hsound : ∀ t ∈ (ofSource source).currents operations, t.kind ≠ .error := by
    intro t ht
    have hmem : t ∈ (tokens source).filter (·.kind ≠ .error) := by
      rw [htokens]
      rcases List.mem_append.mp (hbegins.subset ht) with hbody | hstop
      · exact List.mem_append_left _ hbody
      · rw [List.eq_of_mem_replicate hstop]
        exact List.mem_append_right _ List.mem_cons_self
    exact of_decide_eq_true (List.mem_filter.mp hmem).2
  rw [hcurrents] at hsound
  refine ⟨⟨n, hbegins⟩, ⟨passed, hcurrents, hprevious⟩, ?_, ?_, fun operation => ?_⟩
  · exact hsound _ (List.mem_append_right _ List.mem_cons_self)
  · intro t ht
    exact hsound t (List.mem_append_left _ (List.mem_of_getLast? (hprevious.symm.trans ht)))
  · split
    case isTrue hmoves => rw [perform_of_moves hmoves, previous_advance]
    case isFalse hstill => exact still_of_not_moves (by simpa using hstill)

/-- The errors are passed on the way, and the end of the text comes again. -/
example :
    ((ofSource "1 # + @".toList).currents
      [.reportCurrent "Odd.", .expect .plus "No sum.", .advance, .recover, .advance, .advance]).map
        Token.kind = [.number, .plus, .eof, .eof] := by decide +kernel

end LoxBytecode.Window

import LoxBytecode.Window.Basic

/-!
# Progress of the window

Reports change nothing about where the window stands, and every move takes at least
one token off what is ahead, unless the end of the text has been reached.
-/

namespace LoxBytecode.Window

/-! ## What reports leave alone -/

@[simp] theorem cursor_reportAt (w : Window) (t : Token) (message : String) :
    (w.reportAt t message).cursor = w.cursor := by
  unfold reportAt
  split <;> rfl

@[simp] theorem current_reportAt (w : Window) (t : Token) (message : String) :
    (w.reportAt t message).current = w.current := by
  unfold reportAt
  split <;> rfl

@[simp] theorem previous_reportAt (w : Window) (t : Token) (message : String) :
    (w.reportAt t message).previous = w.previous := by
  unfold reportAt
  split <;> rfl

@[simp] theorem left_reportAt (w : Window) (t : Token) (message : String) :
    (w.reportAt t message).left = w.left := by
  simp [left]

@[simp] theorem left_reportErrors (errors : List Token) (w : Window) :
    (w.reportErrors errors).left = w.left := by
  unfold reportErrors
  induction errors generalizing w with
  | nil => rfl
  | cons t later ih => simp [ih]

/-! ## Moving on -/

theorem left_nextSound_le (c : Cursor) :
    c.nextSound.2.2.rest.length + (if c.nextSound.2.1.kind = .eof then 0 else 1) ≤
      c.rest.length := by
  fun_induction Cursor.nextSound c with
  | case1 c herror later ih =>
      have := c.length_rest_nextToken_lt (by rw [herror]; decide)
      simp only [later] at ih ⊢
      omega
  | case2 c herror =>
      by_cases heof : c.nextToken.1.kind = .eof
      · have := c.behind_nextToken.length_rest_le
        simpa [heof] using this
      · have := c.length_rest_nextToken_lt heof
        simp only [heof, if_false]
        omega

theorem left_advance_le_rest (w : Window) : w.advance.left ≤ w.cursor.rest.length := by
  simp only [advance, left_reportErrors]
  exact left_nextSound_le w.cursor

theorem left_advance_le (w : Window) : w.advance.left ≤ w.left :=
  Nat.le_trans w.left_advance_le_rest (Nat.le_add_right _ _)

theorem left_advance_lt {w : Window} (h : w.current.kind ≠ .eof) : w.advance.left < w.left := by
  have := w.left_advance_le_rest
  simp only [left, h, if_false] at this ⊢
  omega

theorem left_expect_le (w : Window) (kind : Token.Kind) (message : String) :
    (w.expect kind message).left ≤ w.left := by
  unfold expect
  split
  · exact w.left_advance_le
  · simp [reportCurrent]

end LoxBytecode.Window

import LoxBytecode.Proofs.Double.Shortest
import LoxBytecode.Proofs.Machine.Numeral

/-!
# Printed values can be read back

A finite double is printed as a numeral, with a minus sign in front of it where the double is
negative.  That is a source text, and its value is the double with every bit of it: the numeral
brings back the magnitude, and the negation the sign.  A line end behind it makes no difference,
so what is written for a value may be interpreted in its turn, and the same is written again.
-/

namespace LoxBytecode.Double

variable {x : Double}

theorem layout_newline : Layout ['\n'] [] := .blank (by decide) .none

/-- A printed double is answered with that double, whatever layout stands behind it. -/
theorem answers_render (h : x.magnitude < infinity) {layout : List Char}
    (hlayout : Layout layout []) (settings : Settings) (m : Machine Double) :
    (m.interpret settings ((render x).toList ++ layout)).Answers
      ((render x).toList ++ layout) x := by
  have htext := (shortest x.magnitude).spells_text
  have hnumber : Number.ofNumeral (shortest x.magnitude).text = ofMagnitude x.magnitude :=
    ofNumeral_text_shortest h
  rw [toList_render h, sign]
  cases hsign : x.isNegative with
  | false =>
      have hanswers := Machine.answers_numeral (α := Double) htext hlayout settings m
      rw [hnumber, ofMagnitude_of_nonneg hsign] at hanswers
      exact hanswers
  | true =>
      have hanswers := Machine.answers_negated_numeral (α := Double) htext hlayout settings m
      rw [hnumber, neg_ofMagnitude_of_negative hsign] at hanswers
      exact hanswers

/-- **Printed values can be read back.**  A finite double is printed as a single numeral behind
an optional minus sign.  The text compiles and has that very double as its value; and so has the
line that is written for a source text with this value, which is written again when it is itself
interpreted. -/
theorem evaluate_render (h : x.magnitude < infinity) :
    (∃ numeral t stop, (render x).toList = x.sign ++ numeral ∧ tokens numeral = [t, stop] ∧
        t.kind = .number ∧ t.lexeme = numeral ∧ stop.kind = .eof) ∧
      (∃ chunk : Chunk Double, compile (render x).toList = .ok chunk) ∧
      evaluate (render x).toList = .ok (.ok x) ∧
      ∀ (settings : Settings) (source : List Char) (m : Machine Double),
        evaluate source = .ok (.ok x) →
          ∃ shown printed, stdoutText (m.interpret settings source).events = shown ++ printed ∧
            (settings = {} → shown = "") ∧ printed = render x ++ "\n" ∧
            evaluate printed.toList = .ok (.ok x) ∧
            ∀ later : Machine Double,
              stdoutText (later.interpret {} printed.toList).events = printed := by
  have hvalue : evaluate (render x).toList = .ok (.ok x) := by
    have hanswers := answers_render h .none {} {}
    rw [List.append_nil] at hanswers
    exact hanswers.evaluate
  have hline : evaluate (render x ++ "\n").toList = .ok (.ok x) := by
    have hanswers := answers_render h layout_newline {} {}
    rw [String.toList_append]
    exact hanswers.evaluate
  refine ⟨?_, ?_, hvalue, fun settings source m hsource => ?_⟩
  · obtain ⟨t, stop, htokens, hkind, hlexeme, hstop⟩ :=
      tokens_numeral (shortest x.magnitude).spells_text .none
    rw [List.append_nil] at htokens
    exact ⟨_, t, stop, toList_render h, htokens, hkind, hlexeme, hstop⟩
  · obtain ⟨chunk, hcompile, -⟩ := Machine.exists_run_of_evaluate hvalue
    exact ⟨chunk, hcompile⟩
  · obtain ⟨shown, hstdout, hquiet⟩ := Machine.exists_stdoutText_interpret hsource settings m
    exact ⟨shown, _, hstdout, hquiet, rfl, hline, Machine.stdoutText_interpret hline⟩

/-- A negative zero is printed with its sign, and is read back with it. -/
theorem evaluate_render_negative_zero :
    let x : Double := ⟨0x8000000000000000⟩
    x.magnitude < infinity ∧ render x = "-0" ∧ evaluate "-0".toList = .ok (.ok x) := by
  intro x
  have h : x.magnitude < infinity := by decide
  have hrender : render x = "-0" := by decide +kernel
  refine ⟨h, hrender, ?_⟩
  rw [← hrender]
  exact (evaluate_render h).2.2.1

end LoxBytecode.Double

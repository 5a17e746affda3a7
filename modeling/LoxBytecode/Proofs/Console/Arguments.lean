import LoxBytecode.Console.Session
import LoxBytecode.Proofs.Console.Options

/-!
# Arguments from left to right

Arguments can be taken in one after the other.  A request for help or an unknown flag ends this at
once, and any other argument is remembered until all of them have been taken in (`Gathered.take`).
What has been remembered is then just what a command line asks for (`foldlM_take`), so it does not
matter where in a command line a flag stands, as long as nothing decides the run before its end.
-/

namespace LoxBytecode.Console

/-! ## Single arguments -/

def IsHelp (text : String) : Prop := text = "-h" ∨ text = "--help"

/-- What begins with a dash is a flag, unless it is a lone dash; and this one is not known. -/
def IsUnknownFlag (text : String) : Prop :=
  text.toList.head? = some '-' ∧ text ≠ "-" ∧ ¬IsHelp text ∧ text ∉ flags

def IsPath (text : String) : Prop := text = "-" ∨ text.toList.head? ≠ some '-'

instance (text : String) : Decidable (IsHelp text) :=
  inferInstanceAs (Decidable (text = "-h" ∨ text = "--help"))

instance (text : String) : Decidable (IsUnknownFlag text) :=
  inferInstanceAs (Decidable (_ ∧ _ ∧ ¬IsHelp text ∧ text ∉ flags))

instance (text : String) : Decidable (IsPath text) :=
  inferInstanceAs (Decidable (text = "-" ∨ text.toList.head? ≠ some '-'))

/-- An argument that decides the run, whatever comes behind it. -/
def IsDecisive (text : String) : Prop := IsHelp text ∨ IsUnknownFlag text

instance (text : String) : Decidable (IsDecisive text) :=
  inferInstanceAs (Decidable (IsHelp text ∨ IsUnknownFlag text))

/-- The paths among the arguments. -/
def pathsOf (arguments : List String) : List String := arguments.filter (IsPath ·)

namespace Argument

variable {text : String}

theorem ofText_of_help (h : IsHelp text) : ofText text = .help := by
  apply ofText_of_mem_spellings
  simpa [spellings, IsHelp] using h

theorem ofText_of_unknown (h : IsUnknownFlag text) : ofText text = .unknown text := by
  obtain ⟨hdash, hlone, hhelp, hflag⟩ := h
  simp only [flags, List.mem_cons, List.not_mem_nil, or_false, not_or] at hflag
  obtain ⟨htrace, hdump, htokens, hverbose⟩ := hflag
  unfold IsHelp at hhelp
  unfold ofText
  rw [if_neg hhelp, if_neg htrace, if_neg hdump, if_neg htokens, if_neg (not_or.mpr hverbose),
    if_pos ⟨hdash, hlone⟩]

/-- There is nothing else that an argument can be. -/
theorem decisive_or_flag_or_path (text : String) :
    IsDecisive text ∨ text ∈ flags ∨ IsPath text := by
  by_cases hdecisive : IsDecisive text
  · exact .inl hdecisive
  · by_cases hflag : text ∈ flags
    · exact .inr (.inl hflag)
    · by_cases hpath : IsPath text
      · exact .inr (.inr hpath)
      · obtain ⟨hlone, hdash⟩ := not_or.mp hpath
        obtain ⟨hhelp, hknown⟩ := not_or.mp hdecisive
        exact absurd ⟨Decidable.not_not.mp hdash, hlone, hhelp, hflag⟩ hknown

theorem not_isPath_of_mem_flags (h : text ∈ flags) : ¬IsPath text := by
  simp only [flags, List.mem_cons, List.not_mem_nil, or_false] at h
  rcases h with rfl | rfl | rfl | rfl | rfl <;> decide

/-- Paths stand for themselves, and nothing else is a path. -/
theorem path?_ofText (text : String) :
    (ofText text).path? = if IsPath text then some text else none := by
  rcases decisive_or_flag_or_path text with (hhelp | hunknown) | hflag | hpath
  · rw [ofText_of_help hhelp, if_neg]
    · rfl
    · rcases hhelp with rfl | rfl <;> decide
  · rw [ofText_of_unknown hunknown, if_neg]
    · rfl
    · exact not_or.mpr ⟨hunknown.2.1, Decidable.not_not.mpr hunknown.1⟩
  · rw [(of_mem_flags hflag).2, if_neg (not_isPath_of_mem_flags hflag)]
  · rw [ofText_of_path hpath, if_pos hpath]
    rfl

theorem decidedBy?_ofText (h : ¬IsDecisive text) : Command.decidedBy? (ofText text) = none := by
  rcases (decisive_or_flag_or_path text).resolve_left h with hflag | hpath
  · exact (of_mem_flags hflag).1
  · rw [ofText_of_path hpath]
    rfl

end Argument

/-! ## Commands -/

namespace Command

variable {texts texts' : List String} {text : String}

theorem filterMap_path? (texts : List String) :
    (texts.map Argument.ofText).filterMap Argument.path? = pathsOf texts := by
  induction texts with
  | nil => rfl
  | cons text later ih =>
      rw [List.map_cons, List.filterMap_cons, ih, Argument.path?_ofText]
      unfold pathsOf
      rw [List.filter_cons]
      by_cases hpath : IsPath text
      · rw [if_pos hpath, if_pos (decide_eq_true hpath)]
      · rw [if_neg hpath, if_neg (by simpa using hpath)]

/-- The first argument that decides the run is the only one that does. -/
theorem findSome?_decidedBy? (texts : List String) :
    (texts.map Argument.ofText).findSome? decidedBy? =
      (texts.find? (IsDecisive ·)).bind fun text => decidedBy? (.ofText text) := by
  induction texts with
  | nil => rfl
  | cons text later ih =>
      rw [List.map_cons, List.findSome?_cons, List.find?_cons]
      by_cases hdecisive : IsDecisive text
      · rw [decide_eq_true hdecisive]
        rcases hdecisive with hhelp | hunknown
        · simp [Argument.ofText_of_help hhelp, decidedBy?]
        · simp [Argument.ofText_of_unknown hunknown, decidedBy?]
      · rw [decide_eq_false hdecisive, Argument.decidedBy?_ofText hdecisive]
        exact ih

theorem ofArguments_of_help (hfirst : texts.find? (IsDecisive ·) = some text) (h : IsHelp text) :
    ofArguments texts = .help := by
  unfold ofArguments
  simp [findSome?_decidedBy?, hfirst, Argument.ofText_of_help h, decidedBy?]

theorem ofArguments_of_unknown (hfirst : texts.find? (IsDecisive ·) = some text)
    (h : IsUnknownFlag text) : ofArguments texts = .unknownFlag text := by
  unfold ofArguments
  simp [findSome?_decidedBy?, hfirst, Argument.ofText_of_unknown h, decidedBy?]

theorem ofArguments_of_paths (hnone : texts.find? (IsDecisive ·) = none)
    (h : 2 ≤ (pathsOf texts).length) : ofArguments texts = .tooManyPaths := by
  unfold ofArguments
  simp only [findSome?_decidedBy?, hnone, Option.bind_none, filterMap_path?]
  cases hpaths : pathsOf texts with
  | nil => simp [hpaths] at h
  | cons path later =>
      cases later with
      | nil => simp [hpaths] at h
      | cons => rfl

/-- Where no argument decides the run, the flags that are given and the paths do. -/
theorem ofArguments_congr (hnone : texts.find? (IsDecisive ·) = none)
    (hnone' : texts'.find? (IsDecisive ·) = none)
    (hgiven : Options.given texts' = Options.given texts)
    (hpaths : pathsOf texts' = pathsOf texts) : ofArguments texts' = ofArguments texts := by
  rw [← withOptions_given texts, ← withOptions_given texts', hgiven]
  apply withOptions_congr
  · rw [findSome?_decidedBy?, findSome?_decidedBy?, hnone, hnone']
  · rw [filterMap_path?, filterMap_path?, hpaths]

end Command

/-! ## One argument after the other -/

/-- What is remembered of the arguments so far. -/
structure Gathered where
  options : Options := {}
  paths : List String := []

/-- What one argument does: it is remembered, or there is a report at once. -/
def Gathered.take (g : Gathered) : Argument → Except Report Gathered
  | .help => .error ⟨[.output usage], 0⟩
  | .trace => .ok { g with options := { g.options with tracing := true } }
  | .dump => .ok { g with options := { g.options with dumping := true } }
  | .tokens => .ok { g with options := { g.options with listing := true } }
  | .verbose => .ok { g with options := { g.options with verbose := true } }
  | .unknown flag =>
    .error ⟨[.complaintLine s!"loxvm: unknown flag '{flag}'", .complaint usage], usageStatus⟩
  | .path path => .ok { g with paths := g.paths ++ [path] }

/-- Just the options and paths of the given arguments are remembered. -/
structure Gathered.Of (g : Gathered) (arguments : List Argument) : Prop where
  options : g.options = Command.optionsOf arguments
  paths : g.paths = arguments.filterMap Argument.path?

namespace Gathered

/-- **Step.**  An argument ends the run with the report that it decides on, or is remembered. -/
theorem Of.take {g : Gathered} {earlier : List Argument} (h : g.Of earlier) (a : Argument) :
    (∃ command report, Command.decidedBy? a = some command ∧ g.take a = .error report ∧
        ∀ read input ending, runCommand command read input ending = report) ∨
      ∃ g', Command.decidedBy? a = none ∧ g.take a = .ok g' ∧ g'.Of (earlier ++ [a]) := by
  cases a with
  | help => exact .inl ⟨.help, _, rfl, rfl, fun _ _ _ => rfl⟩
  | unknown flag => exact .inl ⟨.unknownFlag flag, _, rfl, rfl, fun _ _ _ => rfl⟩
  | trace | dump | tokens | verbose =>
      refine .inr ⟨_, rfl, rfl, ⟨?_, ?_⟩⟩
      · simp [h.options, Command.optionsOf]
      · simp [h.paths, Argument.path?]
  | path path =>
      refine .inr ⟨_, rfl, rfl, ⟨?_, ?_⟩⟩
      · simp [h.options, Command.optionsOf]
      · simp [h.paths, Argument.path?]

/-- **Run.**  The first argument that decides the run ends it, or all of them are remembered. -/
theorem Of.foldlM {g : Gathered} {earlier : List Argument} (h : g.Of earlier)
    (later : List Argument) :
    (∃ command report, later.findSome? Command.decidedBy? = some command ∧
        later.foldlM Gathered.take g = .error report ∧
        ∀ read input ending, runCommand command read input ending = report) ∨
      ∃ g', later.findSome? Command.decidedBy? = none ∧ later.foldlM Gathered.take g = .ok g' ∧
        g'.Of (earlier ++ later) := by
  induction later generalizing g earlier with
  | nil => exact .inr ⟨g, rfl, rfl, by rwa [List.append_nil]⟩
  | cons a later ih =>
      rw [List.foldlM_cons, List.findSome?_cons]
      rcases h.take a with ⟨command, report, hdecided, htake, hreport⟩ | ⟨g', hdecided, htake, hof⟩
      · rw [hdecided, htake]
        exact .inl ⟨command, report, rfl, rfl, hreport⟩
      · rw [hdecided, htake]
        have hrest := ih hof
        rwa [List.append_assoc, List.singleton_append] at hrest

end Gathered

end LoxBytecode.Console

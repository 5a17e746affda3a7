import LoxBytecode.Console.Options
import Mathlib.Tactic.SplitIfs

/-!
# The flags of a command line

A flag that is known is no path, and it decides nothing on its own.  So putting one among the
arguments leaves what a command line asks for, up to the options that this is carried out with
(`ofArguments_insert`); and these say of every flag just whether it is there.
-/

namespace LoxBytecode.Console

/-- The options that say of every flag whether it is among the arguments. -/
def Options.given (arguments : List String) : Options where
  tracing := decide ("--trace" ∈ arguments)
  dumping := decide ("--dump" ∈ arguments)
  listing := decide ("--tokens" ∈ arguments)
  verbose := decide ("-v" ∈ arguments ∨ "--verbose" ∈ arguments)

/-- The arguments that only say how something is to be done. -/
def flags : List String := ["--trace", "--dump", "--tokens", "-v", "--verbose"]

/-! ## Spelling -/

namespace Argument

/-- The ways to spell an argument, where these are fixed. -/
def spellings : Argument → List String
  | help => ["-h", "--help"]
  | trace => ["--trace"]
  | dump => ["--dump"]
  | tokens => ["--tokens"]
  | verbose => ["-v", "--verbose"]
  | _ => []

variable {text : String} {a : Argument}

theorem ofText_of_mem_spellings (h : text ∈ a.spellings) : ofText text = a := by
  cases a with
  | help | verbose =>
      obtain rfl | rfl : text = _ ∨ text = _ := by simpa [spellings] using h
      all_goals decide
  | trace | dump | tokens =>
      obtain rfl := List.mem_singleton.mp h
      decide
  | unknown | path => simp [spellings] at h

theorem mem_spellings_ofText (text : String) :
    text ∈ (ofText text).spellings ∨ (ofText text).spellings = [] := by
  unfold ofText
  split_ifs with hhelp htrace hdump htokens hverbose
  · exact .inl (by simpa [spellings] using hhelp)
  · exact .inl (by simpa [spellings] using htrace)
  · exact .inl (by simpa [spellings] using hdump)
  · exact .inl (by simpa [spellings] using htokens)
  · exact .inl (by simpa [spellings] using hverbose)
  · exact .inr rfl
  · exact .inr rfl

theorem ofText_eq_iff (ha : a.spellings ≠ []) : ofText text = a ↔ text ∈ a.spellings := by
  constructor
  · rintro rfl
    exact (mem_spellings_ofText text).resolve_right ha
  · exact ofText_of_mem_spellings

theorem ofText_of_path (h : text = "-" ∨ text.toList.head? ≠ some '-') :
    ofText text = .path text := by
  rcases h with rfl | hhead
  · decide
  · unfold ofText
    split_ifs with hhelp htrace hdump htokens hverbose hunknown
    · rcases hhelp with rfl | rfl <;> exact absurd (by decide) hhead
    · exact absurd (by rw [htrace]; decide) hhead
    · exact absurd (by rw [hdump]; decide) hhead
    · exact absurd (by rw [htokens]; decide) hhead
    · rcases hverbose with rfl | rfl <;> exact absurd (by decide) hhead
    · exact absurd hunknown.1 hhead
    · rfl

/-- A flag decides nothing on its own, and it is no path. -/
theorem of_mem_flags (h : text ∈ flags) :
    Command.decidedBy? (ofText text) = none ∧ (ofText text).path? = none := by
  simp only [flags, List.mem_cons, List.not_mem_nil, or_false] at h
  rcases h with rfl | rfl | rfl | rfl | rfl <;> decide

end Argument

/-! ## Commands -/

namespace Command

/-- The same command with other options. -/
def withOptions (options : Options) : Command → Command
  | prompt _ => prompt options
  | file _ path => file options path
  | command => command

variable {texts before after : List String} {text : String}

theorem contains_map_ofText {a : Argument} (ha : a.spellings ≠ []) (texts : List String) :
    (texts.map Argument.ofText).contains a = decide (∃ text ∈ a.spellings, text ∈ texts) := by
  rw [Bool.eq_iff_iff, List.contains_iff_mem, List.mem_map, decide_eq_true_iff]
  constructor
  · rintro ⟨text, hmem, hofText⟩
    exact ⟨text, (Argument.ofText_eq_iff ha).mp hofText, hmem⟩
  · rintro ⟨text, hspelling, hmem⟩
    exact ⟨text, hmem, (Argument.ofText_eq_iff ha).mpr hspelling⟩

theorem optionsOf_map (texts : List String) :
    optionsOf (texts.map Argument.ofText) = Options.given texts := by
  unfold optionsOf Options.given
  rw [contains_map_ofText (by decide), contains_map_ofText (by decide),
    contains_map_ofText (by decide), contains_map_ofText (by decide)]
  simp [Argument.spellings]

/-- The options of a command are those that are given. -/
theorem withOptions_given (texts : List String) :
    (ofArguments texts).withOptions (Options.given texts) = ofArguments texts := by
  unfold ofArguments
  dsimp only
  rw [optionsOf_map]
  cases hdecided : (texts.map Argument.ofText).findSome? decidedBy? with
  | some command =>
      -- what is decided by one argument has no options
      obtain ⟨a, -, ha⟩ := List.exists_of_findSome?_eq_some hdecided
      cases a <;> cases ha <;> rfl
  | none =>
      dsimp only
      split <;> rfl

/-- What an argument decides and which paths there are is all that matters beside the options. -/
theorem withOptions_congr {texts texts' : List String}
    (hdecided : (texts.map Argument.ofText).findSome? decidedBy? =
      (texts'.map Argument.ofText).findSome? decidedBy?)
    (hpaths : (texts.map Argument.ofText).filterMap Argument.path? =
      (texts'.map Argument.ofText).filterMap Argument.path?) (options : Options) :
    (ofArguments texts).withOptions options = (ofArguments texts').withOptions options := by
  unfold ofArguments
  dsimp only
  rw [hdecided, hpaths]
  generalize (texts'.map Argument.ofText).filterMap Argument.path? = paths
  cases (texts'.map Argument.ofText).findSome? decidedBy? with
  | some command => rfl
  | none => rcases paths with _ | ⟨path, _ | ⟨next, later⟩⟩ <;> rfl

/-- A flag among the arguments leaves what is asked for, up to the options. -/
theorem ofArguments_insert (h : text ∈ flags) (before after : List String) :
    ofArguments (before ++ text :: after) =
      (ofArguments (before ++ after)).withOptions (Options.given (before ++ text :: after)) := by
  obtain ⟨hdecides, hpath⟩ := Argument.of_mem_flags h
  rw [← withOptions_given (before ++ text :: after)]
  apply withOptions_congr
  · rw [List.map_append, List.map_cons, List.findSome?_append, List.findSome?_cons, hdecides,
      List.map_append, List.findSome?_append]
  · rw [List.map_append, List.map_cons, List.filterMap_append, List.filterMap_cons, hpath,
      List.map_append, List.filterMap_append]

/-- With nothing but flags a session at the prompt is asked for. -/
theorem ofArguments_of_flags (h : ∀ text ∈ texts, text ∈ flags) :
    ofArguments texts = .prompt (Options.given texts) := by
  rw [← withOptions_given]
  induction texts with
  | nil => rfl
  | cons text later ih =>
      obtain ⟨htext, hlater⟩ := List.forall_mem_cons.mp h
      have hinsert := ofArguments_insert htext [] later
      rw [List.nil_append, List.nil_append, ← withOptions_given later, ih hlater] at hinsert
      rw [hinsert]
      rfl

end Command

end LoxBytecode.Console

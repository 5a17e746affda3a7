import LoxBytecode.Proofs.Bytecode.Instructions
import LoxBytecode.Proofs.Text.Word

/-!
# Reading entries back

The columns of an entry have no fixed widths: offsets, lines, indices and numbers take as many
characters as they need.  An entry can be read all the same.  Its offset is known from the
entries before it; the line ends at a blank and begins behind blanks; and what is left begins
with the operation.  So the instructions can be told from the listing (`eq_of_listing`), if the
numbers can be told from their texts.
-/

namespace LoxBytecode

/-- The numbers with a property can be told from their texts, and these stay on one line. -/
structure Legible {α : Type} [Number α] (p : α → Prop) : Prop where
  eq_of_render {x y : α} : p x → p y → Number.render x = Number.render y → x = y
  no_newline {x : α} : p x → '\n' ∉ (Number.render x).toList

/-! ## Entries -/

namespace Instruction

/-- What stands in the line column, but for the blanks before it. -/
def lineWord (before : Option Int) (line : Nat) : List Char :=
  if before = some (line : Int) then ['|'] else Nat.toDigits 10 line

theorem isWord_lineWord (before : Option Int) (line : Nat) : IsWord (lineWord before line) := by
  unfold lineWord
  split
  · exact ⟨by decide, by decide, by decide⟩
  · exact isWord_toDigits line

theorem bar_ne_toDigits (n : Nat) : ['|'] ≠ Nat.toDigits 10 n := by
  intro h
  have hbar : '|' ∈ Nat.toDigits 10 n := by simp [← h]
  exact absurd (Nat.isDigit_of_mem_toDigits (by decide) (by decide) hbar) (by decide)

theorem lineWord_injective {before : Option Int} {line line' : Nat}
    (h : lineWord before line = lineWord before line') : line = line' := by
  unfold lineWord at h
  split at h <;> split at h
  · rename_i hbefore hbefore'
    exact Int.ofNat_inj.mp (Option.some.inj (hbefore.symm.trans hbefore'))
  · exact absurd h (bar_ne_toDigits line')
  · exact absurd h.symm (bar_ne_toDigits line)
  · exact toDigits_injective h

theorem exists_toList_lineColumn (before : Option Int) (line : Nat) :
    ∃ n, (lineColumn before line).toList = List.replicate n ' ' ++ lineWord before line := by
  unfold lineColumn lineWord
  split
  · exact ⟨3, rfl⟩
  · rw [Text.toList_alignRight]
    exact ⟨_, congrArg _ Nat.toList_repr⟩

variable {α : Type} [Number α]

theorem toList_entry (offset index : Nat) (before : Option Int) (i : Instruction α) :
    (i.entry offset index before).toList =
      (Text.alignRight 4 '0' (toString offset)).toList ++
        ' ' :: ((lineColumn before i.line).toList ++ ' ' :: (i.operation index).toList) := by
  simp [entry]

/-- What stands in front of the number that is loaded. -/
def loadFront (index : Nat) : String :=
  Text.alignLeft 16 ("OP_" ++ Opcode.constant.name) ++ " " ++
    Text.alignRight 4 ' ' (toString index) ++ " '"

theorem operation_load (index : Nat) (value : α) (line : Nat) :
    (load value line).operation index = loadFront index ++ (Number.render value ++ "'") := by
  simp only [operation, loadFront, String.append_assoc]

theorem newline_notMem_loadFront (index : Nat) : '\n' ∉ (loadFront index).toList := by
  have hname : '\n' ∉ (Text.alignLeft 16 ("OP_" ++ Opcode.constant.name)).toList := by decide
  have hindex := Text.newline_notMem_alignRight (by decide : ' ' ≠ '\n') 4 index
  simp [loadFront, hname, hindex]

/-- The texts of bare operations are words. -/
theorem isWord_name (op : Opcode) : IsWord ("OP_" ++ op.name).toList := by
  cases op with
  | operator op => cases op <;> exact ⟨by decide, by decide, by decide⟩
  | _ => exact ⟨by decide, by decide, by decide⟩

theorem name_injective {op op' : Opcode} (h : "OP_" ++ op.name = "OP_" ++ op'.name) : op = op' := by
  revert h
  rcases op with _ | (_ | _ | _ | _) | _ | _ <;>
    rcases op' with _ | (_ | _ | _ | _) | _ | _ <;> decide

/-- Only an operand brings a blank along. -/
theorem load_ne_bare (index : Nat) (value : α) (line : Nat) (op : Opcode) :
    (load value line).operation index ≠ "OP_" ++ op.name := by
  intro h
  have hblank : ' ' ∈ ((load value line).operation index).toList := by
    simp [operation_load, loadFront]
  rw [h] at hblank
  exact (isWord_name op).no_blank hblank

variable {p : α → Prop} {i i' : Instruction α} {offset index : Nat} {before : Option Int}

theorem eq_of_operation (hlegible : Legible p) (hi : ∀ v ∈ i.values, p v)
    (hi' : ∀ v ∈ i'.values, p v) (hline : i.line = i'.line)
    (h : i.operation index = i'.operation index) : i = i' := by
  cases i with
  | load value line =>
      cases i' with
      | load value' line' =>
          obtain rfl : line = line' := hline
          rw [operation_load, operation_load] at h
          have hrender := (String.append_left_inj _).mp ((String.append_right_inj _).mp h)
          have hvalue := hlegible.eq_of_render (hi value (by simp [values]))
            (hi' value' (by simp [values])) hrender
          rw [hvalue]
      | bare op line' hbare => exact absurd h (load_ne_bare index value line op)
  | bare op line hbare =>
      cases i' with
      | load value line' => exact absurd h.symm (load_ne_bare index value line' op)
      | bare op' line' hbare' =>
          obtain rfl : line = line' := hline
          obtain rfl := name_injective h
          rfl

theorem newline_notMem_operation (hlegible : Legible p) (hi : ∀ v ∈ i.values, p v) (index : Nat) :
    '\n' ∉ (i.operation index).toList := by
  cases i with
  | load value line =>
      have hvalue := hlegible.no_newline (hi value (by simp [values]))
      simp [operation_load, newline_notMem_loadFront, hvalue]
  | bare op line hbare => exact (isWord_name op).no_newline

theorem eq_of_entry (hlegible : Legible p) (hi : ∀ v ∈ i.values, p v)
    (hi' : ∀ v ∈ i'.values, p v)
    (h : i.entry offset index before = i'.entry offset index before) : i = i' := by
  have htexts := congrArg String.toList h
  rw [toList_entry, toList_entry] at htexts
  have hbehind := (List.cons.inj (List.append_cancel_left htexts)).2
  obtain ⟨m, hm⟩ := exists_toList_lineColumn before i.line
  obtain ⟨n, hn⟩ := exists_toList_lineColumn before i'.line
  rw [hm, hn, List.append_assoc, List.append_assoc] at hbehind
  obtain ⟨hline, hoperation⟩ := eq_of_blanks_append (isWord_lineWord before i.line)
    (isWord_lineWord before i'.line) hbehind
  exact eq_of_operation hlegible hi hi' (lineWord_injective hline)
    (String.toList_inj.mp hoperation)

theorem newline_notMem_entry (hlegible : Legible p) (hi : ∀ v ∈ i.values, p v)
    (offset index : Nat) (before : Option Int) : '\n' ∉ (i.entry offset index before).toList := by
  have hoffset := Text.newline_notMem_alignRight (by decide : '0' ≠ '\n') 4 offset
  have hoperation := newline_notMem_operation hlegible hi index
  have hline := (isWord_lineWord before i.line).no_newline
  obtain ⟨n, hn⟩ := exists_toList_lineColumn before i.line
  simp [toList_entry, hn, hoffset, hoperation, hline]

/-! ## Listings -/

variable {l l' : List (Instruction α)} {first : Nat}

/-- The instructions can be told from their entries, one after the other. -/
theorem eq_of_entries (hlegible : Legible p) (hl : ∀ v ∈ l.flatMap values, p v)
    (hl' : ∀ v ∈ l'.flatMap values, p v)
    (h : entries offset first before l = entries offset first before l') : l = l' := by
  induction l generalizing l' offset first before with
  | nil =>
      cases l' with
      | nil => rfl
      | cons i' later' => cases h
  | cons i later ih =>
      cases l' with
      | nil => cases h
      | cons i' later' =>
          rw [List.flatMap_cons, List.forall_mem_append] at hl hl'
          obtain ⟨hentry, hentries⟩ := List.cons.inj h
          -- the next entry stands at the same offset only since this one has the same size
          obtain rfl := eq_of_entry hlegible hl.1 hl'.1 hentry
          rw [ih hl.2 hl'.2 hentries]

theorem newline_notMem_entries (hlegible : Legible p) (hl : ∀ v ∈ l.flatMap values, p v) :
    ∀ e ∈ entries offset first before l, '\n' ∉ e.toList := by
  induction l generalizing offset first before with
  | nil => simp [entries]
  | cons i later ih =>
      rw [List.flatMap_cons, List.forall_mem_append] at hl
      exact List.forall_mem_cons.mpr ⟨newline_notMem_entry hlegible hl.1 _ _ _, ih hl.2⟩

theorem eq_of_listing (hlegible : Legible p) (hl : ∀ v ∈ l.flatMap values, p v)
    (hl' : ∀ v ∈ l'.flatMap values, p v) (hne : l ≠ []) (hne' : l' ≠ []) {header : String}
    (h : "\n".intercalate (header :: entries 0 0 none l) =
      "\n".intercalate (header :: entries 0 0 none l')) : l = l' := by
  have hentries : entries 0 0 none l = entries 0 0 none l' := by
    apply eq_of_intercalate _ _ (newline_notMem_entries hlegible hl)
      (newline_notMem_entries hlegible hl') h
    · obtain ⟨i, later, rfl⟩ := List.exists_cons_of_ne_nil hne
      exact List.cons_ne_nil _ _
    · obtain ⟨i, later, rfl⟩ := List.exists_cons_of_ne_nil hne'
      exact List.cons_ne_nil _ _
  exact eq_of_entries hlegible hl hl' hentries

end Instruction

end LoxBytecode

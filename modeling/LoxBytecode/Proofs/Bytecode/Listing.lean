import LoxBytecode.Bytecode.Listing

/-!
# Reading listings entry by entry

What can be listed at an offset, where the next entry begins, and how a listing is put together
from its entries.
-/

namespace LoxBytecode.Chunk

variable {α : Type} [Number α] {c : Chunk α} {offset next : Nat} {text : String}
  {entries : List String}

/-! ## Entries -/

theorem instructionAt?_eq_some_iff :
    c.instructionAt? offset = some (text, next) ↔ c.instructionAt offset = .ok (text, next) := by
  unfold instructionAt?
  cases c.instructionAt offset <;> simp [Except.toOption]

theorem lt_size_of_listed (h : (c.instructionAt? offset).isSome) : offset < c.size := by
  refine Nat.lt_of_not_le fun hbehind => ?_
  have hcode : c.code[offset]? = none := Array.getElem?_eq_none hbehind
  unfold instructionAt? instructionAt at h
  rw [hcode] at h
  cases hline : c.lineAt? offset <;> simp [hline, Except.toOption] at h

omit [Number α] in
theorem exists_lineAt? {byte : UInt8} (hlines : c.lines.size = c.code.size)
    (hbyte : c.code[offset]? = some byte) : ∃ line, c.lineAt? offset = some line := by
  have hlt := (Array.getElem?_eq_some_iff.mp hbyte).1
  rw [← hlines] at hlt
  exact ⟨c.lines[offset], Array.getElem?_eq_getElem hlt⟩

section Line

variable {line : Int} (hline : c.lineAt? offset = some line)

include hline

/-- A load is listed with its index and the constant that is there. -/
theorem instructionAt?_load {index : UInt8}
    (hbyte : c.code[offset]? = some Opcode.constant.byte)
    (hindex : c.code[offset + 1]? = some index) :
    c.instructionAt? offset =
      some (c.listingMargin offset line ++ Text.alignLeft 16 ("OP_" ++ Opcode.constant.name) ++
        " " ++ Text.alignRight 4 ' ' (toString index.toNat) ++ " '" ++ c.constantText index ++ "'",
        offset + 2) := by
  simp [instructionAt?, instructionAt, Except.toOption, hline, hbyte, hindex, String.append_assoc]

/-- Any other operation is listed by its name. -/
theorem instructionAt?_bare {op : Opcode} (hbare : op ≠ .constant)
    (hbyte : c.code[offset]? = some op.byte) :
    c.instructionAt? offset =
      some (c.listingMargin offset line ++ ("OP_" ++ op.name), offset + 1) := by
  cases op with
  | constant => exact absurd rfl hbare
  | operator op | negate | ret =>
      simp [instructionAt?, instructionAt, Except.toOption, hline, hbyte, Opcode.size,
        String.append_assoc]

theorem instructionAt?_unknown {byte : UInt8} (hop : Opcode.ofByte? byte = none)
    (hbyte : c.code[offset]? = some byte) :
    c.instructionAt? offset =
      some (c.listingMargin offset line ++ ("Unknown opcode " ++ toString byte.toNat),
        offset + 1) := by
  simp [instructionAt?, instructionAt, Except.toOption, hline, hbyte, hop, String.append_assoc]

end Line

/-- Where every byte has a line, an operation can be listed that has its operand. -/
theorem listed_of_code {op : Opcode} (hlines : c.lines.size = c.code.size)
    (hop : c.code[offset]? = some op.byte)
    (hoperand : op = .constant → (c.code[offset + 1]?).isSome) :
    (c.instructionAt? offset).isSome := by
  obtain ⟨line, hline⟩ := exists_lineAt? hlines hop
  by_cases hbare : op = .constant
  · obtain ⟨index, hindex⟩ := Option.isSome_iff_exists.mp (hoperand hbare)
    rw [instructionAt?_load hline (hbare ▸ hop) hindex]
    rfl
  · rw [instructionAt?_bare hline hbare hop]
    rfl

theorem next_of_instructionAt? {byte : UInt8} {op : Opcode} (hbyte : c.code[offset]? = some byte)
    (hop : Opcode.ofByte? byte = some op) (h : c.instructionAt? offset = some (text, next)) :
    next = offset + op.size := by
  rw [instructionAt?_eq_some_iff] at h
  unfold instructionAt at h
  cases hline : c.lineAt? offset with
  | none => simp only [hline, reduceCtorEq] at h
  | some line =>
      simp only [hline, hbyte, hop] at h
      cases op with
      | constant =>
          cases hindex : c.code[offset + 1]? with
          | none => simp only [hindex, reduceCtorEq] at h
          | some index =>
              simp only [hindex] at h
              exact (congrArg Prod.snd (Except.ok.inj h)).symm
      | operator op | negate | ret => exact (congrArg Prod.snd (Except.ok.inj h)).symm

/-! ## Listings -/

theorem instructionsFrom?_eq (c : Chunk α) (offset : Nat) :
    c.instructionsFrom? offset =
      if offset < c.size then
        match c.instructionAt? offset with
        | none => none
        | some (text, next) => (c.instructionsFrom? next).map (text :: ·)
      else some [] := by
  unfold instructionsFrom? instructionAt?
  rw [instructionsFrom]
  split
  · split <;> rename_i hentry <;> rw [hentry]
    · rfl
    · rename_i text next
      simp only [Except.toOption]
      cases c.instructionsFrom next <;> rfl
  · rfl

theorem instructionsFrom?_of_end (h : ¬offset < c.size) : c.instructionsFrom? offset = some [] := by
  rw [instructionsFrom?_eq, if_neg h]

/-- An instruction that can be listed comes before those that can be listed behind it. -/
theorem instructionsFrom?_of_entry (h : c.instructionAt? offset = some (text, next)) :
    c.instructionsFrom? offset = (c.instructionsFrom? next).map (text :: ·) := by
  have hinside : offset < c.size := lt_size_of_listed (by rw [h]; rfl)
  rw [instructionsFrom?_eq, if_pos hinside, h]

theorem isSome_instructionsFrom? (h : c.instructionAt? offset = some (text, next))
    (hlater : (c.instructionsFrom? next).isSome) : (c.instructionsFrom? offset).isSome := by
  rwa [instructionsFrom?_of_entry h, Option.isSome_map]

/-- Inside the code a listing begins with an entry, and the rest is the listing behind it. -/
theorem exists_entry_of_instructionsFrom? (hinside : offset < c.size)
    (h : c.instructionsFrom? offset = some entries) :
    ∃ text next later, c.instructionAt? offset = some (text, next) ∧
      c.instructionsFrom? next = some later ∧ entries = text :: later := by
  rw [instructionsFrom?_eq, if_pos hinside] at h
  split at h
  · cases h
  · rename_i text next hentry
    obtain ⟨later, hlater, rfl⟩ := Option.map_eq_some_iff.mp h
    exact ⟨text, next, later, hentry, hlater, rfl⟩

theorem disassemble?_eq (c : Chunk α) (name : String) :
    c.disassemble? name =
      (c.instructionsFrom? 0).map fun entries =>
        "\n".intercalate (s!"== {name} ==" :: entries) := by
  unfold disassemble? disassemble instructionsFrom?
  cases c.instructionsFrom 0 <;> rfl

theorem disassemble_of_listing {name listing : String} (h : c.disassemble? name = some listing) :
    c.disassemble name = .ok listing := by
  unfold disassemble? at h
  cases hlisting : c.disassemble name with
  | error part => rw [hlisting] at h; cases h
  | ok text => rw [hlisting] at h; cases h; rfl

theorem exists_entries_of_disassemble? {name listing : String}
    (h : c.disassemble? name = some listing) :
    ∃ entries, c.instructionsFrom? 0 = some entries ∧
      listing = "\n".intercalate (s!"== {name} ==" :: entries) := by
  rw [disassemble?_eq] at h
  obtain ⟨entries, hentries, rfl⟩ := Option.map_eq_some_iff.mp h
  exact ⟨entries, hentries, rfl⟩

end LoxBytecode.Chunk

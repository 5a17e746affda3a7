import LoxBytecode.Proofs.Bytecode.Listing
import LoxBytecode.Proofs.Bytecode.Walk

/-!
# Code as instructions

Where every constant is loaded once and in order, as in compiled code, a chunk is told by a list
of instructions that load the numbers themselves.  `assembled` is the chunk of such a list, and
`entries` says entry by entry how it is listed (`disassemble?_assembled`).
-/

namespace LoxBytecode

theorem Opcode.operator_ne_constant (op : Operator) : Opcode.operator op ≠ .constant := nofun

theorem Opcode.negate_ne_constant : Opcode.negate ≠ .constant := nofun

theorem Opcode.ret_ne_constant : Opcode.ret ≠ .constant := nofun

/-- An instruction on a line.  Only one that loads a constant has an operand. -/
inductive Instruction (α : Type) where
  | load (value : α) (line : Nat)
  | bare (op : Opcode) (line : Nat) (hbare : op ≠ .constant)

namespace Instruction

variable {α : Type}

def line : Instruction α → Nat
  | load _ line => line
  | bare _ line _ => line

/-- The constants that an instruction brings along. -/
def values : Instruction α → List α
  | load value _ => [value]
  | bare _ _ _ => []

/-- The bytes of an instruction, if its constant has the given index. -/
def bytes (index : Nat) : Instruction α → List (UInt8 × Int)
  | load _ line => [(Opcode.constant.byte, (line : Int)), (index.toUInt8, (line : Int))]
  | bare op line _ => [(op.byte, (line : Int))]

/-- The bytes of some instructions, if their constants have the indices from `first` on. -/
def code (first : Nat) : List (Instruction α) → List (UInt8 × Int)
  | [] => []
  | i :: later => i.bytes first ++ code (first + i.values.length) later

/-- The chunk that consists of some instructions. -/
def assembled (l : List (Instruction α)) : Chunk α :=
  ({} : Chunk α).extend (code 0 l) (l.flatMap values)

theorem code_append (first : Nat) (l l' : List (Instruction α)) :
    code first (l ++ l') = code first l ++ code (first + (l.flatMap values).length) l' := by
  induction l generalizing first with
  | nil => rfl
  | cons i later ih =>
      rw [List.cons_append, code, code, ih, List.flatMap_cons, List.length_append,
        List.append_assoc, Nat.add_assoc]

/-! ## Entries -/

variable [Number α]

/-- The line column of an entry: a bar stands for the line of the byte before. -/
def lineColumn (before : Option Int) (line : Nat) : String :=
  if before = some (line : Int) then "   |" else Text.alignRight 4 ' ' (toString (line : Int))

/-- The operation of an entry with its operand, if its constant has the given index. -/
def operation (index : Nat) : Instruction α → String
  | load value _ =>
    Text.alignLeft 16 ("OP_" ++ Opcode.constant.name) ++ " " ++
      Text.alignRight 4 ' ' (toString index) ++ " '" ++ Number.render value ++ "'"
  | bare op _ _ => "OP_" ++ op.name

/-- The entry of an instruction that stands at an offset, behind a byte on a line. -/
def entry (offset index : Nat) (before : Option Int) (i : Instruction α) : String :=
  Text.alignRight 4 '0' (toString offset) ++ " " ++ lineColumn before i.line ++ " " ++
    i.operation index

/-- The entries of some instructions. -/
def entries (offset first : Nat) (before : Option Int) : List (Instruction α) → List String
  | [] => []
  | i :: later =>
    i.entry offset first before ::
      entries (offset + (i.bytes first).length) (first + i.values.length) (some (i.line : Int))
        later

end Instruction

/-! ## Listing instructions -/

namespace Chunk

variable {α : Type} [Number α] {c : Chunk α} {offset first : Nat}

/-- The line of the byte before an offset. -/
def lineBefore (c : Chunk α) (offset : Nat) : Option Int :=
  if 0 < offset then c.lineAt? (offset - 1) else none

omit [Number α] in
theorem listingMargin_eq (line : Nat) :
    c.listingMargin offset (line : Int) = Text.alignRight 4 '0' (toString offset) ++ " " ++
      Instruction.lineColumn (c.lineBefore offset) line ++ " " := by
  have hsame : (0 < offset ∧ c.lineAt? (offset - 1) = some (line : Int)) ↔
      c.lineBefore offset = some (line : Int) := by
    unfold lineBefore
    split <;> simp_all
  simp only [listingMargin, Instruction.lineColumn, hsame]

/-- Where an instruction stands in the code with its constant in the pool, it is listed. -/
theorem instructionAt?_instruction {i : Instruction α} {rest : List (UInt8 × Int)} {values : List α}
    (hcode : c.annotated.drop offset = i.bytes first ++ rest)
    (hvalues : c.constants.toList.drop first = i.values ++ values)
    (hroom : c.constants.size ≤ 256) :
    c.instructionAt? offset =
      some (i.entry offset first (c.lineBefore offset), offset + (i.bytes first).length) := by
  cases i with
  | load value line =>
      obtain ⟨hbyte, hline, hbehind⟩ := of_annotated hcode
      obtain ⟨hindex, -, -⟩ := of_annotated hbehind
      have hvalue : c.constants[first]? = some value := by
        rw [← Array.getElem?_toList, ← List.head?_drop, hvalues]
        rfl
      have hfirst : first.toUInt8.toNat = first := by
        have hlt := (Array.getElem?_eq_some_iff.mp hvalue).1
        simp
        omega
      have htext : c.constantText first.toUInt8 = Number.render value := by
        rw [constantText, hfirst, hvalue]
        rfl
      rw [instructionAt?_load hline hbyte hindex, hfirst, htext, listingMargin_eq]
      simp [Instruction.entry, Instruction.line, Instruction.operation, Instruction.bytes,
        String.append_assoc]
  | bare op line hbare =>
      obtain ⟨hbyte, hline, -⟩ := of_annotated hcode
      rw [instructionAt?_bare hline hbare hbyte, listingMargin_eq]
      simp [Instruction.entry, Instruction.line, Instruction.operation, Instruction.bytes,
        String.append_assoc]

omit [Number α] in
theorem lineBefore_instruction {i : Instruction α} {rest : List (UInt8 × Int)}
    (hcode : c.annotated.drop offset = i.bytes first ++ rest) :
    c.lineBefore (offset + (i.bytes first).length) = some (i.line : Int) := by
  cases i with
  | load value line =>
      obtain ⟨-, -, hbehind⟩ := of_annotated hcode
      obtain ⟨-, hline, -⟩ := of_annotated hbehind
      exact hline
  | bare op line hbare =>
      obtain ⟨-, hline, -⟩ := of_annotated hcode
      exact hline

/-- Where instructions make up the rest of the code, their entries make up the listing. -/
theorem instructionsFrom?_instructions {l : List (Instruction α)}
    (hlines : c.lines.size = c.code.size) (hroom : c.constants.size ≤ 256)
    (hcode : c.annotated.drop offset = Instruction.code first l)
    (hvalues : c.constants.toList.drop first = l.flatMap Instruction.values) :
    c.instructionsFrom? offset =
      some (Instruction.entries offset first (c.lineBefore offset) l) := by
  induction l generalizing offset first with
  | nil => exact instructionsFrom?_of_end (of_annotated_nil hlines hcode).2
  | cons i later ih =>
      have hcode' : c.annotated.drop (offset + (i.bytes first).length) =
          Instruction.code (first + i.values.length) later := by
        rw [← List.drop_drop, hcode, Instruction.code, List.drop_left]
      have hvalues' : c.constants.toList.drop (first + i.values.length) =
          later.flatMap Instruction.values := by
        rw [← List.drop_drop, hvalues, List.flatMap_cons, List.drop_left]
      rw [instructionsFrom?_of_entry (instructionAt?_instruction hcode hvalues hroom),
        ih hcode' hvalues', lineBefore_instruction hcode, Option.map_some, Instruction.entries]

theorem instructionsFrom?_assembled {l : List (Instruction α)}
    (hroom : (l.flatMap Instruction.values).length ≤ 256) :
    (Instruction.assembled l).instructionsFrom? 0 = some (Instruction.entries 0 0 none l) := by
  apply instructionsFrom?_instructions
  · simp [Instruction.assembled, extend]
  · simpa [Instruction.assembled] using hroom
  · rw [Instruction.assembled, annotated_extend_empty, List.drop_zero]
  · simp [Instruction.assembled, extend]

/-- The listing of instructions under a name. -/
theorem disassemble?_assembled {l : List (Instruction α)}
    (hroom : (l.flatMap Instruction.values).length ≤ 256) (name : String) :
    (Instruction.assembled l).disassemble? name =
      some ("\n".intercalate (s!"== {name} ==" :: Instruction.entries 0 0 none l)) := by
  rw [disassemble?_eq, instructionsFrom?_assembled hroom, Option.map_some]

end Chunk

end LoxBytecode

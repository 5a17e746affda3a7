import LoxBytecode.Proofs.Bytecode.Extend
import LoxBytecode.Bytecode.Opcode

/-!
# Walking through code

A walk goes through the bytes of a chunk as an execution does, but it carries only an offset
and the height of the stack: it looks at no number, and of the constants it knows only how
many there are.  It ends where the code returns or where something is amiss, and says which.

The bytes come with their lines, as a chunk that is built from the beginning has them.
-/

namespace LoxBytecode

/-! ## Chunks that are built -/

namespace Chunk

variable {α : Type}

/-- The chunks that appending bytes with their lines and adding constants leads to. -/
inductive Built : Chunk α → Prop
  | empty : Built {}
  | write {c : Chunk α} (byte : UInt8) (line : Int) : Built c → Built (c.write byte line)
  | addConstant {c : Chunk α} (value : α) : Built c → Built (c.addConstant value)

/-- A chunk that is built has a line for every byte. -/
theorem Built.size_lines {c : Chunk α} (h : c.Built) : c.lines.size = c.code.size := by
  induction h with
  | empty => rfl
  | write byte line _ ih => simp [Chunk.write, ih]
  | addConstant value _ ih => exact ih

theorem length_annotated {c : Chunk α} (h : c.lines.size = c.code.size) :
    c.annotated.length = c.size := by
  simp [annotated, h, size]

/-- What an entry of the annotated code says about the code and the lines. -/
theorem of_annotated {c : Chunk α} {offset : Nat} {byte : UInt8} {line : Int}
    {rest : List (UInt8 × Int)} (h : c.annotated.drop offset = (byte, line) :: rest) :
    c.code[offset]? = some byte ∧ c.lineAt? offset = some line ∧
      c.annotated.drop (offset + 1) = rest := by
  have hentry : c.annotated[offset]? = some (byte, line) := by
    rw [← List.head?_drop, h]
    rfl
  obtain ⟨hbyte, hline⟩ := List.getElem?_zip_eq_some.mp hentry
  refine ⟨by simpa using hbyte, by simpa [lineAt?] using hline, ?_⟩
  rw [← List.drop_drop, h]
  rfl

theorem of_annotated_nil {c : Chunk α} (hlines : c.lines.size = c.code.size) {offset : Nat}
    (h : c.annotated.drop offset = []) : c.code[offset]? = none ∧ ¬offset < c.size := by
  have hend : c.size ≤ offset := by
    rw [← length_annotated hlines]
    exact List.drop_eq_nil_iff.mp h
  exact ⟨Array.getElem?_eq_none hend, Nat.not_lt.mpr hend⟩

end Chunk

/-! ## Walks -/

/-- The number of operands that an operation takes off the stack. -/
def Opcode.arity : Opcode → Nat
  | constant => 0
  | operator _ => 2
  | negate => 1
  | ret => 1

/-- How code ends. -/
inductive Ending where
  | value
  /-- Something that compiled code never does, as it is worded and with its line. -/
  | violation (message : String) (line : Option Int)
  /-- A constant that is not there, or the place of one that is not there, as it is worded. -/
  | outOfRange (message : String)
  deriving DecidableEq, Repr

/-- What a walk comes to. -/
structure Walk where
  ending : Ending
  /-- The number of instructions that were begun. -/
  instructions : Nat
  offset : Nat
  height : Nat
  deriving DecidableEq, Repr

/-- A walk with one more instruction before it. -/
def Walk.next (w : Walk) : Walk := { w with instructions := w.instructions + 1 }

/-- The walk from an offset on, given the bytes from there on with their lines, the height of
the stack, and the number of constants. -/
def walk (constants offset height : Nat) : List (UInt8 × Int) → Walk
  | [] => ⟨.violation "Ran past the end of the chunk." none, 0, offset, height⟩
  | (byte, line) :: rest =>
    match Opcode.ofByte? byte with
    | none => ⟨.violation s!"Unknown opcode {byte.toNat}" line, 1, offset + 1, height⟩
    | some .constant =>
      match rest with
      | [] => ⟨.outOfRange "bytearray index out of range", 1, offset + 1, height⟩
      | (index, _) :: rest =>
        if index.toNat < constants then (walk constants (offset + 2) (height + 1) rest).next
        else ⟨.outOfRange "list index out of range", 1, offset + 2, height⟩
    | some op =>
      if height < op.arity then ⟨.violation "Stack underflow." line, 1, offset + 1, 0⟩
      else if op = .ret then ⟨.value, 1, offset + 1, height - 1⟩
      else (walk constants (offset + 1) (height - op.arity + 1) rest).next

/-- The walk through a whole chunk, from its beginning on an empty stack. -/
def Chunk.walk {α : Type} (c : Chunk α) : Walk :=
  LoxBytecode.walk c.constants.size 0 0 c.annotated

/-- Every instruction begins at a byte of its own. -/
theorem instructions_walk_le (constants offset height : Nat) (entries : List (UInt8 × Int)) :
    (walk constants offset height entries).instructions ≤ entries.length := by
  fun_induction walk constants offset height entries <;> simp_all [Walk.next]
  omega

end LoxBytecode

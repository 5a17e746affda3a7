import LoxBytecode.Bytecode.Chunk
import LoxBytecode.Text.Padded

/-!
# Code listings

A listing shows a chunk instruction by instruction: the offset, the source line
where it differs from that of the byte before, and the operation with its operand.
Unknown bytes are shown as such, and so are indices that the pool lacks; but an
instruction whose operand or whose line is missing cannot be listed.  Then the part
of the chunk is told that lacks something.
-/

namespace LoxBytecode.Chunk

variable {α : Type} [Number α]

/-- The offset and line columns of the instruction at `offset`, which is on `line`. -/
def listingMargin (c : Chunk α) (offset : Nat) (line : Int) : String :=
  let offsetColumn := Text.alignRight 4 '0' (toString offset)
  let lineColumn :=
    if 0 < offset ∧ c.lineAt? (offset - 1) = some line then "   |"
    else Text.alignRight 4 ' ' (toString line)
  offsetColumn ++ " " ++ lineColumn ++ " "

/-- The text of the constant at an index, as a listing shows it. -/
def constantText (c : Chunk α) (index : UInt8) : String :=
  (c.constants[index.toNat]?).elim "?" Number.render

/-- The listing of the instruction at `offset` and the offset behind it.  Its line is read before
its bytes. -/
def instructionAt (c : Chunk α) (offset : Nat) : Except Part (String × Nat) :=
  match c.lineAt? offset, c.code[offset]? with
  | none, _ => .error .lines
  | some _, none => .error .code
  | some line, some byte =>
    let margin := c.listingMargin offset line
    match Opcode.ofByte? byte with
    | none => .ok (margin ++ "Unknown opcode " ++ toString byte.toNat, offset + 1)
    | some .constant =>
      match c.code[offset + 1]? with
      | none => .error .code
      | some index =>
        let operation := Text.alignLeft 16 ("OP_" ++ Opcode.constant.name)
        let operand := Text.alignRight 4 ' ' (toString index.toNat)
        .ok (margin ++ operation ++ " " ++ operand ++ " '" ++ c.constantText index ++ "'",
          offset + 2)
    | some op => .ok (margin ++ "OP_" ++ op.name, offset + op.size)

theorem offset_lt_of_instructionAt {c : Chunk α} {offset next : Nat} {text : String}
    (h : c.instructionAt offset = .ok (text, next)) : offset < next := by
  unfold instructionAt at h
  split at h
  · cases h
  · cases h
  · split at h
    · simp only [Except.ok.injEq, Prod.mk.injEq] at h
      omega
    · split at h
      · cases h
      · simp only [Except.ok.injEq, Prod.mk.injEq] at h
        omega
    · rename_i op _ _
      simp only [Except.ok.injEq, Prod.mk.injEq] at h
      have hsize : 0 < op.size := by cases op <;> exact Nat.succ_pos _
      omega

/-- The listings of all instructions from `offset` on. -/
def instructionsFrom (c : Chunk α) (offset : Nat) : Except Part (List String) :=
  if offset < c.size then
    match _h : c.instructionAt offset with
    | .error part => .error part
    | .ok (text, next) => (instructionsFrom c next).map (text :: ·)
  else .ok []
termination_by c.size - offset
decreasing_by
  have := offset_lt_of_instructionAt _h
  omega

/-- The listing of a chunk under a name. -/
def disassemble (c : Chunk α) (name : String) : Except Part String :=
  (c.instructionsFrom 0).map fun entries => "\n".intercalate (s!"== {name} ==" :: entries)

/-! ## What can be listed -/

/-- The listing of the instruction at `offset`, if it can be listed. -/
def instructionAt? (c : Chunk α) (offset : Nat) : Option (String × Nat) :=
  (c.instructionAt offset).toOption

def instructionsFrom? (c : Chunk α) (offset : Nat) : Option (List String) :=
  (c.instructionsFrom offset).toOption

/-- The listing of a chunk, if all of it can be listed. -/
def disassemble? (c : Chunk α) (name : String) : Option String :=
  (c.disassemble name).toOption

end LoxBytecode.Chunk

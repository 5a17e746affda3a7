import LoxBytecode.Proofs.Bytecode.Entries

/-!
# Code in pieces

A listing goes through code from the beginning, whatever the bytes are: a load takes the byte
behind it along, and any other byte stands by itself, known or not.  Where code falls into such
pieces, its listing has one entry for each of them (`disassemble?_pieces`).

An unknown byte shows in its entry, and so does an index that the pool lacks.  Where there is
neither, the entries are plain: they are made of digits, capital letters and few other characters.
-/

namespace LoxBytecode

theorem Opcode.byte_of_ofByte? {byte : UInt8} {op : Opcode} (h : ofByte? byte = some op) :
    byte = op.byte := by
  apply UInt8.toNat_inj.mp
  unfold ofByte? at h
  split at h <;> cases h <;> assumption

/-- A piece of code that has one entry in a listing. -/
inductive Piece where
  /-- The load of the constant at an index. -/
  | load (index : UInt8)
  | single (byte : UInt8) (hsingle : byte ≠ Opcode.constant.byte)

namespace Piece

def bytes : Piece → List UInt8
  | load index => [Opcode.constant.byte, index]
  | single byte _ => [byte]

/-- The operation of a piece, if it is known. -/
def opcode? : Piece → Option Opcode
  | load _ => some .constant
  | single byte _ => Opcode.ofByte? byte

/-- The piece that consists of an operation without operand. -/
def bare (op : Opcode) (hbare : op ≠ .constant) : Piece :=
  .single op.byte fun hbyte => hbare <| by
    have hop := congrArg Opcode.ofByte? hbyte
    simpa using hop

@[simp] theorem bytes_bare (op : Opcode) (hbare : op ≠ .constant) :
    (bare op hbare).bytes = [op.byte] := rfl

@[simp] theorem opcode?_bare (op : Opcode) (hbare : op ≠ .constant) :
    (bare op hbare).opcode? = some op := Opcode.ofByte?_byte op

end Piece

/-! ## Listing pieces -/

namespace Chunk

variable {α : Type} [Number α] {c : Chunk α} {offset : Nat}

/-- What a listing shows of a piece behind the offset and the line. -/
def pieceText (c : Chunk α) : Piece → String
  | .load index =>
    Text.alignLeft 16 ("OP_" ++ Opcode.constant.name) ++ " " ++
      Text.alignRight 4 ' ' (toString index.toNat) ++ " '" ++ c.constantText index ++ "'"
  | .single byte _ =>
    (Opcode.ofByte? byte).elim ("Unknown opcode " ++ toString byte.toNat) ("OP_" ++ ·.name)

/-- The entries of the pieces from an offset on. -/
def pieceEntries (c : Chunk α) (offset : Nat) : List Piece → List String
  | [] => []
  | piece :: later =>
    (c.listingMargin offset ((c.lineAt? offset).getD 0) ++ c.pieceText piece) ::
      c.pieceEntries (offset + piece.bytes.length) later

theorem length_pieceEntries (c : Chunk α) (offset : Nat) (pieces : List Piece) :
    (c.pieceEntries offset pieces).length = pieces.length := by
  induction pieces generalizing offset with
  | nil => rfl
  | cons piece later ih => rw [pieceEntries, List.length_cons, ih, List.length_cons]

omit [Number α] in
theorem getElem?_code_of_drop {byte : UInt8} {rest : List UInt8}
    (h : c.code.toList.drop offset = byte :: rest) :
    c.code[offset]? = some byte ∧ c.code.toList.drop (offset + 1) = rest := by
  rw [← List.drop_drop, h, ← Array.getElem?_toList, ← List.head?_drop, h]
  exact ⟨rfl, rfl⟩

/-- Where a piece stands in the code, it is listed. -/
theorem instructionAt?_piece {piece : Piece} {rest : List UInt8}
    (hlines : c.lines.size = c.code.size)
    (hcode : c.code.toList.drop offset = piece.bytes ++ rest) :
    c.instructionAt? offset =
      some (c.listingMargin offset ((c.lineAt? offset).getD 0) ++ c.pieceText piece,
        offset + piece.bytes.length) := by
  cases piece with
  | load index =>
      obtain ⟨hbyte, hbehind⟩ := getElem?_code_of_drop hcode
      obtain ⟨hindex, -⟩ := getElem?_code_of_drop hbehind
      obtain ⟨line, hline⟩ := exists_lineAt? hlines hbyte
      rw [instructionAt?_load hline hbyte hindex, hline]
      simp [pieceText, Piece.bytes, String.append_assoc]
  | single byte hsingle =>
      obtain ⟨hbyte, -⟩ := getElem?_code_of_drop hcode
      obtain ⟨line, hline⟩ := exists_lineAt? hlines hbyte
      cases hop : Opcode.ofByte? byte with
      | none =>
          rw [instructionAt?_unknown hline hop hbyte, hline]
          simp [pieceText, hop, Piece.bytes]
      | some op =>
          obtain rfl := Opcode.byte_of_ofByte? hop
          have hbare : op ≠ .constant := fun hload => hsingle (congrArg Opcode.byte hload)
          rw [instructionAt?_bare hline hbare hbyte, hline]
          simp [pieceText, Piece.bytes]

/-- Where pieces make up the rest of the code, their entries make up the listing. -/
theorem instructionsFrom?_pieces {pieces : List Piece} (hlines : c.lines.size = c.code.size)
    (hcode : c.code.toList.drop offset = pieces.flatMap Piece.bytes) :
    c.instructionsFrom? offset = some (c.pieceEntries offset pieces) := by
  induction pieces generalizing offset with
  | nil =>
      have hend : c.code.toList.length ≤ offset := List.drop_eq_nil_iff.mp hcode
      exact instructionsFrom?_of_end (Nat.not_lt.mpr hend)
  | cons piece later ih =>
      rw [List.flatMap_cons] at hcode
      have hcode' : c.code.toList.drop (offset + piece.bytes.length) =
          later.flatMap Piece.bytes := by
        rw [← List.drop_drop, hcode, List.drop_left]
      rw [instructionsFrom?_of_entry (instructionAt?_piece hlines hcode), ih hcode',
        Option.map_some, pieceEntries]

/-- The listing of code that falls into pieces. -/
theorem disassemble?_pieces {pieces : List Piece} (hlines : c.lines.size = c.code.size)
    (hcode : c.code.toList = pieces.flatMap Piece.bytes) (name : String) :
    c.disassemble? name =
      some ("\n".intercalate (s!"== {name} ==" :: c.pieceEntries 0 pieces)) := by
  rw [disassemble?_eq, instructionsFrom?_pieces hlines (by rwa [List.drop_zero]), Option.map_some]

end Chunk

/-! ## Plain entries -/

namespace Text

/-- The characters of plain text. -/
def isPlain (c : Char) : Bool := c.isDigit || c.isUpper || " |'_-.infa".toList.contains c

/-- Text that consists of digits, capital letters and few other characters. -/
def Plain (text : String) : Prop := ∀ c ∈ text.toList, isPlain c = true

instance (text : String) : Decidable (Plain text) := List.decidableBAll _ _

theorem Plain.newline_notMem {text : String} (h : Plain text) : '\n' ∉ text.toList :=
  fun hnewline => absurd (h _ hnewline) (by decide)

theorem Plain.append {text more : String} (h : Plain text) (hmore : Plain more) :
    Plain (text ++ more) := by
  rw [Plain, String.toList_append]
  exact List.forall_mem_append.mpr ⟨h, hmore⟩

theorem Plain.alignRight {fill : Char} {text : String} (h : Plain text)
    (hfill : isPlain fill = true) (width : Nat) : Plain (alignRight width fill text) := by
  rw [Plain, toList_alignRight]
  refine List.forall_mem_append.mpr ⟨fun c hc => ?_, h⟩
  rwa [List.eq_of_mem_replicate hc]

theorem isPlain_of_isDigit {c : Char} (h : c.isDigit = true) : isPlain c = true := by
  rw [isPlain, h, Bool.true_or, Bool.true_or]

theorem plain_nat (n : Nat) : Plain (toString n) := by
  intro c hc
  rw [Nat.toString_eq_repr, Nat.toList_repr] at hc
  exact isPlain_of_isDigit (Nat.isDigit_of_mem_toDigits (by decide) (by decide) hc)

theorem plain_int (n : Int) : Plain (toString n) := by
  cases n with
  | ofNat n => exact plain_nat n
  | negSucc n => exact .append (by decide : Plain "-") (plain_nat (n + 1))

theorem plain_name (op : Opcode) : Plain ("OP_" ++ op.name) := by
  rcases op with _ | (_ | _ | _ | _) | _ | _ <;> decide

end Text

namespace Chunk

open Text

variable {α : Type} [Number α] {c : Chunk α} {offset : Nat}

omit [Number α] in
theorem plain_listingMargin (c : Chunk α) (offset : Nat) (line : Int) :
    Plain (c.listingMargin offset line) := by
  unfold listingMargin
  have hoffset := (plain_nat offset).alignRight (by decide : isPlain '0' = true) 4
  have hline := (plain_int line).alignRight (by decide : isPlain ' ' = true) 4
  refine ((hoffset.append (by decide)).append ?_).append (by decide)
  split
  · decide
  · exact hline

/-- The text of a piece is plain if its operation is known, and its constant in the pool. -/
theorem plain_pieceText (hrender : ∀ x : α, Plain (Number.render x)) {piece : Piece}
    (hknown : piece.opcode?.isSome)
    (hindex : ∀ index, piece = .load index → index.toNat < c.constants.size) :
    Plain (c.pieceText piece) := by
  cases piece with
  | load index =>
      obtain ⟨value, hvalue⟩ : ∃ value : α, c.constantText index = Number.render value := by
        have hlt := hindex index rfl
        exact ⟨c.constants[index.toNat], by simp [constantText, hlt]⟩
      have hnumber := (plain_nat index.toNat).alignRight (by decide : isPlain ' ' = true) 4
      rw [pieceText, hvalue]
      exact .append (.append (.append (.append (by decide) hnumber) (by decide)) (hrender _))
        (by decide)
  | single byte hsingle =>
      obtain ⟨op, hop⟩ := Option.isSome_iff_exists.mp hknown
      rw [pieceText, show Opcode.ofByte? byte = some op from hop]
      exact plain_name op

theorem plain_pieceEntries (hrender : ∀ x : α, Plain (Number.render x)) {pieces : List Piece}
    (hknown : ∀ piece ∈ pieces, piece.opcode?.isSome)
    (hindex : ∀ index, .load index ∈ pieces → index.toNat < c.constants.size) :
    ∀ entry ∈ c.pieceEntries offset pieces, Plain entry := by
  induction pieces generalizing offset with
  | nil => exact List.forall_mem_nil _
  | cons piece later ih =>
      obtain ⟨hpiece, hlater⟩ := List.forall_mem_cons.mp hknown
      refine List.forall_mem_cons.mpr ⟨(plain_listingMargin c offset _).append ?_, ?_⟩
      · exact plain_pieceText hrender hpiece fun index hload =>
          hindex index (List.mem_cons.mpr (.inl hload.symm))
      · exact ih hlater fun index hload => hindex index (List.mem_cons_of_mem _ hload)

end Chunk

end LoxBytecode

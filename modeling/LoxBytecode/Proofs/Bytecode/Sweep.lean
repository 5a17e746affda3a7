import LoxBytecode.Proofs.Bytecode.Pieces
import LoxBytecode.Proofs.Bytecode.Walk
import LoxBytecode.Proofs.Double.Legible

/-!
# Sweeping through code

A sweep goes through code from the beginning and knows of a byte only whether it is a load: a load
takes two bytes, and any other byte stands by itself, known or not.  The places that it comes by
are in order, and every byte of the code belongs to just one of them (`existsUnique_sweep`).

A listing comes by the same places, and shows each of them on a line of its own.  What it cannot
show is a load that is cut off, since there is no byte left for its operand.  So code can be listed
just where the sweep meets no such load (`disassemble?_sweep`).
-/

namespace LoxBytecode

namespace Chunk

variable {α : Type} {c : Chunk α} {offset place : Nat}

/-! ## The sweep -/

/-- The number of bytes that an instruction at an offset takes. -/
def sizeAt (c : Chunk α) (offset : Nat) : Nat :=
  if c.code[offset]? = some Opcode.constant.byte then 2 else 1

theorem sizeAt_pos (c : Chunk α) (offset : Nat) : 0 < c.sizeAt offset := by
  unfold sizeAt
  split <;> decide

/-- The places of the instructions from an offset on. -/
def sweepFrom (c : Chunk α) (offset : Nat) : List Nat :=
  if offset < c.size then offset :: sweepFrom c (offset + c.sizeAt offset) else []
termination_by c.size - offset
decreasing_by
  have := c.sizeAt_pos offset
  omega

/-- The places of all instructions. -/
def sweep (c : Chunk α) : List Nat := c.sweepFrom 0

/-- There is a load at an offset, and it is the last byte of the code. -/
def CutOff (c : Chunk α) (offset : Nat) : Prop :=
  c.code[offset]? = some Opcode.constant.byte ∧ offset + 1 = c.size

theorem le_of_mem_sweepFrom (h : place ∈ c.sweepFrom offset) : offset ≤ place := by
  fun_induction sweepFrom c offset with
  | case1 offset _ ih =>
      rcases List.mem_cons.mp h with rfl | hlater
      · exact Nat.le_refl _
      · exact Nat.le_of_add_right_le (ih hlater)
  | case2 => cases h

/-- The places come in order. -/
theorem pairwise_sweepFrom (c : Chunk α) (offset : Nat) :
    (c.sweepFrom offset).Pairwise (· < ·) := by
  fun_induction sweepFrom c offset with
  | case1 offset _ ih =>
      refine List.pairwise_cons.mpr ⟨fun place hplace => ?_, ih⟩
      have hle := le_of_mem_sweepFrom hplace
      have hpos := c.sizeAt_pos offset
      omega
  | case2 => exact .nil

theorem head?_sweep (c : Chunk α) : ∀ first ∈ c.sweep.head?, first = 0 := by
  intro first hfirst
  rw [sweep, sweepFrom] at hfirst
  split at hfirst
  · exact (Option.some.inj hfirst).symm
  · cases hfirst

/-- The instruction at an offset takes the byte at a place. -/
def Covers (c : Chunk α) (offset place : Nat) : Prop :=
  offset ≤ place ∧ place < offset + c.sizeAt offset

/-- Every byte of the code ahead belongs to one instruction. -/
theorem existsUnique_sweepFrom (hle : offset ≤ place) (hlt : place < c.size) :
    ∃! first, first ∈ c.sweepFrom offset ∧ c.Covers first place := by
  fun_induction sweepFrom c offset with
  | case1 offset _ ih =>
      by_cases hhere : place < offset + c.sizeAt offset
      · refine ⟨offset, ⟨List.mem_cons_self, hle, hhere⟩, ?_⟩
        rintro other ⟨hother, hbegins, -⟩
        rcases List.mem_cons.mp hother with rfl | hlater
        · rfl
        · have := le_of_mem_sweepFrom hlater
          omega
      · obtain ⟨first, ⟨hfirst, hcovers⟩, hunique⟩ := ih (Nat.not_lt.mp hhere)
        refine ⟨first, ⟨List.mem_cons_of_mem _ hfirst, hcovers⟩, ?_⟩
        rintro other ⟨hother, hbegins, hends⟩
        rcases List.mem_cons.mp hother with rfl | hlater
        · exact absurd hends hhere
        · exact hunique other ⟨hlater, hbegins, hends⟩
  | case2 offset hout => omega

/-- Where nothing is cut off, instructions take nothing but bytes of the code. -/
theorem lt_size_of_covers {first : Nat} (hfirst : first ∈ c.sweepFrom offset)
    (hwhole : ¬c.CutOff first) (hcovers : c.Covers first place) : place < c.size := by
  have hinside : first < c.size := by
    fun_induction sweepFrom c offset with
    | case1 offset hoffset ih =>
        rcases List.mem_cons.mp hfirst with rfl | hlater
        · exact hoffset
        · exact ih hlater
    | case2 => cases hfirst
  obtain ⟨hbegins, hends⟩ := hcovers
  unfold sizeAt at hends
  split at hends
  · rename_i hload
    have hmore : first + 1 ≠ c.size := fun hlast => hwhole ⟨hload, hlast⟩
    omega
  · omega

/-! ## The listing at one place -/

theorem getElem?_code_of_cutOff (h : c.CutOff offset) : c.code[offset + 1]? = none :=
  Array.getElem?_eq_none (Nat.le_of_eq h.2.symm)

/-- What is not cut off is a piece of code, known or not. -/
theorem exists_piece (hinside : offset < c.size) (hwhole : ¬c.CutOff offset) :
    ∃ (piece : Piece) (rest : List UInt8), c.code.toList.drop offset = piece.bytes ++ rest ∧
      piece.bytes.length = c.sizeAt offset := by
  obtain ⟨byte, rest, hdrop⟩ : ∃ byte rest, c.code.toList.drop offset = byte :: rest :=
    List.exists_cons_of_length_pos (by
      rw [List.length_drop, Array.length_toList]
      exact Nat.sub_pos_of_lt hinside)
  obtain ⟨hbyte, hbehind⟩ := getElem?_code_of_drop hdrop
  by_cases hload : byte = Opcode.constant.byte
  · subst hload
    cases rest with
    | nil =>
        refine absurd ⟨hbyte, Nat.le_antisymm hinside ?_⟩ hwhole
        simpa [size] using List.drop_eq_nil_iff.mp hbehind
    | cons index rest => exact ⟨.load index, rest, hdrop, by rw [sizeAt, if_pos hbyte]; rfl⟩
  · refine ⟨.single byte hload, rest, hdrop, ?_⟩
    rw [sizeAt, if_neg fun hsame => hload (Option.some.inj (hbyte.symm.trans hsame))]
    rfl

variable [Number α]

theorem instructionAt_of_cutOff (hlines : c.lines.size = c.code.size) (h : c.CutOff offset) :
    c.instructionAt offset = .error .code := by
  obtain ⟨line, hline⟩ := exists_lineAt? hlines h.1
  simp [instructionAt, hline, h.1, getElem?_code_of_cutOff h]

theorem instructionAt?_of_cutOff (hlines : c.lines.size = c.code.size) (h : c.CutOff offset) :
    c.instructionAt? offset = none := by
  rw [instructionAt?, instructionAt_of_cutOff hlines h]
  rfl

theorem newline_notMem_pieceText (hrender : ∀ x : α, Text.Plain (Number.render x))
    (c : Chunk α) (piece : Piece) : '\n' ∉ (c.pieceText piece).toList := by
  cases piece with
  | load index =>
      have htext : c.pieceText (.load index) =
          Instruction.loadFront index.toNat ++ (c.constantText index ++ "'") := by
        simp only [pieceText, Instruction.loadFront, String.append_assoc]
      have hfront := Instruction.newline_notMem_loadFront index.toNat
      have hconstant : '\n' ∉ (c.constantText index).toList := by
        unfold constantText
        cases c.constants[index.toNat]? with
        | none => exact (by decide : '\n' ∉ "?".toList)
        | some value => exact (hrender value).newline_notMem
      simp [htext, hfront, hconstant]
  | single byte hsingle =>
      simp only [pieceText]
      cases Opcode.ofByte? byte with
      | none => simpa using (Text.plain_nat byte.toNat).newline_notMem
      | some op => exact (Instruction.isWord_name op).no_newline

/-- Whatever is not cut off can be listed, and the listing goes on where the sweep does. -/
theorem exists_instructionAt? (hlines : c.lines.size = c.code.size) (hinside : offset < c.size)
    (hwhole : ¬c.CutOff offset) :
    ∃ piece, c.instructionAt? offset =
      some (c.listingMargin offset ((c.lineAt? offset).getD 0) ++ c.pieceText piece,
        offset + c.sizeAt offset) := by
  obtain ⟨piece, rest, hcode, hsize⟩ := exists_piece hinside hwhole
  rw [← hsize]
  exact ⟨piece, instructionAt?_piece hlines hcode⟩

omit [Number α] in
theorem leadingNumber_listingMargin (c : Chunk α) (offset : Nat) (line : Int) (behind : String) :
    Text.leadingNumber (c.listingMargin offset line ++ behind) = offset := by
  simp only [listingMargin, String.append_assoc]
  exact Text.leadingNumber_alignRight 4 offset _

/-! ## Listings -/

/-- A load that is cut off is in the way of all listings that come by it. -/
theorem instructionsFrom?_of_cutOff (hlines : c.lines.size = c.code.size)
    (hplace : place ∈ c.sweepFrom offset) (hcut : c.CutOff place) :
    c.instructionsFrom? offset = none := by
  fun_induction sweepFrom c offset with
  | case1 offset hinside ih =>
      by_cases hwhole : c.CutOff offset
      · rw [instructionsFrom?_eq, if_pos hinside, instructionAt?_of_cutOff hlines hwhole]
      · obtain ⟨piece, hentry⟩ := exists_instructionAt? hlines hinside hwhole
        rcases List.mem_cons.mp hplace with rfl | hlater
        · exact absurd hcut hwhole
        · rw [instructionsFrom?_of_entry hentry, ih hlater, Option.map_none]
  | case2 => cases hplace

/-- Where nothing is cut off, each place has its line. -/
theorem exists_entries_of_sweepFrom (hrender : ∀ x : α, Text.Plain (Number.render x))
    (hlines : c.lines.size = c.code.size) (hwhole : ∀ o ∈ c.sweepFrom offset, ¬c.CutOff o) :
    ∃ entries, c.instructionsFrom? offset = some entries ∧
      entries.map Text.leadingNumber = c.sweepFrom offset ∧
      ∀ entry ∈ entries, '\n' ∉ entry.toList := by
  fun_induction sweepFrom c offset with
  | case1 offset hinside ih =>
      obtain ⟨hhere, hlater⟩ := List.forall_mem_cons.mp hwhole
      obtain ⟨piece, hentry⟩ := exists_instructionAt? hlines hinside hhere
      obtain ⟨entries, hentries, hoffsets, hlines'⟩ := ih hlater
      let margin := c.listingMargin offset ((c.lineAt? offset).getD 0)
      refine ⟨(margin ++ c.pieceText piece) :: entries, ?_, ?_,
        List.forall_mem_cons.mpr ⟨?_, hlines'⟩⟩
      · rw [instructionsFrom?_of_entry hentry, hentries, Option.map_some]
      · rw [List.map_cons, leadingNumber_listingMargin, hoffsets]
      · have hmargin : Text.Plain margin := plain_listingMargin c offset _
        rw [String.toList_append, List.mem_append, not_or]
        exact ⟨hmargin.newline_notMem, newline_notMem_pieceText hrender c piece⟩
  | case2 offset hout => exact ⟨[], instructionsFrom?_of_end hout, rfl, List.forall_mem_nil _⟩

end Chunk

/-- **Linear listings.**  A chunk that is built cannot be listed just where a sweep through its code
meets a load that is cut off.  Otherwise, where numbers have plain texts, the listing consists of
the header and one line for each place that the sweep comes by.  The offsets that these lines begin
with are the places: they start at 0 and increase, and every byte of the code, and nothing else,
belongs to just one of the instructions there. -/
theorem disassemble?_sweep {α : Type} [Number α] (hrender : ∀ x : α, Text.Plain (Number.render x))
    {chunk : Chunk α} (h : chunk.Built) (name : String) :
    (chunk.disassemble? name = none ↔ ∃ offset ∈ chunk.sweep, chunk.CutOff offset) ∧
      ∀ listing, chunk.disassemble? name = some listing →
        ∃ entries, listing = "\n".intercalate (s!"== {name} ==" :: entries) ∧
          (∀ entry ∈ entries, '\n' ∉ entry.toList) ∧
          entries.map Text.leadingNumber = chunk.sweep ∧
          chunk.sweep.Pairwise (· < ·) ∧ (∀ first ∈ chunk.sweep.head?, first = 0) ∧
          ∀ place, place < chunk.size ↔
            ∃! offset, offset ∈ chunk.sweep ∧ chunk.Covers offset place := by
  have hlines := h.size_lines
  by_cases hcut : ∃ offset ∈ chunk.sweep, chunk.CutOff offset
  · obtain ⟨offset, hoffset, hload⟩ := hcut
    have hnone : chunk.disassemble? name = none := by
      rw [Chunk.disassemble?_eq,
        Chunk.instructionsFrom?_of_cutOff hlines hoffset hload, Option.map_none]
    refine ⟨⟨fun _ => ⟨offset, hoffset, hload⟩, fun _ => hnone⟩, fun listing hlisting => ?_⟩
    cases hnone.symm.trans hlisting
  · have hwhole : ∀ offset ∈ chunk.sweep, ¬chunk.CutOff offset :=
      fun offset hoffset hload => hcut ⟨offset, hoffset, hload⟩
    obtain ⟨entries, hentries, hoffsets, hentryLines⟩ :=
      Chunk.exists_entries_of_sweepFrom hrender hlines hwhole
    have hlisting : chunk.disassemble? name =
        some ("\n".intercalate (s!"== {name} ==" :: entries)) := by
      rw [Chunk.disassemble?_eq, hentries, Option.map_some]
    refine ⟨⟨fun hnone => ?_, fun hload => absurd hload hcut⟩, fun listing hsome => ?_⟩
    · cases hnone.symm.trans hlisting
    refine ⟨entries, (Option.some.inj (hlisting.symm.trans hsome)).symm, hentryLines, hoffsets,
      chunk.pairwise_sweepFrom 0, chunk.head?_sweep, fun place => ⟨fun hplace => ?_, ?_⟩⟩
    · exact Chunk.existsUnique_sweepFrom (Nat.zero_le place) hplace
    · rintro ⟨offset, ⟨hoffset, hcovers⟩, -⟩
      exact Chunk.lt_size_of_covers hoffset (hwhole offset hoffset) hcovers

/-- Doubles have plain texts.  The second zero is an operand, although it looks like a load; the
third one is a load, and it is cut off unless there is one more byte. -/
theorem disassemble?_sweep_aligned :
    let whole : Chunk Double := { code := #[9, 0, 0, 0, 7], lines := #[1, 1, 1, 2, 2] }
    let cut : Chunk Double := { code := #[9, 0, 0, 0], lines := #[1, 1, 1, 2] }
    (∀ x : Double, Text.Plain (Number.render x)) ∧ cut.Built ∧ cut.disassemble? "code" = none ∧
      whole.Built ∧ whole.sweep = [0, 1, 3] ∧
      ∃ entries, whole.disassemble? "code" = some ("\n".intercalate ("== code ==" :: entries)) ∧
        (∀ entry ∈ entries, '\n' ∉ entry.toList) ∧
        entries.map Text.leadingNumber = [0, 1, 3] ∧
        ∀ place, place < 5 ↔ ∃! offset, offset ∈ [0, 1, 3] ∧ whole.Covers offset place := by
  intro whole cut
  have hcut : cut.Built := .write 0 2 (.write 0 1 (.write 0 1 (.write 9 1 .empty)))
  have hwhole : whole.Built := .write 7 2 hcut
  have hsweep : whole.sweep = [0, 1, 3] := by decide +kernel
  have hlast : 3 ∈ cut.sweep ∧ cut.CutOff 3 := ⟨by decide +kernel, rfl, rfl⟩
  have hnone := (disassemble?_sweep Double.plain_render hcut "code").1.mpr ⟨3, hlast⟩
  have hsome : (whole.disassemble? "code").isSome := by decide +kernel
  obtain ⟨listing, hlisting⟩ := Option.isSome_iff_exists.mp hsome
  obtain ⟨entries, rfl, hentries, hoffsets, -, -, hcovered⟩ :=
    (disassemble?_sweep Double.plain_render hwhole "code").2 listing hlisting
  rw [hsweep] at hoffsets hcovered
  exact ⟨Double.plain_render, hcut, hnone, hwhole, hsweep, entries, hlisting, hentries, hoffsets,
    hcovered⟩

end LoxBytecode

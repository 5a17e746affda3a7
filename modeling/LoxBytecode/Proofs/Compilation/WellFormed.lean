import LoxBytecode.Proofs.Compilation.Induction
import LoxBytecode.Proofs.Double.Legible

/-!
# Code is well formed, even if it is refused

A compilation goes on behind a fault, with operators that lack an operand, or with the first
constant in the place of one that the pool has no room for.  What it emits is refused then, but it
is code all the same: whole instructions, whose operations are known and whose constants are in the
pool, and one return behind them.

The invariant is that of code which has no return yet (`Unfinished`).  A constant is emitted either
behind a new entry of the pool or while the pool is full, and in both cases the index is that of an
entry.
-/

namespace LoxBytecode

/-! ## Well-formed code -/

namespace Chunk

variable {α : Type} {c : Chunk α} {pieces : List Piece}

/-- The code consists of pieces, each of which is a known operation, and what is loaded is in the
pool. -/
structure ConsistsOf (c : Chunk α) (pieces : List Piece) : Prop where
  size_lines : c.lines.size = c.code.size
  size_constants : c.constants.size ≤ maxConstants
  code : c.code.toList = pieces.flatMap Piece.bytes
  known : ∀ piece ∈ pieces, piece.opcode?.isSome
  loaded : ∀ index, .load index ∈ pieces → index.toNat < c.constants.size

/-- Code as it is when all has been emitted: the last piece returns, and no other one does. -/
structure WellFormed (c : Chunk α) (pieces : List Piece) : Prop extends c.ConsistsOf pieces where
  returns : ∃ body, pieces = body ++ [.bare .ret Opcode.ret_ne_constant] ∧
    ∀ piece ∈ body, piece.opcode? ≠ some .ret

/-- Code as it is before the return is emitted. -/
def Unfinished (c : Chunk α) : Prop :=
  ∃ pieces, c.ConsistsOf pieces ∧ ∀ piece ∈ pieces, piece.opcode? ≠ some .ret

theorem ConsistsOf.empty : ({} : Chunk α).ConsistsOf [] where
  size_lines := rfl
  size_constants := Nat.zero_le _
  code := rfl
  known := List.forall_mem_nil _
  loaded _ h := absurd h List.not_mem_nil

theorem ConsistsOf.bare (h : c.ConsistsOf pieces) (op : Opcode) (hbare : op ≠ .constant)
    (line : Int) : (c.write op.byte line).ConsistsOf (pieces ++ [.bare op hbare]) where
  size_lines := by simp [write, h.size_lines]
  size_constants := h.size_constants
  code := by simp [write, h.code]
  known := List.forall_mem_append.mpr ⟨h.known, by simp⟩
  loaded index hload := by
    rcases List.mem_append.mp hload with hload | hload
    · exact h.loaded index hload
    · cases List.mem_singleton.mp hload

theorem ConsistsOf.load (h : c.ConsistsOf pieces) {index : UInt8}
    (hindex : index.toNat < c.constants.size) (line : Int) :
    ((c.write Opcode.constant.byte line).write index line).ConsistsOf
      (pieces ++ [.load index]) where
  size_lines := by simp [write, h.size_lines]
  size_constants := h.size_constants
  code := by simp [write, h.code, Piece.bytes]
  known := List.forall_mem_append.mpr ⟨h.known, by simp [Piece.opcode?]⟩
  loaded other hload := by
    rcases List.mem_append.mp hload with hload | hload
    · exact h.loaded other hload
    · cases List.mem_singleton.mp hload
      exact hindex

/-- The pool may grow while there is room. -/
theorem ConsistsOf.addConstant (h : c.ConsistsOf pieces)
    (hroom : c.constants.size < maxConstants) (value : α) :
    (c.addConstant value).ConsistsOf pieces where
  size_lines := h.size_lines
  size_constants := by
    rw [Chunk.addConstant, Array.size_push]
    exact hroom
  code := h.code
  known := h.known
  loaded index hload := by
    have hindex := h.loaded index hload
    simp only [Chunk.addConstant, Array.size_push]
    omega

theorem Unfinished.bare (h : c.Unfinished) (op : Opcode) (hbare : op ≠ .constant)
    (hret : op ≠ .ret) (line : Int) : (c.write op.byte line).Unfinished := by
  obtain ⟨pieces, hpieces, hreturns⟩ := h
  exact ⟨_, hpieces.bare op hbare line, List.forall_mem_append.mpr ⟨hreturns, by simpa using hret⟩⟩

theorem Unfinished.load (h : c.Unfinished) {index : UInt8}
    (hindex : index.toNat < c.constants.size) (line : Int) :
    ((c.write Opcode.constant.byte line).write index line).Unfinished := by
  obtain ⟨pieces, hpieces, hreturns⟩ := h
  exact ⟨_, hpieces.load hindex line,
    List.forall_mem_append.mpr ⟨hreturns, by simp [Piece.opcode?]⟩⟩

theorem Unfinished.addConstant (h : c.Unfinished) (hroom : c.constants.size < maxConstants)
    (value : α) : (c.addConstant value).Unfinished := by
  obtain ⟨pieces, hpieces, hreturns⟩ := h
  exact ⟨pieces, hpieces.addConstant hroom value, hreturns⟩

theorem Unfinished.exists_wellFormed (h : c.Unfinished) (line : Int) :
    ∃ pieces, (c.write Opcode.ret.byte line).WellFormed pieces := by
  obtain ⟨body, hbody, hreturns⟩ := h
  exact ⟨_, hbody.bare .ret Opcode.ret_ne_constant line, body, rfl, hreturns⟩

/-- Well-formed code can be listed, one piece after the other, and nothing in it is unknown. -/
theorem ConsistsOf.exists_entries [Number α] (h : c.ConsistsOf pieces)
    (hrender : ∀ x : α, Text.Plain (Number.render x)) (name : String) :
    ∃ entries, c.disassemble? name = some ("\n".intercalate (s!"== {name} ==" :: entries)) ∧
      entries.length = pieces.length ∧ ∀ entry ∈ entries, Text.Plain entry :=
  ⟨c.pieceEntries 0 pieces, disassemble?_pieces h.size_lines h.code name,
    length_pieceEntries c 0 pieces, plain_pieceEntries hrender h.known h.loaded⟩

end Chunk

/-! ## The invariant -/

namespace Compilation

variable {α : Type} [Number α] {c : Compilation α}

/-- An index is in the pool, and it is a byte, since no index is larger. -/
theorem unfinished_emitNumber (h : c.chunk.Unfinished) (t : Token) :
    (c.emitNumber t).chunk.Unfinished := by
  have hmax : Chunk.maxConstants = 256 := rfl
  unfold emitNumber
  split
  · rename_i hroom
    refine (h.addConstant hroom _).load ?_ _
    have hbyte : c.chunk.constants.size.toUInt8.toNat = c.chunk.constants.size := by
      simp
      omega
    rw [hbyte]
    simp [Chunk.addConstant]
  · rename_i hfull
    refine h.load ?_ _
    show 0 < c.chunk.constants.size
    omega

/-- What is emitted into unfinished code leaves it unfinished. -/
def Extends (c d : Compilation α) : Prop := c.chunk.Unfinished → d.chunk.Unfinished

theorem rules_extends :
    Rules (α := α) (fun _ => Extends) (fun _ => Extends) (fun _ _ => Extends)
      (fun _ _ => Extends) where
  no_operand _ h := h
  operand _ _ hoperand hloop h := hloop (hoperand h)
  number h := unfinished_emitNumber h _
  grouping _ hinner h := hinner h
  negation _ hinner h := (hinner h).bare .negate Opcode.negate_ne_constant nofun _
  nesting _ _ hclimb h := hclimb h
  too_deep _ h := h
  no_operator _ h := h
  looser _ _ h := h
  operator _ _ _ hjoined hclimb hloop h := by
    subst hjoined
    exact hloop ((hclimb h).bare (.operator _) (Opcode.operator_ne_constant _) nofun _)

theorem exists_wellFormed_complete (source : List Char) :
    ∃ pieces, (ofSource source : Compilation α).complete.chunk.WellFormed pieces := by
  have hstart : (ofSource source : Compilation α).chunk.Unfinished :=
    ⟨[], .empty, List.forall_mem_nil _⟩
  have hexpression : (ofSource source : Compilation α).expression.chunk.Unfinished :=
    rules_extends.all.1 .assignment _ hstart
  exact hexpression.exists_wellFormed _

end Compilation

/-- A source text compiles to the code that has been emitted, or it is refused. -/
theorem compile_eq_ok_or_error {α : Type} [Number α] (source : List Char) :
    compile source = .ok (Compilation.ofSource source : Compilation α).complete.chunk ∨
      ∃ e, (compile source : Except CompileError (Chunk α)) = .error e := by
  cases hfailed : (Compilation.ofSource source : Compilation α).complete.window.hasFailed with
  | true => exact .inr ⟨_, if_pos hfailed⟩
  | false => exact .inl (if_neg (by simp [hfailed]))

/-- **The code of every source text is well formed.**  Whether the text is accepted or refused, the
code that has been emitted has a line for every byte, and it consists of known instructions with a
single return at the end; the constants that it loads are in the pool, which has no more than 256.
It can be listed, and where numbers have plain texts, the listing shows neither an unknown byte nor
a missing constant. -/
theorem wellFormed_complete {α : Type} [Number α] (hrender : ∀ x : α, Text.Plain (Number.render x))
    (source : List Char) (name : String) :
    let chunk : Chunk α := (Compilation.ofSource source).complete.chunk
    (compile source = .ok chunk ∨
        ∃ e, (compile source : Except CompileError (Chunk α)) = .error e) ∧
      ∃ pieces, chunk.WellFormed pieces ∧
        ∃ entries,
          chunk.disassemble? name = some ("\n".intercalate (s!"== {name} ==" :: entries)) ∧
            entries.length = pieces.length ∧
            ∀ entry ∈ entries,
              ¬"Unknown opcode".toList <:+: entry.toList ∧ '?' ∉ entry.toList := by
  intro chunk
  obtain ⟨pieces, hpieces⟩ := Compilation.exists_wellFormed_complete (α := α) source
  obtain ⟨entries, hlisting, hlength, hplain⟩ :=
    hpieces.toConsistsOf.exists_entries hrender name
  refine ⟨compile_eq_ok_or_error source, pieces, hpieces, entries, hlisting, hlength,
    fun entry hentry => ⟨fun hunknown => ?_, fun hmissing => ?_⟩⟩
  · have hletter : 'k' ∈ entry.toList := hunknown.subset (by decide)
    exact absurd (hplain entry hentry _ hletter) (by decide)
  · exact absurd (hplain entry hentry _ hmissing) (by decide)

/-- Doubles have plain texts.  The code of a text that is refused ends in a return as well, behind
an operator that lacks an operand. -/
theorem wellFormed_complete_missing_operand :
    (∀ x : Double, Text.Plain (Number.render x)) ∧
      let chunk : Chunk Double := (Compilation.ofSource "1 +".toList).complete.chunk
      (∃ e, (compile "1 +".toList : Except CompileError (Chunk Double)) = .error e) ∧
        chunk.code = #[0, 0, 1, 6] ∧
        ∃ pieces, chunk.WellFormed pieces ∧
          ∃ entries,
            chunk.disassemble? "code" = some ("\n".intercalate ("== code ==" :: entries)) ∧
              entries.length = pieces.length ∧
              ∀ entry ∈ entries,
                ¬"Unknown opcode".toList <:+: entry.toList ∧ '?' ∉ entry.toList := by
  refine ⟨Double.plain_render, ?_⟩
  intro chunk
  obtain ⟨-, hcode⟩ := wellFormed_complete Double.plain_render "1 +".toList "code"
  have hfailed :
      (Compilation.ofSource "1 +".toList : Compilation Double).complete.window.hasFailed = true := by
    decide +kernel
  exact ⟨⟨_, if_pos hfailed⟩, by decide +kernel, hcode⟩

end LoxBytecode

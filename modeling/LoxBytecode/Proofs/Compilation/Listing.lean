import LoxBytecode.Proofs.Bytecode.Entries
import LoxBytecode.Proofs.Compilation.Postorder
import LoxBytecode.Proofs.Double.Legible

/-!
# Listings of compiled code

Compiled code loads every constant once and in order, and both bytes of a load are on the same
line.  So it consists of instructions, and its listing tells these, one after the other: no two
chunks that source texts compile to have the same listing (`eq_of_disassemble?_eq`).
-/

namespace LoxBytecode

/-- The instructions that make up the code of an expression. -/
def Expr.instructions {α : Type} [Number α] : Expr → List (Instruction α)
  | literal t => [.load (Number.ofNumeral t.lexeme) t.line]
  | negation sign e => e.instructions ++ [.bare .negate sign.line Opcode.negate_ne_constant]
  | binary op mark left right =>
    left.instructions ++ right.instructions ++
      [.bare (.operator op) mark.line (Opcode.operator_ne_constant op)]

section Compile

variable {α : Type} [Number α]

theorem Expr.values_instructions (e : Expr) :
    e.instructions.flatMap Instruction.values = (e.numbers : List α) := by
  induction e with
  | literal t => rfl
  | negation sign e ih =>
      rw [instructions, List.flatMap_append, ih]
      simp [Instruction.values, numbers, literals]
  | binary op mark left right ihLeft ihRight =>
      rw [instructions, List.flatMap_append, List.flatMap_append, ihLeft, ihRight]
      simp [Instruction.values, numbers, literals]

theorem Expr.code_instructions (e : Expr) (first : Nat) :
    Instruction.code first (e.instructions : List (Instruction α)) = e.postorder first := by
  induction e generalizing first with
  | literal t => rfl
  | negation sign e ih =>
      rw [instructions, Instruction.code_append, ih]
      rfl
  | binary op mark left right ihLeft ihRight =>
      rw [instructions, Instruction.code_append, Instruction.code_append, ihLeft, ihRight,
        left.values_instructions, length_numbers]
      rfl

/-- What a source text compiles to consists of instructions. -/
theorem exists_instructions_of_compile {source : List Char} {chunk : Chunk α}
    (h : compile source = .ok chunk) :
    ∃ l : List (Instruction α), l ≠ [] ∧ chunk = Instruction.assembled l ∧
      (l.flatMap Instruction.values).length ≤ 256 ∧
      ∀ value ∈ l.flatMap Instruction.values, ∃ text, value = Number.ofNumeral text := by
  obtain ⟨stop, htokens, hstop⟩ := tokens_eq_body_append source
  obtain ⟨e, hparse⟩ := (acceptable_of_compile h).exists_parse
  have hchunk := eq_extend_of_compile h hparse htokens hstop
  let l : List (Instruction α) := e.instructions ++ [.bare .ret stop.line Opcode.ret_ne_constant]
  have hvalues : l.flatMap Instruction.values = e.numbers := by
    rw [List.flatMap_append, e.values_instructions]
    simp [Instruction.values]
  have hcode : Instruction.code 0 l = e.postorder 0 ++ [(Opcode.ret.byte, (stop.line : Int))] := by
    rw [Instruction.code_append, e.code_instructions]
    rfl
  refine ⟨l, by simp [l], ?_, ?_, ?_⟩
  · rw [Instruction.assembled, hcode, hvalues, hchunk]
  · have hroom := size_constants_of_compile h
    rw [hvalues]
    simpa [hchunk] using hroom
  · intro value hvalue
    rw [hvalues, Expr.numbers] at hvalue
    obtain ⟨t, -, rfl⟩ := List.mem_map.mp hvalue
    exact ⟨t.lexeme, rfl⟩

end Compile

/-- What holds of the numbers that numerals denote holds of all constants of compiled code. -/
theorem forall_of_numerals {α : Type} [Number α] {p : α → Prop}
    (hnumeral : ∀ text, p (Number.ofNumeral text)) {numbers : List α}
    (h : ∀ x ∈ numbers, ∃ text, x = Number.ofNumeral text) : ∀ x ∈ numbers, p x := by
  intro x hx
  obtain ⟨text, rfl⟩ := h x hx
  exact hnumeral text

/-- **The listing of compiled code loses nothing**, if the numbers that numerals denote can be told
from their texts.  What source texts compile to can be listed, and if two of the listings are the
same, under whatever name, then so are the chunks: their bytes, the line of each of them, and the
constants. -/
theorem eq_of_disassemble?_eq {α : Type} [Number α] {p : α → Prop} (hlegible : Legible p)
    (hnumeral : ∀ text, p (Number.ofNumeral text)) {source source' : List Char}
    {chunk chunk' : Chunk α} (h : compile source = .ok chunk) (h' : compile source' = .ok chunk')
    (name : String) :
    ∃ listing listing', chunk.disassemble? name = some listing ∧
      chunk'.disassemble? name = some listing' ∧ (listing = listing' → chunk = chunk') := by
  obtain ⟨l, hne, rfl, hroom, hnumerals⟩ := exists_instructions_of_compile h
  obtain ⟨l', hne', rfl, hroom', hnumerals'⟩ := exists_instructions_of_compile h'
  refine ⟨_, _, Chunk.disassemble?_assembled hroom name, Chunk.disassemble?_assembled hroom' name,
    fun hsame => ?_⟩
  have hvalues := forall_of_numerals hnumeral hnumerals
  have hvalues' := forall_of_numerals hnumeral hnumerals'
  rw [Instruction.eq_of_listing hlegible hvalues hvalues' hne hne' hsame]

/-- Of doubles the listing loses no bit: all but the NaNs can be told from their texts, and no
numeral denotes a NaN.  The numerals `1.50` and `1.5` denote the same number, and a grouping leaves
no trace. -/
theorem eq_of_disassemble?_eq_groupings :
    Legible (fun x : Double => x.isNaN = false) ∧
      (∀ text, (Number.ofNumeral text : Double).isNaN = false) ∧
      ∃ chunk chunk' : Chunk Double, compile "0.1\n+1.50".toList = .ok chunk ∧
        compile "(0.1)\n+(1.5)".toList = .ok chunk' ∧
        chunk.disassemble? "code" = some ("\n".intercalate ["== code ==",
          "0000    1 OP_CONSTANT         0 '0.1'", "0002    2 OP_CONSTANT         1 '1.5'",
          "0004    | OP_ADD", "0005    | OP_RETURN"]) ∧
        chunk'.disassemble? "code" = chunk.disassemble? "code" ∧ chunk = chunk' := by
  have hfits : Reading.start.diagnosis? (tokens "0.1\n+1.50".toList) = none := by decide +kernel
  have hfits' : Reading.start.diagnosis? (tokens "(0.1)\n+(1.5)".toList) = none := by
    decide +kernel
  have hcompile := compile_eq_ok (α := Double) hfits
  have hcompile' := compile_eq_ok (α := Double) hfits'
  obtain ⟨listing, listing', hlisting, hlisting', hsame⟩ :=
    eq_of_disassemble?_eq Double.legible Double.isNaN_ofNumeral hcompile hcompile' "code"
  refine ⟨Double.legible, Double.isNaN_ofNumeral, _, _, hcompile, hcompile', by decide +kernel,
    by decide +kernel, hsame ?_⟩
  rw [← Option.some.injEq, ← hlisting, ← hlisting']
  decide +kernel

end LoxBytecode

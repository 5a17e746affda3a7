import LoxBytecode.Proofs.Compilation.Postorder
import LoxBytecode.Proofs.Machine.Execution

/-!
# Executing compiled code

A machine that comes to the code of an expression leaves the value of the expression on
its stack and goes on behind that code, whatever else the chunk and the stack hold.  From
this, and from what a source text compiles to, it follows that an execution returns the
value of the source text.
-/

namespace LoxBytecode

/-! ## Parts of code and constants -/

/-- `part` stands in `whole` from the offset on. -/
def StandsAt {β : Type} (whole : List β) (offset : Nat) (part : List β) : Prop :=
  ∃ before behind, whole = before ++ part ++ behind ∧ before.length = offset

section StandsAt

variable {β : Type} {whole first second : List β} {offset : Nat}

theorem StandsAt.left (h : StandsAt whole offset (first ++ second)) :
    StandsAt whole offset first := by
  obtain ⟨before, behind, hwhole, hlength⟩ := h
  exact ⟨before, second ++ behind, by rw [hwhole]; simp, hlength⟩

theorem StandsAt.right (h : StandsAt whole offset (first ++ second)) :
    StandsAt whole (offset + first.length) second := by
  obtain ⟨before, behind, hwhole, hlength⟩ := h
  exact ⟨before ++ first, behind, by rw [hwhole]; simp, by simp [hlength]⟩

theorem StandsAt.getElem? {b : β} {rest : List β} (h : StandsAt whole offset (b :: rest)) :
    whole[offset]? = some b := by
  obtain ⟨before, behind, hwhole, hlength⟩ := h
  rw [hwhole, ← hlength]
  simp

end StandsAt

/-! ## The code of an expression -/

namespace Machine

variable {α : Type} [Number α]

/-- The machine behind the code of an expression, with its value on the stack. -/
def evaluated (m : Machine α) (first : Nat) (e : Expr) : Machine α :=
  { m with ip := m.ip + (e.postorder first).length, stack := e.value :: m.stack }

/-- The code of an expression puts its value on the stack. -/
theorem leads_evaluated (e : Expr) {m : Machine α} {first : Nat}
    (hlines : m.chunk.lines.size = m.chunk.code.size) (hroom : m.chunk.constants.size ≤ 256)
    (hcode : StandsAt m.chunk.code.toList m.ip ((e.postorder first).map Prod.fst))
    (hconstants : StandsAt m.chunk.constants.toList first e.numbers) :
    m.Leads (m.evaluated first e) := by
  induction e generalizing m first with
  | literal t =>
      have hop : m.chunk.code[m.ip]? = some Opcode.constant.byte := by
        simpa using hcode.getElem?
      have hindex : m.chunk.code[m.ip + 1]? = some first.toUInt8 := by
        have hboth : StandsAt m.chunk.code.toList m.ip
            ([Opcode.constant.byte] ++ [first.toUInt8]) := hcode
        simpa using hboth.right.getElem?
      have hvalue : m.chunk.constants[first]? = some (Number.ofNumeral t.lexeme) := by
        simpa using hconstants.getElem?
      have hfirst : first.toUInt8.toNat = first := by
        have hlt := (Array.getElem?_eq_some_iff.mp hvalue).1
        simp
        omega
      exact .single (proceeds_constant hlines hop hindex (hfirst.symm ▸ hvalue))
  | negation sign e ih =>
      rw [Expr.postorder, List.map_append] at hcode
      have hoperand : m.Leads (m.evaluated first e) := ih hlines hroom hcode.left hconstants
      have hop : m.chunk.code[(m.evaluated first e).ip]? = some Opcode.negate.byte := by
        simpa [evaluated] using hcode.right.getElem?
      have hnegate := proceeds_negate (m := m.evaluated first e) hlines hop rfl
      refine hoperand.tail ?_
      simpa [evaluated, Expr.postorder, Expr.value, Nat.add_assoc] using hnegate
  | binary op mark left right ihLeft ihRight =>
      rw [Expr.postorder, List.map_append, List.map_append] at hcode
      have hnumbers : StandsAt m.chunk.constants.toList first
          (left.numbers ++ (right.numbers : List α)) := by
        simpa [Expr.numbers, Expr.literals] using hconstants
      have hleft : m.Leads (m.evaluated first left) :=
        ihLeft hlines hroom hcode.left.left hnumbers.left
      -- the right operand runs on top of the value of the left one
      let between := m.evaluated first left
      let behind := between.evaluated (first + left.literals.length) right
      have hright : between.Leads behind := by
        refine ihRight (m := between) hlines hroom ?_ ?_
        · simpa [between, evaluated] using hcode.left.right
        · rw [← Expr.length_numbers (α := α) left]
          exact hnumbers.right
      have hop : behind.chunk.code[behind.ip]? = some (Opcode.operator op).byte := by
        simpa [behind, between, evaluated, Nat.add_assoc] using hcode.right.getElem?
      have hoperator := proceeds_operator (m := behind) hlines hop rfl
      refine (hleft.trans hright).tail ?_
      simpa [behind, between, evaluated, Expr.postorder, Nat.add_assoc] using hoperator

section Postorder

variable {chunk : Chunk α} {e : Expr} {line : Int}

theorem lines_of_postorder
    (hchunk : chunk = ({} : Chunk α).extend (e.postorder 0 ++ [(Opcode.ret.byte, line)]) e.numbers) :
    chunk.lines.size = chunk.code.size := by
  simp [hchunk, Chunk.extend]

theorem ret_of_postorder
    (hchunk : chunk = ({} : Chunk α).extend (e.postorder 0 ++ [(Opcode.ret.byte, line)]) e.numbers) :
    chunk.code[(e.postorder 0).length]? = some Opcode.ret.byte ∧
      chunk.size = (e.postorder 0).length + 1 := by
  have hcode : chunk.code.toList = (e.postorder 0).map Prod.fst ++ [Opcode.ret.byte] := by
    simp [hchunk, Chunk.extend]
  constructor
  · rw [← Array.getElem?_toList, hcode]
    simp
  · rw [Chunk.size, ← Array.length_toList, hcode]
    simp

theorem leads_of_postorder
    (hchunk : chunk = ({} : Chunk α).extend (e.postorder 0 ++ [(Opcode.ret.byte, line)]) e.numbers)
    (hroom : chunk.constants.size ≤ 256) (m : Machine α) :
    (m.load chunk).Leads ((m.load chunk).evaluated 0 e) := by
  have hcode : chunk.code.toList = (e.postorder 0).map Prod.fst ++ [Opcode.ret.byte] := by
    simp [hchunk, Chunk.extend]
  have hconstants : chunk.constants.toList = e.numbers := by simp [hchunk, Chunk.extend]
  refine leads_evaluated e (lines_of_postorder hchunk) hroom ?_ ?_
  · exact ⟨[], [Opcode.ret.byte], by rw [chunk_load, hcode]; rfl, rfl⟩
  · exact ⟨[], [], by rw [chunk_load, hconstants]; simp, rfl⟩

/-- The code of an expression with a return behind it returns the value of the expression. -/
theorem result_of_postorder
    (hchunk : chunk = ({} : Chunk α).extend (e.postorder 0 ++ [(Opcode.ret.byte, line)]) e.numbers)
    (hroom : chunk.constants.size ≤ 256) (tracing : Bool) (m : Machine α) :
    ((m.load chunk).resume tracing).result =
      (.ok e.value, { m.load chunk with ip := chunk.size }) := by
  obtain ⟨hret, hsize⟩ := ret_of_postorder hchunk
  have hop : chunk.code[((m.load chunk).evaluated 0 e).ip]? = some Opcode.ret.byte := by
    simpa [evaluated, load] using hret
  calc ((m.load chunk).resume tracing).result
      = (((m.load chunk).evaluated 0 e).resume tracing).result :=
        (leads_of_postorder hchunk hroom m).result
    _ = (.ok e.value, { (m.load chunk).evaluated 0 e with
          ip := ((m.load chunk).evaluated 0 e).ip + 1, stack := [] }) :=
        result_ret (lines_of_postorder hchunk) hop rfl
    _ = (.ok e.value, { m.load chunk with ip := chunk.size }) := by
        simp [evaluated, load, hsize]

end Postorder

end Machine

/-! ## The value of a source text -/

variable {α : Type} [Number α]

/-- **Compiling is correct.**  The code of a source text returns the value of its tree,
whatever the machine did before, and it leaves an empty stack and stands behind its code. -/
theorem run_of_compile {source : List Char} {chunk : Chunk α} (h : compile source = .ok chunk) :
    (∃ e, Parse .expression (body source) e) ∧
      ∀ e, Parse .expression (body source) e → ∀ (tracing : Bool) (m : Machine α),
        (m.run tracing chunk).outcome = .ok e.value ∧
          (m.run tracing chunk).machine.stack = [] ∧
          (m.run tracing chunk).machine.ip = chunk.size := by
  obtain ⟨stop, htokens, hstop⟩ := tokens_eq_body_append source
  refine ⟨(acceptable_of_compile h).exists_parse, fun e hparse tracing m => ?_⟩
  have hresult := Machine.result_of_postorder (eq_extend_of_compile h hparse htokens hstop)
    (size_constants_of_compile h) tracing m
  obtain ⟨houtcome, hmachine⟩ := Prod.mk.inj hresult
  refine ⟨houtcome, ?_, ?_⟩
  · exact congrArg Machine.stack hmachine
  · exact congrArg Machine.ip hmachine

/-- Differences are taken from the left. -/
theorem run_difference_from_left :
    ∃ chunk : Chunk Double, compile "8 - 4 - 2".toList = .ok chunk ∧
      (∃ e, Parse .expression (body "8 - 4 - 2".toList) e ∧
        ∀ (tracing : Bool) (m : Machine Double),
          (m.run tracing chunk).outcome = .ok e.value ∧
            (m.run tracing chunk).machine.stack = [] ∧
            (m.run tracing chunk).machine.ip = chunk.size) ∧
      (({} : Machine Double).run false chunk).outcome.toOption = some (Number.ofNumeral ['2']) := by
  have hfits : Reading.start.diagnosis? (tokens "8 - 4 - 2".toList) = none := by decide +kernel
  have hcompile := compile_eq_ok (α := Double) hfits
  obtain ⟨⟨e, hparse⟩, hruns⟩ := run_of_compile hcompile
  exact ⟨_, hcompile, ⟨e, hparse, hruns e hparse⟩, by decide +kernel⟩

end LoxBytecode

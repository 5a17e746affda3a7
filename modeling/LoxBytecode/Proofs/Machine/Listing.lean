import LoxBytecode.Proofs.Machine.Evaluation

/-!
# Listings of executed code

The listing of a chunk goes from one instruction to the next as an execution does that never
fails.  So where such an execution comes through the code of a chunk, the chunk can be listed;
in particular whatever a source text compiles to.
-/

namespace LoxBytecode

namespace Machine

variable {α : Type} [Number α] {m n : Machine α}

omit [Number α] in
theorem ip_pop (m : Machine α) : m.pop.2.ip = m.ip := by
  unfold pop
  split <;> rfl

/-- An operation that does not end the execution goes on behind its operand, if it has one. -/
theorem ip_of_perform {op : Opcode} (h : m.perform op = .next n) : n.ip + 1 = m.ip + op.size := by
  cases op with
  | constant =>
      cases hindex : m.chunk.code[m.ip]? with
      | none =>
          obtain ⟨fault, hread⟩ := exists_fault_of_readConstant hindex
          simp only [perform, hread, reduceCtorEq] at h
      | some index =>
          simp only [perform, readConstant_of_code hindex] at h
          cases hvalue : m.chunk.constants[index.toNat]? with
          | none => simp only [hvalue, reduceCtorEq] at h
          | some value =>
              simp only [hvalue] at h
              cases h
              rfl
  | operator op =>
      have hfirst := m.ip_pop
      simp only [perform] at h
      split at h
      · cases h
      · rename_i right middle hright
        have hsecond := middle.ip_pop
        split at h
        · cases h
        · rename_i left behind hleft
          cases h
          rw [hright] at hfirst
          rw [hleft] at hsecond
          exact congrArg (· + 1) (hsecond.trans hfirst)
  | negate =>
      have hpop := m.ip_pop
      simp only [perform] at h
      split at h
      · rename_i value behind hvalue
        cases h
        rw [hvalue] at hpop
        exact congrArg (· + 1) hpop
      · cases h
  | ret =>
      simp only [perform] at h
      split at h <;> cases h

theorem exists_opcode_of_step (h : m.step = .next n) :
    ∃ byte op, m.chunk.code[m.ip]? = some byte ∧ Opcode.ofByte? byte = some op ∧
      n.ip = m.ip + op.size := by
  obtain ⟨byte, hbyte⟩ := exists_byte_of_step fun fault l hfailed => by cases h.symm.trans hfailed
  rw [step_of_byte hbyte] at h
  split at h
  · rename_i op hop
    have hip : n.ip + 1 = m.ip + 1 + op.size := ip_of_perform h
    exact ⟨byte, op, hbyte, hop, by omega⟩
  · cases h

/-- Where an execution proceeds, the listing goes on at the same place. -/
theorem Proceeds.listing (h : m.Proceeds n) (hn : (n.chunk.instructionsFrom? n.ip).isSome) :
    (m.chunk.instructionsFrom? m.ip).isSome := by
  obtain ⟨⟨text, next⟩, hlisting⟩ := Option.isSome_iff_exists.mp h.listed
  obtain ⟨byte, op, hbyte, hop, hip⟩ := exists_opcode_of_step h.step
  have hnext : next = n.ip := (Chunk.next_of_instructionAt? hbyte hop hlisting).trans hip.symm
  rw [(forward_of_step h.step).1, ← hnext] at hn
  exact Chunk.isSome_instructionsFrom? hlisting hn

theorem Leads.listing (h : m.Leads n) (hn : (n.chunk.instructionsFrom? n.ip).isSome) :
    (m.chunk.instructionsFrom? m.ip).isSome := by
  induction h using Relation.ReflTransGen.head_induction_on with
  | refl => exact hn
  | head hstep _ ih => exact hstep.listing ih

end Machine

variable {α : Type} [Number α]

/-- Whatever a source text compiles to can be listed. -/
theorem exists_disassemble?_of_compile {source : List Char} {chunk : Chunk α}
    (h : compile source = .ok chunk) (name : String) :
    ∃ listing, chunk.disassemble? name = some listing := by
  obtain ⟨stop, htokens, hstop⟩ := tokens_eq_body_append source
  obtain ⟨e, hparse⟩ := (acceptable_of_compile h).exists_parse
  have hchunk := eq_extend_of_compile h hparse htokens hstop
  have hlines := Machine.lines_of_postorder hchunk
  obtain ⟨hret, hsize⟩ := Machine.ret_of_postorder hchunk
  -- the return is the last instruction
  obtain ⟨⟨text, next⟩, hlast⟩ :=
    Option.isSome_iff_exists.mp (Chunk.listed_of_code hlines hret (by rintro ⟨⟩))
  have hnext := Chunk.next_of_instructionAt? hret (Opcode.ofByte?_byte .ret) hlast
  have hend : ¬next < chunk.size := by
    rw [hnext, hsize]
    exact Nat.lt_irrefl _
  have hbehind := Chunk.isSome_instructionsFrom? hlast
    (by rw [Chunk.instructionsFrom?_of_end hend]; rfl)
  let m : Machine α := {}
  have hleads := Machine.leads_of_postorder hchunk (size_constants_of_compile h) m
  have hall : (chunk.instructionsFrom? 0).isSome :=
    hleads.listing (by simpa [Machine.evaluated, Machine.load] using hbehind)
  obtain ⟨entries, hentries⟩ := Option.isSome_iff_exists.mp hall
  exact ⟨_, by rw [Chunk.disassemble?_eq, hentries, Option.map_some]⟩

end LoxBytecode

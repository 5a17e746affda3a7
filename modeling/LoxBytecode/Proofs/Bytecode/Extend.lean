import LoxBytecode.Bytecode.Chunk

/-!
# Chunks with more behind them

`extend` puts bytes of code with their lines behind the code of a chunk, and numbers
behind its constants.  A chunk that is built with `write` and `addConstant` is the empty
one with something behind it, so code that is emitted piece by piece can be told as one
list.
-/

namespace LoxBytecode.Chunk

variable {α : Type}

/-- A chunk with more bytes, each with its line, and more constants behind it. -/
def extend (c : Chunk α) (bytes : List (UInt8 × Int)) (values : List α) : Chunk α where
  code := c.code ++ (bytes.map Prod.fst).toArray
  lines := c.lines ++ (bytes.map Prod.snd).toArray
  constants := c.constants ++ values.toArray

@[simp] theorem size_constants_extend (c : Chunk α) (bytes : List (UInt8 × Int))
    (values : List α) :
    (c.extend bytes values).constants.size = c.constants.size + values.length := by
  simp [extend]

@[simp] theorem extend_extend (c : Chunk α) (bytes bytes' : List (UInt8 × Int))
    (values values' : List α) :
    (c.extend bytes values).extend bytes' values' =
      c.extend (bytes ++ bytes') (values ++ values') := by
  simp [extend, Array.append_assoc]

theorem write_eq_extend (c : Chunk α) (byte : UInt8) (line : Int) :
    c.write byte line = c.extend [(byte, line)] [] := by
  simp [extend, write]

theorem addConstant_eq_extend (c : Chunk α) (value : α) :
    c.addConstant value = c.extend [] [value] := by
  simp [extend, addConstant]

/-- The code of a chunk, every byte with its line. -/
def annotated (c : Chunk α) : List (UInt8 × Int) := c.code.toList.zip c.lines.toList

/-- Where a chunk is put together from the beginning, every byte has its line. -/
theorem annotated_extend_empty (bytes : List (UInt8 × Int)) (values : List α) :
    (({} : Chunk α).extend bytes values).annotated = bytes := by
  simp [annotated, extend, List.zip_map']

end LoxBytecode.Chunk

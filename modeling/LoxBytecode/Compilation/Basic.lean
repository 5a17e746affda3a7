import LoxBytecode.Bytecode.Chunk
import LoxBytecode.Window.Progress

/-!
# Compilations

A compilation is the state of compiling one source text: the token window, the
chunk so far, and the number of groupings and negations that are open.  This file
holds its single moves; `Compilation.Expression` puts them together.
-/

namespace LoxBytecode

/-- The number of groupings and negations that may be open at once. -/
def maxNesting : Nat := 128

structure Compilation (α : Type) where
  window : Window
  chunk : Chunk α := {}
  depth : Nat := 0

namespace Compilation

variable {α : Type}

def ofSource (source : List Char) : Compilation α := { window := .ofSource source }

def current (c : Compilation α) : Token := c.window.current

def left (c : Compilation α) : Nat := c.window.left

def advance (c : Compilation α) : Compilation α := { c with window := c.window.advance }

/-- Moves over a token of the given kind; any other token is reported. -/
def expect (c : Compilation α) (kind : Token.Kind) (message : String) : Compilation α :=
  { c with window := c.window.expect kind message }

def reportAt (c : Compilation α) (t : Token) (message : String) : Compilation α :=
  { c with window := c.window.reportAt t message }

/-- Opens a grouping or negation. -/
def enter (c : Compilation α) : Compilation α := { c with depth := c.depth + 1 }

/-- Closes a grouping or negation. -/
def leave (c : Compilation α) : Compilation α := { c with depth := c.depth - 1 }

/-- Emits an operation without operand for a line. -/
def emit (c : Compilation α) (op : Opcode) (line : Int) : Compilation α :=
  { c with chunk := c.chunk.write op.byte line }

/-- Emits the instruction that loads the constant at an index. -/
def emitLoad (c : Compilation α) (index : Nat) (line : Int) : Compilation α :=
  { c with chunk := (c.chunk.write Opcode.constant.byte line).write index.toUInt8 line }

/-- Emits the number that a token denotes.  When the pool is full this is reported,
and the first constant stands in. -/
def emitNumber [Number α] (c : Compilation α) (t : Token) : Compilation α :=
  if c.chunk.constants.size < Chunk.maxConstants then
    let c' := { c with chunk := c.chunk.addConstant (Number.ofNumeral t.lexeme) }
    c'.emitLoad c.chunk.constants.size t.line
  else (c.reportAt t "Too many constants in one chunk.").emitLoad 0 t.line

/-! ## What the moves leave ahead -/

@[simp] theorem left_reportAt (c : Compilation α) (t : Token) (message : String) :
    (c.reportAt t message).left = c.left := by
  simp [left, reportAt]

@[simp] theorem left_enter (c : Compilation α) : c.enter.left = c.left := rfl

@[simp] theorem left_leave (c : Compilation α) : c.leave.left = c.left := rfl

@[simp] theorem left_emit (c : Compilation α) (op : Opcode) (line : Int) :
    (c.emit op line).left = c.left := rfl

@[simp] theorem left_emitLoad (c : Compilation α) (index : Nat) (line : Int) :
    (c.emitLoad index line).left = c.left := rfl

@[simp] theorem left_emitNumber [Number α] (c : Compilation α) (t : Token) :
    (c.emitNumber t).left = c.left := by
  unfold emitNumber
  split
  · rfl
  · simp

theorem left_expect_le (c : Compilation α) (kind : Token.Kind) (message : String) :
    (c.expect kind message).left ≤ c.left := c.window.left_expect_le kind message

theorem left_advance_lt {c : Compilation α} (h : c.current.kind ≠ .eof) :
    c.advance.left < c.left := Window.left_advance_lt h

theorem left_advance_le (c : Compilation α) : c.advance.left ≤ c.left :=
  c.window.left_advance_le

end Compilation

end LoxBytecode

import LoxBytecode.Text.Padded
import LoxBytecode.Text.Quoted
import LoxBytecode.Text.LineEnding
import LoxBytecode.Double.Text
import LoxBytecode.Token.Listing
import LoxBytecode.Bytecode.Listing
import LoxBytecode.Compilation.Equations
import LoxBytecode.Machine.Interpret
import LoxBytecode.Console.Session
import LoxBytecode.Main
import LoxBytecode.Proofs.Lexis.Longest
import LoxBytecode.Proofs.Cursor.Tokens
import LoxBytecode.Proofs.Cursor.Numeral
import LoxBytecode.Proofs.Cursor.Contents
import LoxBytecode.Proofs.Cursor.Tiling
import LoxBytecode.Proofs.Text.LineEnding
import LoxBytecode.Proofs.Grammar.Expr
import LoxBytecode.Proofs.Grammar.Written
import LoxBytecode.Proofs.Reading.Basic
import LoxBytecode.Proofs.Bytecode.Extend
import LoxBytecode.Proofs.Bytecode.Listing
import LoxBytecode.Proofs.Bytecode.Walk
import LoxBytecode.Proofs.Bytecode.Instructions
import LoxBytecode.Proofs.Bytecode.Entries
import LoxBytecode.Proofs.Bytecode.Sweep
import LoxBytecode.Proofs.Compilation.Induction
import LoxBytecode.Proofs.Compilation.Reading
import LoxBytecode.Proofs.Compilation.Diagnosis
import LoxBytecode.Proofs.Compilation.Acceptance
import LoxBytecode.Proofs.Compilation.Postorder
import LoxBytecode.Proofs.Compilation.Written
import LoxBytecode.Proofs.Compilation.Layout
import LoxBytecode.Proofs.Compilation.Contents
import LoxBytecode.Proofs.Compilation.Listing
import LoxBytecode.Proofs.Double.Nearest
import LoxBytecode.Proofs.Double.Decimal
import LoxBytecode.Proofs.Double.Shortest
import LoxBytecode.Proofs.Double.ReadBack
import LoxBytecode.Proofs.Double.Legible
import LoxBytecode.Proofs.Machine.Evaluation
import LoxBytecode.Proofs.Machine.Walk
import LoxBytecode.Proofs.Machine.Memory
import LoxBytecode.Proofs.Machine.Listing
import LoxBytecode.Proofs.Machine.Session
import LoxBytecode.Proofs.Machine.Trace
import LoxBytecode.Proofs.Machine.Tracing
import LoxBytecode.Proofs.Machine.Numeral
import LoxBytecode.Proofs.Console.Options
import LoxBytecode.Proofs.Console.Prompt
import LoxBytecode.Proofs.Console.File
import LoxBytecode.Proofs.Console.Observation
import LoxBytecode.Proofs.Cursor.Lines
import LoxBytecode.Proofs.Cursor.Newline
import LoxBytecode.Proofs.Pass.Agreement
import LoxBytecode.Proofs.Compilation.WellFormed
import LoxBytecode.Proofs.Token.Lines
import LoxBytecode.Proofs.Scan.Agreement
import LoxBytecode.Proofs.Compilation.Calls
import LoxBytecode.Proofs.Grammar.Unambiguous
import LoxBytecode.Proofs.Compilation.Cleared
import LoxBytecode.Proofs.Compilation.Contract
import LoxBytecode.Proofs.Console.Arguments
import LoxBytecode.Proofs.Console.Dialogue
import LoxBytecode.Proofs.Window.Reports
import LoxBytecode.Proofs.Text.Decoding

import LoxBytecode.Compilation.Expression
import LoxBytecode.Text.Decoding
import LoxBytecode.Text.LineEnding

/-!
# Source files

A source file is read whole, as UTF-8 without exceptions, and its line endings are
unified before anything else is done with it.  Where the bytes of a file come from is
up to the caller.
-/

namespace LoxBytecode.Console

/-- Why a file cannot be read as text. -/
inductive ReadError where
  | notFound
  | isDirectory
  | notDirectory
  /-- The bytes of the file are no UTF-8. -/
  | notText (flaw : Text.Flaw)
  /-- Any other reason, in the words of the system. -/
  | refused (reason : String)
  deriving DecidableEq, Repr

/-- The wording of the failure to read a path. -/
def ReadError.text (path : String) : ReadError → String
  | notFound => s!"[Errno 2] No such file or directory: {quotedPath}"
  | isDirectory => s!"[Errno 21] Is a directory: {quotedPath}"
  | notDirectory => s!"[Errno 20] Not a directory: {quotedPath}"
  | notText flaw => flaw.text
  | refused reason => reason
where
  quotedPath : String := String.ofList (Text.quoted path.toList)

/-- The source text that a file of these bytes holds. -/
def decode (bytes : ByteArray) : Except ReadError (List Char) :=
  match String.fromUTF8? bytes with
  | some text => .ok (Text.unifyLineEndings text.toList)
  | none => .error (.notText (Text.flaw bytes))

/-- Why a file gives no code. -/
inductive FileError where
  | read (e : ReadError)
  | compile (e : CompileError)
  deriving DecidableEq, Repr

/-- Compiles the file of these bytes, if it could be read. -/
def compileFile {α : Type} [Number α] (contents : Except ReadError ByteArray) :
    Except FileError (Chunk α) := do
  let bytes ← contents.mapError .read
  let source ← (decode bytes).mapError .read
  (compile source).mapError .compile

end LoxBytecode.Console

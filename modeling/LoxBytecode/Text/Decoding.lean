import LoxBytecode.Text.Quoted

/-!
# Decoding

Text is encoded as UTF-8, and bytes that are no such encoding are refused.  The refusal names the
first place where no character can be decoded, the bytes there that cannot be, and what is wrong
with them: no character begins with such a byte, the character that they begin breaks off at the end
of the text, or it does not go on as it should.
-/

namespace LoxBytecode.Text

/-- Why bytes cannot be decoded. -/
structure Flaw where
  /-- The bytes that are in the way. -/
  bytes : List UInt8
  /-- Where they begin. -/
  position : Nat
  reason : String
  deriving DecidableEq, Repr

/-- The wording of a flaw.  A single byte is shown, more of them are only located. -/
def Flaw.text (f : Flaw) : String :=
  match f.bytes with
  | [byte] =>
    "'utf-8' codec can't decode byte 0x" ++ String.ofList (hexadecimal 2 byte.toNat) ++
      s!" in position {f.position}: {f.reason}"
  | bytes =>
    "'utf-8' codec can't decode bytes in position " ++
      s!"{f.position}-{f.position + bytes.length - 1}: {f.reason}"

/-- What has to follow the first byte of a character of more than one byte: how many bytes, and the
bounds of the first of these.  The bounds are narrower where a shorter encoding would do, and where
there are no characters. -/
def continuation? (byte : UInt8) : Option (Nat × UInt8 × UInt8) :=
  if byte < 0xc2 then none
  else if byte < 0xe0 then some (1, 0x80, 0xbf)
  else if byte = 0xe0 then some (2, 0xa0, 0xbf)
  else if byte = 0xed then some (2, 0x80, 0x9f)
  else if byte < 0xf0 then some (2, 0x80, 0xbf)
  else if byte = 0xf0 then some (3, 0x90, 0xbf)
  else if byte < 0xf4 then some (3, 0x80, 0xbf)
  else if byte = 0xf4 then some (3, 0x80, 0x8f)
  else none

/-- The bytes with which a character goes on as it should, up to the number of those that it takes.
Only the first of them has bounds of its own. -/
def fitting (low high : UInt8) : Nat → List UInt8 → List UInt8
  | count + 1, byte :: later =>
    if low ≤ byte ∧ byte ≤ high then byte :: fitting 0x80 0xbf count later else []
  | _, _ => []

/-- What is wrong with the first of these bytes, where no character can be decoded. -/
def flawAt (position : Nat) : List UInt8 → Flaw
  | [] => ⟨[], position, "unexpected end of data"⟩
  | first :: later =>
    match continuation? first with
    | none => ⟨[first], position, "invalid start byte"⟩
    | some (count, low, high) =>
      let more := fitting low high count later
      let reason := if more = later then "unexpected end of data" else "invalid continuation byte"
      ⟨first :: more, position, reason⟩

/-- The first place, from a position on, where no character can be decoded. -/
def breakdown (bytes : ByteArray) (position : Nat) : Nat :=
  if position < bytes.size then
    match bytes.utf8DecodeChar? position with
    | none => position
    | some c => breakdown bytes (position + c.utf8Size)
  else position
termination_by bytes.size - position
decreasing_by
  have := c.utf8Size_pos
  omega

/-- Why these bytes cannot be decoded. -/
def flaw (bytes : ByteArray) : Flaw :=
  let position := breakdown bytes 0
  flawAt position (bytes.data.toList.drop position)

end LoxBytecode.Text

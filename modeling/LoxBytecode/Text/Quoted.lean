import LoxBytecode.Text.Hidden

/-!
# Quoted text

A text shown for inspection stands in quotes, and every character that would
not show as itself is written as an escape.  Apostrophes are the quotes, unless
the text holds an apostrophe and no double quote; then double quotes are.
-/

namespace LoxBytecode.Text

/-- The quote that `text` is shown in. -/
def quoteFor (text : List Char) : Char :=
  if text.contains '\'' && !text.contains '"' then '"' else '\''

/-- The lowercase hexadecimal digits of a number, with zeros in front up to a width. -/
def hexadecimal (width number : Nat) : List Char :=
  (Nat.toDigits 16 number).leftpad width '0'

/-- A character by its code point, in the shortest of the three escapes that can hold it. -/
def codePoint (c : Char) : List Char :=
  if c.toNat < 0x100 then '\\' :: 'x' :: hexadecimal 2 c.toNat
  else if c.toNat < 0x10000 then '\\' :: 'u' :: hexadecimal 4 c.toNat
  else '\\' :: 'U' :: hexadecimal 8 c.toNat

/-- A character as it stands between quotes of the given kind. -/
def escape (quote c : Char) : List Char :=
  if c == '\\' || c == quote then ['\\', c]
  else if c == '\n' then ['\\', 'n']
  else if c == '\r' then ['\\', 'r']
  else if c == '\t' then ['\\', 't']
  else if isHidden c then codePoint c
  else [c]

/-- `text` in quotes, with escapes. -/
def quoted (text : List Char) : List Char :=
  let quote := quoteFor text
  quote :: text.flatMap (escape quote) ++ [quote]

end LoxBytecode.Text

/-!
# Padded text

Listings set their columns with fixed widths.  A text longer than its column
is never cut; it pushes what follows to the right.
-/

namespace LoxBytecode.Text

/-- `text` moved to the right end of a column of `width` characters, the free
places filled with `fill`. -/
def alignRight (width : Nat) (fill : Char) (text : String) : String :=
  String.ofList (List.replicate (width - text.length) fill ++ text.toList)

/-- `text` at the left end of a column of `width` characters, blanks after it. -/
def alignLeft (width : Nat) (text : String) : String :=
  String.ofList (text.toList ++ List.replicate (width - text.length) ' ')

end LoxBytecode.Text

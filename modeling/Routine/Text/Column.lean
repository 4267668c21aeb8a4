/-! # Text in columns

A text is set in a column of a given width by blanks on its right, on its left or on both sides. A
text that is wider than its column is left as it is. Widths count characters. -/

namespace Routine.Text

/-- The text made of `n` blanks. -/
def blanks (n : Nat) : String :=
  String.ofList (List.replicate n ' ')

/-- Set at the left edge of a column. -/
def padRight (width : Nat) (s : String) : String :=
  s ++ blanks (width - s.length)

/-- Set at the right edge of a column. -/
def padLeft (width : Nat) (s : String) : String :=
  blanks (width - s.length) ++ s

/-- Set in the middle of a column; an odd blank goes to the right. -/
def centre (width : Nat) (s : String) : String :=
  let room := width - s.length
  blanks (room / 2) ++ s ++ blanks (room - room / 2)

/-- The first `n` characters. -/
def clip (n : Nat) (s : String) : String :=
  String.ofList (s.toList.take n)

end Routine.Text

import StackDepth.Text.Blank
import StackDepth.Text.Numeral

/-!
# Columns

A cell of a report is filled up to the width of its column. Widths count characters; a text wider
than its column is written whole.
-/

namespace StackDepth.Text

def fill (c : Char) (n : Nat) : String := String.ofList (List.replicate n c)

/-- `s` at the left edge of a column. -/
def alignLeft (width : Nat) (s : String) : String := s ++ fill ' ' (width - s.length)

/-- `s` at the right edge of a column. -/
def alignRight (width : Nat) (s : String) : String := fill ' ' (width - s.length) ++ s

/-- An address filled with zeros after its `0x`. -/
def alignAddress (width n : Nat) : String :=
  "0x" ++ fill '0' (width - (hexAddress n).length) ++ hex n

/-- A row of a report: nothing blank at its end, then a line end. -/
def row (s : String) : String := String.ofList (trimEnd s.toList) ++ "\n"

end StackDepth.Text

/-!
# Blank characters

The blank characters of a listing are those with the Unicode property `White_Space`. This file
fixes the class, the trimming of blanks at either end of a text, and the words between them.
-/

namespace StackDepth.Text

/-! ## 1. The class -/

/-- The 25 characters with the property `White_Space`. -/
def isBlank (c : Char) : Bool :=
  let n := c.toNat
  (9 ≤ n && n ≤ 13) || n == 0x20 || n == 0x85 || n == 0xA0 || n == 0x1680 ||
    (0x2000 ≤ n && n ≤ 0x200A) || n == 0x2028 || n == 0x2029 || n == 0x202F || n == 0x205F ||
    n == 0x3000

/-- Neither blank nor the end of a word. -/
def isInk (c : Char) : Bool := !isBlank c

/-! ## 2. Trimming -/

def trimStart (cs : List Char) : List Char := cs.dropWhile isBlank

/-- Drops the longest end of `cs` whose characters all satisfy `p`. -/
def dropEndWhile (p : Char → Bool) (cs : List Char) : List Char :=
  (cs.reverse.dropWhile p).reverse

def trimEnd (cs : List Char) : List Char := dropEndWhile isBlank cs

def trim (cs : List Char) : List Char := trimEnd (trimStart cs)

/-- The row without the characters that ended it in its file. -/
def dropLineEnd (s : String) : String :=
  String.ofList (dropEndWhile (fun c => c == '\r' || c == '\n') s.toList)

/-! ## 3. Words -/

/-- The last run of characters without a blank, empty if all are blank. -/
def lastWord (cs : List Char) : List Char :=
  ((trimEnd cs).reverse.takeWhile isInk).reverse

end StackDepth.Text

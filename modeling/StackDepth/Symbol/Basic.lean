import StackDepth.Symbol.Compact
import StackDepth.Symbol.Nested

/-!
# Symbols

A symbol of an object file as a reader wants to see it. A mangled symbol is shown as the path it
names; what tools append to it after a dot is kept, save for the mark of an internal copy.
-/

namespace StackDepth.Symbol

open StackDepth.Text

/-- A capital hexadecimal digit or `@`. -/
def isCopyMark (c : Char) : Bool := isDecimalDigit c || ('A' ≤ c && c ≤ 'F') || c == '@'

/-- The symbol without the mark of an internal copy. -/
def dropCopyMark (cs : List Char) : List Char :=
  match cutAt ".llvm.".toList cs with
  | some (before, mark) => if mark.all isCopyMark then before else cs
  | none => cs

/-- What may follow a mangled symbol: nothing, or a dot and visible ASCII characters. -/
def isTail (cs : List Char) : Bool :=
  match cs with
  | [] => true
  | c :: _ => c == '.' && cs.all fun d => 33 ≤ d.toNat && d.toNat ≤ 126

/-- The symbol as it is shown. -/
def readable (symbol : String) : String :=
  let cs := dropCopyMark symbol.toList
  match (Nested.read? cs).or (Compact.read? cs) with
  | some (name, tail) => if isTail tail then name ++ String.ofList tail else String.ofList cs
  | none => String.ofList cs

end StackDepth.Symbol

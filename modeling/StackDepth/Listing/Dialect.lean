import StackDepth.Target
import StackDepth.Listing.Line
import StackDepth.Listing.Op

/-!
# Dialects

A dialect knows the instruction forms of one target: which of them touch the stack, and by how
much. `Dialect.classify` reads a line with it: headings and labels first, then the forms in a fixed
order, and the first that fits decides.
-/

namespace StackDepth.Listing

open StackDepth.Text

structure Dialect where
  target : Target
  /-- The line without the comment at its end. -/
  code : List Char → List Char
  /-- Absent if the target has no push. -/
  isPush : Option (List Char → Bool)
  pushSize : List Char → Nat
  isDecrement : List Char → Bool
  /-- The operand of a decrement as it is written. -/
  decrementSize : List Char → Option Nat
  isDynamic : List Char → Bool
  callee? : List Char → Option (Nat × String)
  isPointerCall : List Char → Bool
  isPotential : List Char → Bool
  /-- Bytes of the return address that a call pushes. -/
  callSize : Nat

/-! ## 1. Sizes of decrements -/

/-- The largest frame that is believed. -/
def frameLimit : Nat := 0x10000000

/-- The frame that a written decrement stands for. Between `0xF0000000` and `0xFFFFFFFF` it is a
    negative 32-bit number; a number that no frame has comes from data read as an instruction. -/
def frame? (written : Nat) : Option Nat :=
  if 0xF000000000000000 < written then none
  else if 0xF0000000 < written then
    if 0xFFFFFFFF < written then none
    else if frameLimit < 0x100000000 - written then none
    else some (0x100000000 - written)
  else if frameLimit < written then none
  else some written

/-! ## 2. Classification -/

/-- A classified line. `refused` says that it had the form of a decrement that no frame has. -/
structure Reading where
  line : Line
  refused : Bool := false
  deriving DecidableEq, Repr

namespace Dialect

/-- The line as an instruction, from its code without comment and blanks at the end. -/
def readCode (d : Dialect) (code : List Char) : Reading :=
  if d.isPush.any (· code) then ⟨.push (d.pushSize code), false⟩
  else if d.isDecrement code then
    match (d.decrementSize code).bind frame? with
    | some size => ⟨.decrement size, false⟩
    | none => ⟨.other, true⟩
  else if d.isDynamic code then ⟨.dynamic, false⟩
  else match d.callee? code with
    | some (address, name) => ⟨.call address name, false⟩
    | none =>
      if d.isPointerCall code then ⟨.pointerCall, false⟩
      else if d.isPotential code then ⟨.potential, false⟩
      else ⟨.other, false⟩

/-- The line as a heading, as a label or as an instruction. -/
def read (d : Dialect) (line : List Char) : Reading :=
  match fileHeading? line with
  | some file => ⟨.fileFormat file, false⟩
  | none =>
    match sectionHeading? line with
    | some name => ⟨.sectionStart name, false⟩
    | none =>
      match label? line with
      | some (address, name) => ⟨.label address name, false⟩
      | none => d.readCode (trimEnd (d.code line))

def classify (d : Dialect) (line : List Char) : Line := (d.read line).line

end Dialect

end StackDepth.Listing

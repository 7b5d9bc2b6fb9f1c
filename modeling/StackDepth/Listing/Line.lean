/-!
# Lines

What one line of a listing says, and what that means for the stack.
-/

namespace StackDepth

/-- How well the effect of an instruction on the stack is known, the least known last. -/
inductive Impact where
  | no
  | clear
  | potential
  | weak
  deriving DecidableEq, Repr

namespace Impact

def all : List Impact := [no, clear, potential, weak]

def rank : Impact → Nat
  | no => 0
  | clear => 1
  | potential => 2
  | weak => 3

/-- The less known of two. -/
def max (i j : Impact) : Impact := if i.rank < j.rank then j else i

def text : Impact → String
  | no => ""
  | clear => "clear"
  | potential => "potential"
  | weak => "weak"

end Impact

inductive Line where
  /-- `dir/binary:     file format elf64-x86-64` -/
  | fileFormat (file : String)
  /-- `Disassembly of section .text:` -/
  | sectionStart (name : String)
  /-- `000000000040076d <main>:` -/
  | label (address : Nat) (name : String)
  /-- The stack grows by `size` bytes. -/
  | push (size : Nat)
  /-- The stack pointer goes down by `size` bytes. -/
  | decrement (size : Nat)
  /-- The stack pointer moves by an amount known only when it runs. -/
  | dynamic
  /-- A direct call; `name` is empty if the target has no symbol. -/
  | call (address : Nat) (name : String)
  /-- A call through a register or through memory. -/
  | pointerCall
  /-- May touch the stack, but its counterpart is counted already. -/
  | potential
  | other
  deriving DecidableEq, Repr

namespace Line

def impact : Line → Impact
  | push _ | decrement _ | call _ _ => .clear
  | dynamic | pointerCall => .weak
  | potential => .potential
  | _ => .no

/-- The name of the category in the log. -/
def kind : Line → String
  | fileFormat _ => "FileFormat"
  | sectionStart _ => "Section"
  | label _ _ => "Function"
  | push _ => "StackPushOp"
  | decrement _ => "StackSubOp"
  | dynamic => "StackDynamicOp"
  | call _ _ => "FunctionCall"
  | pointerCall => "FunctionPointer"
  | potential => "PotentialStackOp"
  | other => ""

/-- Whether the line acts on the function it stands in. -/
def needsFunction : Line → Bool
  | push _ | decrement _ | dynamic | call _ _ | pointerCall => true
  | _ => false

end Line

end StackDepth

import StackDepth.Bound

/-!
# Functions

What is known of one function: where it starts, what it is called, the bytes its own instructions
take from the stack, and what the analysis found. Sizes and totals are numbers; a word of 64 bits
holds them while they are below `Text.wordLimit`.
-/

namespace StackDepth

structure Function where
  address : Nat
  name : String
  file : Option String := none
  sectionName : Option String := none
  /-- Bytes that the function's own instructions push or reserve. -/
  size : Nat := 0
  /-- `size` and the deepest callee together. -/
  total : Nat := 0
  /-- Some frame of it has a size known only when it runs. -/
  dynamic : Bool := false
  /-- `total` may understate what is used. -/
  imprecise : Bool := false
  /-- It lies on a cycle of calls. -/
  cycle : Bool := false
  visited : Bool := false
  deriving DecidableEq, Repr

namespace Function

/-- The longest name that is shown whole. -/
def nameLimit : Nat := 64

/-- A name over the limit is cut so that it fits with three dots after it. -/
def shorten (name : String) : String :=
  if nameLimit < name.length then String.ofList (name.toList.take (nameLimit - 3)) ++ "..."
  else name

def named (address : Nat) (name : String) : Function := { address, name := shorten name }

/-- A function without a symbol is named after its address. -/
def unnamed (address : Nat) : Function := named address (Text.hexAddress address)

def isUnnamed (f : Function) : Bool := f.name == Text.hexAddress f.address

def rename (f : Function) (name : String) : Function := { f with name := shorten name }

/-- The bound found for the function. -/
def bound (f : Function) : Bound := Bound.of f.total f.imprecise

end Function

end StackDepth

import StackDepth.Listing.Dialect

/-!
# The dialect of IA-32 and its 64-bit extension

AT&T syntax. Both word sizes share every form; the word is what a push without a size takes, and a
return address.
-/

namespace StackDepth.Listing.X86

open StackDepth.Text

/-! ## 1. Operands -/

/-- The names of the stack pointer, at every width. -/
def stackPointers : List (List Char) := ["%esp", "%rsp", "%lsp", "%sp"].map String.toList

/-- `cs` is blanks and the stack pointer, and nothing else. -/
def isStackPointer (cs : List Char) : Bool := stackPointers.contains (trimStart cs)

/-- The number of `$n,%esp`. -/
def fromStackPointer? (operands : List Char) : Option (List Char) := do
  let (n, rest) ← number (← literal "$" (← blanks operands))
  if isStackPointer (← literal "," rest) then some n else none

/-- The operands `%reg,%esp`. -/
def isRegisterFromStackPointer (operands : List Char) : Bool :=
  Option.isSome do
    let (_, rest) ← run (fun c => isDecimalDigit c || isLower c) (← literal "%" (← blanks operands))
    if isStackPointer (← literal "," rest) then some () else none

/-! ## 2. Pushes -/

def registers8 : List (List Char) :=
  ["rax", "rbx", "rcx", "rdx", "rsi", "rdi", "rbp", "rsp", "r8", "r9", "r10", "r11", "r12", "r13",
    "r14", "r15"].map String.toList

def registers4 : List (List Char) :=
  ["eax", "ebx", "ecx", "edx", "esi", "edi", "ebp", "esp", "r8d", "r9d", "r10d", "r11d", "r12d",
    "r13d", "r14d", "r15d"].map String.toList

def registers2 : List (List Char) :=
  ["ax", "bx", "cx", "dx", "si", "di", "bp", "sp", "r8w", "r9w", "r10w", "r11w", "r12w", "r13w",
    "r14w", "r15w"].map String.toList

def registers1 : List (List Char) :=
  ["al", "bl", "cl", "dl", "ah", "bh", "ch", "dh", "sil", "dil", "bpl", "spl", "r8b", "r9b",
    "r10b", "r11b", "r12b", "r13b", "r14b", "r15b"].map String.toList

/-- Bytes of the register `name`. -/
def registerSize? (name : List Char) : Option Nat :=
  if registers8.contains name then some 8
  else if registers4.contains name then some 4
  else if registers2.contains name then some 2
  else if registers1.contains name then some 1
  else none

/-- Bytes of the register that ends the line as a word of its own, after a blank. -/
def lastRegisterSize? (line : List Char) : Option Nat :=
  match line.reverse.dropWhile isInk with
  | [] => none
  | _ :: _ => (literal "%" (line.reverse.takeWhile isInk).reverse).bind registerSize?

/-- The letters that a mnemonic announces the width of its operand by. -/
def widths : List (List Char) := ["", "w", "l", "q"].map String.toList

/-- The letter that a push announces its size by; `some []` without one. -/
def pushSuffix? (op : Op) : Option (List Char) := do
  let suffix ← literal "push" op.name
  if !widths.contains suffix then none
  match op.operands with
  | c :: _ => if c == ' ' || c == '\t' then some suffix else none
  | [] => none

def suffixSize? (suffix : List Char) : Option Nat :=
  match suffix with
  | ['w'] => some 2
  | ['l'] => some 4
  | ['q'] => some 8
  | _ => none

/-- A register's own width, else the width the first push announces, else one word. -/
def pushSize (word : Nat) (line : List Char) : Nat :=
  match lastRegisterSize? line with
  | some size => size
  | none => (((ops line).findSome? pushSuffix?).bind suffixSize?).getD word

/-! ## 3. Forms -/

def sub : Mnemonic := .of ["sub"] [""] ["", "l", "q"]

def add : Mnemonic := .of ["add"] [""] ["", "l", "q"]

def call : Mnemonic := .of ["call"] [""] ["", "l", "q"]

/-- Instructions that move the stack pointer as part of what they do. -/
def implicit : List (List Char) :=
  ["enter", "enterw", "enterl", "enterq", "leave", "leavew", "leavel", "leaveq", "fdecstp",
    "pushf", "pushfw", "pushfl", "pushfq", "pusha", "pushaw", "pushal",
    "pop", "popw", "popl", "popq", "popf", "popfw", "popfl", "popfq", "popa", "popaw",
    "popal"].map String.toList

/-- `sub $n,%esp` -/
def decrement? (op : Op) : Option (List Char) :=
  if sub.has op.name then fromStackPointer? op.operands else none

/-- `sub %reg,%esp` -/
def isDynamic (op : Op) : Bool := sub.has op.name && isRegisterFromStackPointer op.operands

/-- `call addr` or `call addr <symbol>`, with blanks after it or none. -/
def call? (op : Op) : Option (List Char × List Char) := do
  if !call.has op.name then none
  callTarget? (trimEnd (← blanks op.operands))

/-- `call *operand` -/
def isPointerCall (op : Op) : Bool :=
  call.has op.name && ((blanks op.operands).bind (literal "*")).isSome

/-- An implicit move, or `add $n,%esp`. -/
def isPotential (op : Op) : Bool :=
  implicit.contains op.name || (add.has op.name && (fromStackPointer? op.operands).isSome)

end X86

open StackDepth.Text in
/-- The dialect with words of `word` bytes. -/
def Dialect.x86 (target : Target) (word : Nat) : Dialect where
  target := target
  code line := line.takeWhile (· != '#')
  isPush := some fun line => (ops line).any fun op => (X86.pushSuffix? op).isSome
  pushSize := X86.pushSize word
  isDecrement line := (ops line).any fun op => (X86.decrement? op).isSome
  decrementSize line := ((ops line).findSome? X86.decrement?).bind immediate?
  isDynamic line := (ops line).any X86.isDynamic
  callee? line := ((ops line).findSome? X86.call?).bind callee
  isPointerCall line := (ops line).any X86.isPointerCall
  isPotential line := (ops line).any X86.isPotential
  callSize := word

end StackDepth.Listing

import StackDepth.Listing.X86

/-!
# The dialects of ARM

Unified assembler syntax for the 32-bit sets. The 64-bit set shares the forms, has no push, and may
shift the operand of a decrement.
-/

namespace StackDepth.Listing.Arm

open StackDepth.Text

/-! ## 1. Mnemonics -/

/-- The condition codes, and none. -/
def conditions : List String :=
  ["", "eq", "ne", "cs", "hs", "cc", "lo", "mi", "pl", "vs", "vc", "hi", "ls", "ge", "lt", "gt",
    "le", "al"]

/-- A mnemonic that takes a condition and either width. -/
def eitherWidth (stems : List String) : Mnemonic := .of stems conditions ["", ".w", ".n"]

/-- A mnemonic that takes a condition and the wide width. -/
def wideOnly (stems : List String) : Mnemonic := .of stems conditions ["", ".w"]

/-- A mnemonic that takes neither. -/
def plain (stems : List String) : Mnemonic := .of stems [""] [""]

def push : Mnemonic := eitherWidth ["push", "vpush"]

def pop : Mnemonic := eitherWidth ["pop", "vpop"]

def storeMany : Mnemonic := wideOnly ["stmdb", "stmfd"]

def loadMany : Mnemonic := wideOnly ["ldm", "ldmia", "ldmfd"]

def sub : Mnemonic := eitherWidth ["sub", "subs", "subw"]

def add : Mnemonic := eitherWidth ["add", "adds", "addw"]

def store : Mnemonic := wideOnly ["str", "strb", "strh", "strd"]

def storePair : Mnemonic := plain ["stp"]

def branch : Mnemonic := eitherWidth ["bl", "blx", "b"]

def compareBranch : Mnemonic := plain ["cbz", "cbnz"]

def branchRegister : Mnemonic := eitherWidth ["bx", "blx", "bxj"]

def branchWide : Mnemonic := plain ["blr", "br"]

/-- A load of one register or of two, whatever letters follow. -/
def isLoad (name : List Char) : Bool :=
  ((oneOf ["ldr", "ldp"] name).map (·.all isLower)).getD false

/-! ## 2. Operands -/

/-- The stack pointer, a comma and blanks. -/
def stackPointer (cs : List Char) : Option (List Char) := (oneOf ["sp,", "wsp,"] cs).map trimStart

/-- The stack pointer as the first operand, and as the second if it is there. -/
def stackPointers (operands : List Char) : Option (List Char) := do
  return optional stackPointer (← stackPointer (← blanks operands))

/-- `sign` and a number. -/
def startsNumber (sign : String) (cs : List Char) : Bool :=
  ((literal sign cs).bind number).isSome

/-- A register, a comma and blanks. -/
def register (cs : List Char) : Option (List Char) := do
  let (_, rest) ← identifier cs
  return trimStart (← literal "," rest)

/-- `[sp, #-n]!`: the place below the stack pointer, which moves there. -/
def isPlaceBelow (cs : List Char) : Bool :=
  Option.isSome do
    let rest ← stackPointer (← literal "[" cs)
    let (_, rest) ← number (← literal "#-" rest)
    literal "]!" rest

/-- Registers that go by a name of their own. -/
def namedRegisters : List (List Char) := ["ip", "fp", "sl", "sb", "lr"].map String.toList

/-- `cs` starts with a register that holds an amount, and the register ends there. -/
def startsAmount (cs : List Char) : Bool :=
  match identifier cs with
  | none => false
  | some (word, rest) =>
    (namedRegisters.contains word ||
      (match word with
        | c :: ds => (c == 'r' || c == 'x' || c == 'w') && !ds.isEmpty && ds.all isDecimalDigit
        | [] => false)) &&
    (match rest with
      | [] => true
      | c :: _ => c == ',' || isBlank c)

/-- Registers that a branch of the 32-bit sets takes its target from. -/
def branchRegisters : List (List Char) :=
  ["r0", "r1", "r2", "r3", "r4", "r5", "r6", "r7", "r8", "r9", "r10", "r11", "r12", "ip", "fp",
    "sl", "sb"].map String.toList

/-- Registers that a branch of the 64-bit set takes its target from. -/
def wideBranchRegisters : List (List Char) :=
  (List.range 31).map fun n => 'x' :: (decimal n).toList

/-! ## 3. Forms -/

/-- `push {…}` or `stmdb sp!, {…}` -/
def isPush (op : Op) : Bool :=
  (push.has op.name && ((blanks op.operands).bind (literal "\x7b")).isSome) ||
    (storeMany.has op.name && Option.isSome do
      literal "\x7b" (trimStart (← literal "sp!," (← blanks op.operands))))

/-- `sub sp, sp, #n`, `add sp, sp, #-n`, `str r, [sp, #-n]!` or `stp r, s, [sp, #-n]!` -/
def isDecrement (op : Op) : Bool :=
  (sub.has op.name && ((stackPointers op.operands).map (startsNumber "#")).getD false) ||
  (add.has op.name && ((stackPointers op.operands).map (startsNumber "#-")).getD false) ||
  (store.has op.name && Option.getD (do
    return isPlaceBelow (optional register (← register (← blanks op.operands)))) false) ||
  (storePair.has op.name && Option.getD (do
    return isPlaceBelow (← register (← register (← blanks op.operands)))) false)

/-- `sub sp, sp, r` -/
def isDynamic (op : Op) : Bool :=
  sub.has op.name && ((stackPointers op.operands).map startsAmount).getD false

/-- `bl addr <symbol>` -/
def branch? (op : Op) : Option (List Char × List Char) := do
  if !branch.has op.name then none
  callTarget? (← blanks op.operands)

/-- `cbz r, addr <symbol>` -/
def compareBranch? (op : Op) : Option (List Char × List Char) := do
  if !compareBranch.has op.name then none
  callTarget? (← register (← blanks op.operands))

/-- `blx r` or `blr x`; a branch to the link register returns. -/
def isPointerCall (op : Op) : Bool :=
  (branchRegister.has op.name && Option.getD (do
    let r ← blanks op.operands
    return branchRegisters.contains r) false) ||
  (branchWide.has op.name && Option.getD (do
    let r ← blanks op.operands
    return wideBranchRegisters.contains r) false)

/-- `pop {…}`, `ldm sp!`, a load from `[sp], #n`, or `add sp, sp, #n` -/
def isPotential (op : Op) : Bool :=
  (pop.has op.name && ((blanks op.operands).bind (literal "\x7b")).isSome) ||
  (loadMany.has op.name && ((blanks op.operands).bind (literal "sp!")).isSome) ||
  (isLoad op.name && Option.isSome do
    let (_, place) ← cut '[' (← blanks op.operands)
    literal "#" (trimStart (← oneOf ["sp],", "wsp],"] place))) ||
  (add.has op.name && ((stackPointers op.operands).map (startsNumber "#")).getD false)

/-! ## 4. Sizes -/

/-- Bytes of one register of the class that `item` starts with. -/
def registerSize (item : List Char) : Nat :=
  match item with
  | 'd' :: _ => 8
  | 'q' :: _ => 16
  | _ => 4

/-- The number of a register, after the letter of its class. -/
def registerNumber? (reg : List Char) : Option Nat :=
  match trim reg with
  | c :: ds => if c.toNat < 128 then word? 10 ds else none
  | [] => none

/-- How many registers an item of a list stands for: a range counts both its ends. -/
def registerCount (item : List Char) : Nat :=
  match cut '-' item with
  | none => 1
  | some (low, high) =>
    match registerNumber? low, registerNumber? high with
    | some lo, some hi => if lo ≤ hi then hi - lo + 1 else 1
    | _, _ => 1

/-- Bytes of the items of a register list. -/
def itemsSize (items : List (List Char)) : Nat :=
  (((items.map trim).filter (!·.isEmpty)).map fun item =>
    registerCount item * registerSize item).foldr (· + ·) 0

/-- Bytes of the first register list of a line. -/
def registerListSize (line : List Char) : Nat :=
  match (cut '\x7b' line).bind fun (_, rest) => cut '\x7d' rest with
  | some (list, _) => itemsSize (pieces ',' list)
  | none => 0

def isAlphanumeric (c : Char) : Bool :=
  isDecimalDigit c || isLower c || ('A' ≤ c && c ≤ 'Z')

/-- The number after the last `#`, without its sign. -/
def lastImmediate? (line : List Char) : Option Nat := do
  let (_, rest) ← cutLast '#' line
  immediate? ((rest.dropWhile (· == '-')).takeWhile isAlphanumeric)

/-- The number that `cs` starts with after `#`, and whether it is shifted by twelve bits. -/
def shiftable? (cs : List Char) : Option (List Char × Bool) := do
  let rest ← literal "#" cs
  let (n, rest) ← number (optional (literal "-") rest)
  let shift : Option (List Char) := do
    let rest ← literal "," rest
    let rest ← literal "lsl" (trimStart rest)
    literal "#12" (trimStart rest)
  return (n, shift.isSome)

/-- The first number of a line, with its shift. -/
def firstShiftable? : List Char → Option (List Char × Bool)
  | [] => none
  | c :: r => (shiftable? (c :: r)).or (firstShiftable? r)

/-- The first number of a line, times 4096 if it is shifted. -/
def firstImmediate? (line : List Char) : Option Nat := do
  let (n, shifted) ← firstShiftable? line
  let value ← immediate? n
  if shifted then (some (value * 4096)).filter (· < wordLimit) else some value

/-- What stands before the first `;` or `//`. -/
def code : List Char → List Char
  | [] => []
  | ';' :: _ => []
  | '/' :: '/' :: _ => []
  | c :: r => c :: code r

end Arm

open StackDepth.Text in
/-- The dialect of the 32-bit sets. A call leaves its return address in a register. -/
def Dialect.arm : Dialect where
  target := .arm
  code := Arm.code
  isPush := some fun line => (ops line).any Arm.isPush
  pushSize := Arm.registerListSize
  isDecrement line := (ops line).any Arm.isDecrement
  decrementSize := Arm.lastImmediate?
  isDynamic line := (ops line).any Arm.isDynamic
  callee? line :=
    (((ops line).findSome? Arm.branch?).or ((ops line).findSome? Arm.compareBranch?)).bind callee
  isPointerCall line := (ops line).any Arm.isPointerCall
  isPotential line := (ops line).any Arm.isPotential
  callSize := 0

/-- The dialect of the 64-bit set. -/
def Dialect.aarch64 : Dialect :=
  { Dialect.arm with
    target := .aarch64
    isPush := none
    pushSize := fun _ => 0
    decrementSize := Arm.firstImmediate? }

/-- The dialect that listings of a target are written in. -/
def Dialect.of : Target → Dialect
  | .arm => .arm
  | .aarch64 => .aarch64
  | .x86 => .x86 .x86 4
  | .x86_64 => .x86 .x86_64 8

end StackDepth.Listing

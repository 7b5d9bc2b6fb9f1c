import StackDepth.Fault
import StackDepth.Target

/-!
# ELF images

The target of a binary, from the machine that its header names. The header is checked only as far as
that takes, and the machine is read with its low byte first, whatever byte order the header
announces.
-/

namespace StackDepth.Elf

/-! ## 1. Machines -/

/-- The name of a machine that has no dialect here. -/
def machineName (machine : Nat) : String :=
  match machine with
  | 0x00 => "None"
  | 0x02 => "Sparc"
  | 0x08 => "Mips"
  | 0x14 => "PowerPC"
  | 0x2A => "SuperH"
  | 0x32 => "Ia64"
  | 0xF3 => "RISC_V"
  | 0xF7 => "BPF"
  | n => "Other(" ++ Text.decimal n ++ ")"

def target? (machine : Nat) : Option Target :=
  match machine with
  | 0x03 => some .x86
  | 0x3E => some .x86_64
  | 0x28 => some .arm
  | 0xB7 => some .aarch64
  | _ => none

/-! ## 2. Headers -/

inductive Fault where
  | unreadable (cause : ReadFault)
  | shortIdentification
  | noMagic
  | invalidClass
  | shortHeader
  | unknownMachine (machine : Nat)
  deriving DecidableEq, Repr

def Fault.message : Fault → String
  | .unreadable cause => "std::fs::read() raised this error: " ++ cause.text
  | .shortIdentification => "Not a valid ELF: File is shorter than the first ELF header part"
  | .noMagic => "Not a valid ELF: Did not find ELF magic number"
  | .invalidClass => "Not a valid ELF: Invalid ELF class"
  | .shortHeader => "Not a valid ELF: File is shorter than ELF headers"
  | .unknownMachine machine =>
    "Unsupported machine " ++ machineName machine ++ "; supported are arm, aarch64, x86 and x86_64."

/-- Bytes of the identification that starts every header. -/
def identificationSize : Nat := 16

/-- Bytes of a whole header, by the class in the identification. -/
def headerSize? (elfClass : Nat) : Option Nat :=
  match elfClass with
  | 1 => some 52
  | 2 => some 64
  | _ => none

def byteAt (image : ByteArray) (i : Nat) : Nat := ((image.data[i]?).map (·.toNat)).getD 0

def hasMagic (image : ByteArray) : Bool := image.data.toList.take 4 == [0x7F, 0x45, 0x4C, 0x46]

/-- The target of an image, or the first thing wrong with its header. -/
def target (image : ByteArray) : Except Fault Target :=
  if image.size < identificationSize then .error .shortIdentification
  else if !hasMagic image then .error .noMagic
  else
    match headerSize? (byteAt image 4) with
    | none => .error .invalidClass
    | some size =>
      if image.size < size then .error .shortHeader
      else
        let machine := byteAt image 18 + 256 * byteAt image 19
        match target? machine with
        | some t => .ok t
        | none => .error (.unknownMachine machine)

/-- The target of a file that may not be there. -/
def targetOfFile (image : Option ByteArray) : Except Fault Target :=
  match image with
  | some image => target image
  | none => .error (.unreadable .missing)

end StackDepth.Elf

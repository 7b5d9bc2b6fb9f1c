import StackDepth.Symbol.Punycode
import StackDepth.Text.Quoted

/-!
# Printing a symbol while it is read

The compact form of a symbol is printed as it is read. `Printer` holds what is left to read and what
was printed. Once something cannot be read, a note takes its place in the text, and from then on
each part that should have been read is shown as `?`. A silent printer reads on and prints nothing.
-/

namespace StackDepth.Symbol

open StackDepth.Text

/-! ## 1. Readers -/

/-- Reads a value, and says what is left. -/
abbrev Reader (α : Type) := List Char → Option (α × List Char)

def anyChar : Reader Char
  | [] => none
  | c :: rest => some (c, rest)

/-- Hexadecimal digits up to an underscore. -/
def hexDigits : Reader (List Char)
  | [] => none
  | '_' :: rest => some ([], rest)
  | c :: rest => if isHexDigit c then (hexDigits rest).map fun (ds, r) => (c :: ds, r) else none

/-- The value of a digit of base 62: decimal digits, small letters, capitals. -/
def digit62? (c : Char) : Option Nat :=
  if isDecimalDigit c then some (c.toNat - 48)
  else if isLower c then some (c.toNat - 97 + 10)
  else if 'A' ≤ c && c ≤ 'Z' then some (c.toNat - 65 + 36)
  else none

/-- Digits of base 62 up to an underscore, after the number `n`. -/
def digits62 (n : Nat) : Reader Nat
  | [] => none
  | '_' :: rest => some (n, rest)
  | c :: rest => (digit62? c).bind fun d => digits62 (62 * n + d) rest

/-- A number in base 62: an underscore alone is 0, and what the digits denote counts from 1. -/
def number62 : Reader Nat
  | '_' :: rest => some (0, rest)
  | cs => (digits62 0 cs).bind fun (n, rest) =>
      if n + 1 < wordLimit then some (n + 1, rest) else none

/-- A number after `tag`, counting from 1; 0 without the tag. -/
def tagged62 (tag : Char) : Reader Nat
  | [] => some (0, [])
  | c :: rest =>
    if c == tag then
      (number62 rest).bind fun (n, rest) => if n + 1 < wordLimit then some (n + 1, rest) else none
    else some (0, c :: rest)

def disambiguator : Reader Nat := tagged62 's'

/-- A capital names a special namespace, a small letter one that is not shown. -/
def namespaceTag : Reader (Option Char)
  | [] => none
  | c :: rest =>
    if 'A' ≤ c && c ≤ 'Z' then some (some c, rest)
    else if isLower c then some (none, rest) else none

/-! ## 2. Identifiers -/

structure Identifier where
  ascii : List Char
  /-- The insertions of the characters outside ASCII. -/
  insertions : List Char := []

namespace Identifier

def isEmpty (i : Identifier) : Bool := i.ascii.isEmpty && i.insertions.isEmpty

/-- The identifier itself, or how it is written if its insertions make no sense. -/
def text (i : Identifier) : String :=
  match Punycode.decode? i.ascii i.insertions with
  | some cs => String.ofList cs
  | none =>
    if i.insertions.isEmpty then String.ofList i.ascii
    else
      "punycode\x7b" ++ (if i.ascii.isEmpty then "" else String.ofList i.ascii ++ "-") ++
        String.ofList i.insertions ++ "\x7d"

/-- The length of an identifier: a number that starts with 0 ends there. -/
def length : Reader Nat
  | '0' :: rest => some (0, rest)
  | cs => (run isDecimalDigit cs).bind fun (ds, rest) => (digits? 10 ds).map (·, rest)

/-- Divides at the last underscore. -/
def ofEncoded? (cs : List Char) : Option Identifier :=
  let (ascii, insertions) := (cutLast '_' cs).getD ([], cs)
  if insertions.isEmpty then none else some ⟨ascii, insertions⟩

/-- An identifier after its length; a `u` before the length says that it has insertions. -/
def read : Reader Identifier := fun cs => do
  let encoded := (literal "u" cs).isSome
  let (size, rest) ← length (optional (literal "u") cs)
  let rest := optional (literal "_") rest
  if rest.length < size then none
  let name := rest.take size
  let identifier ← if encoded then ofEncoded? name else some ⟨name, []⟩
  return (identifier, rest.drop size)

end Identifier

/-! ## 3. The printer -/

/-- Why reading stopped. -/
inductive Damage where
  | form
  | depth

def Damage.note : Damage → String
  | .form => "\x7binvalid syntax\x7d"
  | .depth => "\x7brecursion limit reached\x7d"

/-- Bytes that are printed at most. -/
def sizeLimit : Nat := 1000000

structure Printer where
  /-- The whole symbol: references count from its start. -/
  whole : List Char
  rest : List Char
  failed : Bool := false
  silent : Bool := false
  /-- How many lifetimes are bound around here. -/
  bound : Nat := 0
  out : String := ""
  room : Nat := sizeLimit
  /-- Something did not fit; nothing more is printed. -/
  full : Bool := false

namespace Printer

def print (s : String) (p : Printer) : Printer :=
  if p.silent || p.full then p
  else if s.utf8ByteSize ≤ p.room then
    { p with out := p.out ++ s, room := p.room - s.utf8ByteSize }
  else { p with full := true }

def fail (damage : Damage) (p : Printer) : Printer := { p.print damage.note with failed := true }

/-- Reads a value and goes on with it. -/
def reading {α : Type} (r : Reader α) (k : α → Printer → Printer) (p : Printer) : Printer :=
  if p.failed then p.print "?"
  else
    match r p.rest with
    | some (x, rest) => k x { p with rest }
    | none => p.fail .form

/-- The printer after `c`, if that comes next. -/
def eat? (c : Char) (p : Printer) : Option Printer :=
  if p.failed then none
  else
    match p.rest with
    | d :: rest => if d == c then some { p with rest } else none
    | [] => none

/-- Reads with `f` and prints nothing. -/
def silently (f : Printer → Printer) (p : Printer) : Printer :=
  { f { p with silent := true } with silent := p.silent }

/-- Reads with `f` what stands at `place`, then goes on here. -/
def elsewhere (place : Nat) (f : Printer → Printer) (p : Printer) : Printer :=
  { f { p with rest := p.whole.drop place } with rest := p.rest, failed := p.failed }

/-- A reference to an earlier place, after its tag; it has to lie before the tag. -/
def reference (k : Nat → Printer → Printer) (p : Printer) : Printer :=
  let tag := p.whole.length - p.rest.length - 1
  p.reading number62 fun place p => if place < tag then k place p else p.fail .form

/-- Items up to `E`, with `sep` between them; how many there were. Each item reads something, so
    there are no more of them than characters. -/
def listUpTo (item : Printer → Printer) (sep : String) : Nat → Nat → Printer → Nat × Printer
  | 0, i, p => (i, p)
  | n + 1, i, p =>
    if p.failed || p.full then (i, p)
    else
      match p.eat? 'E' with
      | some p => (i, p)
      | none => listUpTo item sep n (i + 1) (item (if i = 0 then p else p.print sep))

def list (item : Printer → Printer) (sep : String) (p : Printer) : Nat × Printer :=
  listUpTo item sep (p.rest.length + 1) 0 p

/-- Like `list`, but the first item has to be there. -/
def list1 (item : Printer → Printer) (sep : String) (p : Printer) : Printer :=
  let p := item p
  (listUpTo item sep (p.rest.length + 1) 1 p).2

/-! ## 4. Lifetimes -/

/-- The name of the lifetime bound at a depth: a letter, and numbers after those run out. -/
def lifetimeName (depth : Nat) : String :=
  if depth < 26 then (Char.ofNat (97 + depth)).toString else "_" ++ decimal depth

/-- A lifetime by its index: 0 is left out, others count from the innermost bound one. -/
def lifetime (index : Nat) (p : Printer) : Printer :=
  if p.silent then p
  else
    let p := p.print "'"
    if index = 0 then p.print "_"
    else if index ≤ p.bound then p.print (lifetimeName (p.bound - index))
    else p.fail .form

/-- Binds `n` more lifetimes and lists them. -/
def bindLifetimes : Nat → Nat → Printer → Printer
  | 0, _, p => p
  | n + 1, i, p =>
    let p := if i = 0 then p else p.print ", "
    bindLifetimes n (i + 1) (lifetime 1 { p with bound := p.bound + 1 })

/-- Reads with `f` inside a binder, if there is one. More lifetimes than bytes do not fit, so no
    more are listed. -/
def inBinder (f : Printer → Printer) (p : Printer) : Printer :=
  p.reading (tagged62 'G') fun count p =>
    if p.silent then f p
    else if count = 0 then f p
    else
      let bound := p.bound
      let p := bindLifetimes (min count (sizeLimit + 1)) 0 (p.print "for<")
      { f (p.print "> ") with bound }

end Printer

end StackDepth.Symbol

import StackDepth.Symbol.Printer

/-!
# Compact symbols

The newer form of a mangled symbol: `_R` and a path, with types, constants and references to earlier
places inside. Printing follows the grammar, one function for each of its sorts. The first argument
of each is how much deeper the grammar may nest.
-/

namespace StackDepth.Symbol.Compact

open StackDepth.Text

/-- How deep paths, types and constants may nest. -/
def depthLimit : Nat := 500

/-! ## 1. Leaves -/

def basicType? (tag : Char) : Option String :=
  match tag with
  | 'b' => some "bool"
  | 'c' => some "char"
  | 'e' => some "str"
  | 'u' => some "()"
  | 'a' => some "i8"
  | 's' => some "i16"
  | 'l' => some "i32"
  | 'x' => some "i64"
  | 'n' => some "i128"
  | 'i' => some "isize"
  | 'h' => some "u8"
  | 't' => some "u16"
  | 'm' => some "u32"
  | 'y' => some "u64"
  | 'o' => some "u128"
  | 'j' => some "usize"
  | 'f' => some "f32"
  | 'd' => some "f64"
  | 'z' => some "!"
  | 'p' => some "_"
  | 'v' => some "..."
  | _ => none

/-- The number that digits denote, unless it takes more than 64 bits. -/
def value? (ds : List Char) : Option Nat := (digits? 16 ds).filter (· < wordLimit)

/-- The bytes that pairs of digits denote. -/
def bytes? : List Char → Option (List UInt8)
  | [] => some []
  | [_] => none
  | a :: b :: rest => do
    let n ← digits? 16 [a, b]
    return n.toUInt8 :: (← bytes? rest)

def stringOf? (ds : List Char) : Option String :=
  (bytes? ds).bind fun bytes => String.fromUTF8? ⟨bytes.toArray⟩

def charOf? (ds : List Char) : Option Char :=
  (value? ds).bind fun n => if h : n.isValidChar then some (Char.ofNatAux n h) else none

def unsignedConst : Printer → Printer :=
  Printer.reading hexDigits fun ds =>
    Printer.print (match value? ds with
      | some n => decimal n
      | none => "0x" ++ String.ofList ds)

def stringConst : Printer → Printer :=
  Printer.reading hexDigits fun ds p =>
    match stringOf? ds with
    | some s => p.print (quoted s)
    | none => p.fail .form

/-- The calling convention of a function type, `-` for the underscores it is written with. -/
def convention (name : List Char) : String :=
  "extern \"" ++ String.ofList (name.map fun c => if c == '_' then '-' else c) ++ "\" "

/-- A component of a special namespace. -/
def specialPart (kind : Char) (name : Identifier) (index : Nat) : String :=
  let label := match kind with
    | 'C' => "closure"
    | 'S' => "shim"
    | c => c.toString
  "::\x7b" ++ label ++ (if name.isEmpty then "" else ":" ++ name.text) ++ "#" ++ decimal index ++
    "\x7d"

/-- The bindings of a trait's types and constants, up to the first that is none; `opened` says that
    an angle bracket is open. -/
def bindings (value : Printer → Printer) : Nat → Bool → Printer → Printer
  | 0, _, p => p
  | n + 1, opened, p =>
    match p.eat? 'p' with
    | none => if opened then p.print ">" else p
    | some p =>
      (p.print (if opened then ", " else "<")).reading Identifier.read fun name p =>
        bindings value n true (value (p.print (name.text ++ " = ")))

/-- The mark of a type whose elements are passed one by one, if it is there. -/
def splat (p : Printer) : Printer :=
  match p.eat? 'w' with
  | some p => p.print "#[splat] "
  | none => p

/-- A list of one is marked by a comma. -/
def tuple (item : Printer → Printer) (p : Printer) : Printer :=
  let (count, p) := (p.print "(").list item ", "
  (if count = 1 then p.print "," else p).print ")"

/-! ## 2. Paths, types and constants -/

mutual

/-- A path; in a value, generic arguments follow `::`. -/
def path (depth : Nat) (inValue : Bool) (p : Printer) : Printer :=
  if p.full then p
  else if p.failed then p.print "?"
  else match depth with
  | 0 => p.fail .depth
  | d + 1 => p.reading anyChar fun tag p =>
    match tag with
    | 'C' => p.reading disambiguator fun _ => Printer.reading Identifier.read fun name p =>
      p.print name.text
    | 'N' => p.reading namespaceTag fun kind p =>
      let p := path d inValue p
      let p := if p.failed then p.print "::" else p
      p.reading disambiguator fun index => Printer.reading Identifier.read fun name p =>
        match kind with
        | some c => p.print (specialPart c name index)
        | none => if name.isEmpty then p else p.print ("::" ++ name.text)
    | 'M' => p.reading disambiguator fun _ p =>
      let p := p.silently (path d false)
      (type d (p.print "<")).print ">"
    | 'X' => p.reading disambiguator fun _ p =>
      let p := p.silently (path d false)
      (path d false ((type d (p.print "<")).print " as ")).print ">"
    | 'Y' => (path d false ((type d (p.print "<")).print " as ")).print ">"
    | 'I' =>
      let p := path d inValue p
      let p := p.print (if inValue then "::<" else "<")
      (p.list (genericArg d) ", ").2.print ">"
    | 'B' => p.reference fun place p =>
      match d with
      | 0 => p.fail .depth
      | e + 1 => if p.silent then p else p.elsewhere place (path e inValue)
    | _ => p.fail .form
termination_by (depth, 0)

def genericArg (depth : Nat) (p : Printer) : Printer :=
  match p.eat? 'L' with
  | some p => p.reading number62 Printer.lifetime
  | none => constOrType depth p
termination_by (depth, 2)

/-- A constant after its mark, or a type. -/
def constOrType (depth : Nat) (p : Printer) : Printer :=
  match p.eat? 'K' with
  | some p => const depth false p
  | none => type depth p
termination_by (depth, 1)

/-- A type; it is marked as splat at most once. -/
def type (depth : Nat) (p : Printer) : Printer :=
  if p.full then p
  else (splat p).reading anyChar fun tag p =>
    match basicType? tag with
    | some name => p.print name
    | none =>
      match depth with
      | 0 => p.fail .depth
      | d + 1 =>
        match tag with
        | 'R' => reference d "" (p.print "&")
        | 'Q' => reference d "mut " (p.print "&")
        | 'P' => type d (p.print "*const ")
        | 'O' => type d (p.print "*mut ")
        | 'A' => (const d true ((type d (p.print "[")).print "; ")).print "]"
        | 'S' => (type d (p.print "[")).print "]"
        | 'T' => tuple (type d) p
        | 'F' => p.inBinder (signature d)
        | 'D' =>
          let p := (p.print "dyn ").inBinder fun p => (p.list (dynTrait d) " + ").2
          match p.eat? 'L' with
          | none => p.fail .form
          | some p => p.reading number62 fun index p =>
            if index = 0 then p else (p.print " + ").lifetime index
        | 'B' => p.reference fun place p =>
          match d with
          | 0 => p.fail .depth
          | e + 1 => if p.silent then p else p.elsewhere place (type e)
        | 'W' => pattern d ((type d p).print " is ")
        | _ => path d false { p with rest := tag :: p.rest }
termination_by (depth, 0)

/-- What a reference refers to, after its lifetime. -/
def reference (depth : Nat) (mutability : String) (p : Printer) : Printer :=
  match p.eat? 'L' with
  | none => type depth (p.print mutability)
  | some p => p.reading number62 fun index p =>
    let p := if index = 0 then p else (p.lifetime index).print " "
    type depth (p.print mutability)
termination_by (depth, 1)

/-- A function type inside its binder. -/
def signature (depth : Nat) (p : Printer) : Printer :=
  let isUnsafe := (p.eat? 'U').isSome
  let p := (p.eat? 'U').getD p
  match p.eat? 'K' with
  | none => parameters depth ((if isUnsafe then "unsafe " else "")) p
  | some p =>
    match p.eat? 'C' with
    | some p => parameters depth ((if isUnsafe then "unsafe " else "") ++ convention ['C']) p
    | none => p.reading Identifier.read fun name p =>
      if name.ascii.isEmpty || !name.insertions.isEmpty then p.fail .form
      else parameters depth ((if isUnsafe then "unsafe " else "") ++ convention name.ascii) p
termination_by (depth, 2)

/-- The parameters and the result of a function type; an empty result is left out. -/
def parameters (depth : Nat) (qualifiers : String) (p : Printer) : Printer :=
  let p := ((p.print (qualifiers ++ "fn(")).list (type depth) ", ").2.print ")"
  match p.eat? 'u' with
  | some p => p
  | none => type depth (p.print " -> ")
termination_by (depth, 1)

/-- A path whose generic arguments stay open for what follows, and whether they do. -/
def openPath (depth : Nat) (p : Printer) : Bool × Printer :=
  match p.eat? 'B' with
  | some p =>
    let tag := p.whole.length - p.rest.length - 1
    match number62 p.rest with
    | none => (false, p.fail .form)
    | some (place, rest) =>
      if place < tag then
        match depth with
        | 0 => (false, p.fail .depth)
        | e + 1 =>
          if p.silent then (false, { p with rest })
          else
            let (opened, q) := openPath e { p with rest := p.whole.drop place }
            (opened, { q with rest, failed := p.failed })
      else (false, p.fail .form)
  | none =>
    match p.eat? 'I' with
    | some p => (true, (((path depth false p).print "<").list (genericArg depth) ", ").2)
    | none => (false, path depth false p)
termination_by (depth, 3)

/-- A trait with the bindings of its types and constants. -/
def dynTrait (depth : Nat) (p : Printer) : Printer :=
  let (opened, p) := openPath depth p
  bindings (constOrType depth) (p.rest.length + 1) opened p
termination_by (depth, 4)

/-- A constant; outside a value, what is no literal stands in braces. -/
def const (depth : Nat) (inValue : Bool) (p : Printer) : Printer :=
  if p.full then p
  else p.reading anyChar fun tag p =>
    match depth with
    | 0 => p.fail .depth
    | d + 1 =>
      let opened (p : Printer) := if inValue then p else p.print "\x7b"
      let closed (p : Printer) := if inValue then p else p.print "\x7d"
      match tag with
      | 'p' => p.print "_"
      | 'h' | 't' | 'm' | 'y' | 'o' | 'j' => unsignedConst p
      | 'a' | 's' | 'l' | 'x' | 'n' | 'i' =>
        match p.eat? 'n' with
        | some p => unsignedConst (p.print "-")
        | none => unsignedConst p
      | 'b' => p.reading hexDigits fun ds p =>
        match value? ds with
        | some 0 => p.print "false"
        | some 1 => p.print "true"
        | _ => p.fail .form
      | 'c' => p.reading hexDigits fun ds p =>
        match charOf? ds with
        | some c => p.print (quotedWith (Char.ofNat 39) [c])
        | none => p.fail .form
      | 'e' => closed (stringConst ((opened p).print "*"))
      | 'R' =>
        match p.eat? 'e' with
        | some p => stringConst p
        | none => closed (const d true ((opened p).print "&"))
      | 'Q' => closed (const d true ((opened p).print "&mut "))
      | 'A' => closed ((((opened p).print "[").list (const d true) ", ").2.print "]")
      | 'T' => closed (tuple (const d true) (opened p))
      | 'V' => (path d true (opened p)).reading anyChar fun kind p =>
        match kind with
        | 'U' => closed p
        | 'T' => closed (((p.print "(").list (const d true) ", ").2.print ")")
        | 'S' => closed (((p.print " \x7b ").list (field d) ", ").2.print " \x7d")
        | _ => p.fail .form
      | 'B' => p.reference fun place p =>
        match d with
        | 0 => p.fail .depth
        | e + 1 => if p.silent then p else p.elsewhere place (const e inValue)
      | _ => p.fail .form
termination_by (depth, 0)

/-- A named field of a constant. -/
def field (depth : Nat) (p : Printer) : Printer :=
  p.reading disambiguator fun _ => Printer.reading Identifier.read fun name p =>
    const depth true (p.print (name.text ++ ": "))
termination_by (depth, 1)

/-- The values that a restricted type takes: a range, one of several, or all but null. -/
def pattern (depth : Nat) (p : Printer) : Printer :=
  if p.full then p
  else p.reading anyChar fun tag p =>
    match tag with
    | 'R' => const depth false ((const depth false p).print "..=")
    | 'N' => p.print "!null"
    | 'O' =>
      match depth with
      | 0 => p.fail .depth
      | d + 1 => p.list1 (pattern d) " | "
    | _ => p.fail .form
termination_by (depth, 1)

end

/-! ## 3. Whole symbols -/

/-- What follows the mark of a compact symbol: it is ASCII and starts with a capital. -/
def inner? (cs : List Char) : Option (List Char) := do
  let inner ← oneOf ["_R", "R", "__R"] cs
  match inner with
  | c :: _ =>
    if 'A' ≤ c && c ≤ 'Z' && inner.all (·.toNat < 128) then some inner else none
  | [] => none

/-- What follows a path that can be read. -/
def skipPath? (whole rest : List Char) : Option (List Char) :=
  let p := path depthLimit false { whole, rest, silent := true }
  if p.failed then none else some p.rest

/-- What follows a whole symbol: its path, and the path of where it was made, which a capital starts
    and which is not shown. -/
def skipSymbol? (inner : List Char) : Option (List Char) := do
  let rest ← skipPath? inner inner
  match rest with
  | c :: _ => if 'A' ≤ c && c ≤ 'Z' then skipPath? inner rest else return rest
  | [] => return []

/-- The path that a compact symbol names, and what follows the symbol. -/
def read? (cs : List Char) : Option (String × List Char) := do
  let inner ← inner? cs
  let rest ← skipSymbol? inner
  let p := path depthLimit true { whole := inner, rest := inner }
  return (if p.full then p.out ++ "\x7bsize limit reached\x7d" else p.out, rest)

end StackDepth.Symbol.Compact

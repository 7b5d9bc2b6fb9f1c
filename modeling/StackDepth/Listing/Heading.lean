import StackDepth.Text.Reader

/-!
# Headings, labels and the mnemonic column

The lines that every dialect shares. Each reader here is given a whole line and answers with the
part of it that matters, or with nothing if the line has another form:

* a file heading (`fileHeading?`): a path, `:`, spaces or tabs, `file format `;
* a section heading (`sectionHeading?`): `Disassembly of section `, a word, `:`;
* a label (`label?`): an address, a space, a symbol in angle brackets, `:`;
* an instruction (`mnemonic?`): an address, `:`, the code bytes in groups, the mnemonic.
-/

namespace StackDepth.Listing

open StackDepth.Text

/-! ## 1. File headings -/

/-- `cs` starts with what follows the path of a file heading. -/
def startsFileFormat (cs : List Char) : Bool :=
  match cs with
  | ':' :: r => (literal "file format " (r.dropWhile fun c => c == ' ' || c == '\t')).isSome
  | _ => false

/-- The shortest start of `cs` without a line end that `file format` follows. -/
def beforeFileFormat : List Char → Option (List Char)
  | [] => none
  | c :: r =>
    if startsFileFormat (c :: r) then some []
    else if c == '\n' then none
    else (beforeFileFormat r).map (c :: ·)

/-- The path of a file heading; it has at least one character. -/
def filePath? (line : List Char) : Option (List Char) :=
  match line with
  | [] => none
  | c :: r => if c == '\n' then none else (beforeFileFormat r).map (c :: ·)

/-- The last component of a path. -/
def fileName (path : List Char) : List Char := (path.reverse.takeWhile (· != '/')).reverse

/-- The file that a file heading names, without its directories. -/
def fileHeading? (line : List Char) : Option String :=
  (filePath? line).map fun path => String.ofList (fileName path)

/-! ## 2. Section headings -/

/-- What stands before the last `:` of a word, if anything does. -/
def beforeLastColon (word : List Char) : Option (List Char) :=
  (cutLast ':' word).bind fun (before, _) => if before.isEmpty then none else some before

def sectionHeading? (line : List Char) : Option String := do
  let rest ← literal "Disassembly of section " line
  let name ← beforeLastColon (rest.takeWhile isInk)
  return String.ofList name

/-! ## 3. Labels -/

/-- A symbol between angle brackets, with nothing after `close`. -/
def bracketed? (close : String) (cs : List Char) : Option (List Char) := do
  let rest ← literal "<" cs
  let symbol ← before? close.toList rest
  if symbol.contains '\n' then none else some symbol

/-- The address and the symbol of a label. An address over 64 bits labels nothing. -/
def label? (line : List Char) : Option (Nat × String) := do
  let (digits, rest) ← run isHexDigit line
  let rest ← literal " " rest
  let symbol ← bracketed? ">:" rest
  let address ← word? 16 digits
  return (address, String.ofList symbol)

/-! ## 4. The mnemonic column -/

/-- What follows the groups of code bytes: each is a run of digits with one space after it. `done`
    is what follows the groups read so far, `inGroup` says that a digit was read since. -/
def afterGroups (done : Option (List Char)) (inGroup : Bool) : List Char → Option (List Char)
  | [] => done
  | c :: r =>
    if isHexDigit c then afterGroups done true r
    else if c == ' ' && inGroup then afterGroups (some r) false r
    else done

/-- The mnemonic of an instruction. -/
def mnemonic? (line : List Char) : Option String := do
  let (_, rest) ← run isHexDigit (trimStart line)
  let rest ← literal ":" rest
  let rest ← blanks rest
  let rest ← afterGroups none false rest
  let rest ← blanks rest
  let (word, _) ← run isInk rest
  return String.ofList word

end StackDepth.Listing

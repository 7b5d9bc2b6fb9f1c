import StackDepth.Text.Blank
import StackDepth.Text.Numeral

/-!
# Readers

A reader takes the characters that are left and gives back what is left after it, or nothing if
the text does not start with what it reads. Every reader here takes the longest run it can.
-/

namespace StackDepth.Text

/-! ## 1. Fixed texts and blanks -/

/-- What follows `start`. -/
def after? : (start cs : List Char) → Option (List Char)
  | [], cs => some cs
  | _ :: _, [] => none
  | s :: start, c :: cs => if s = c then after? start cs else none

theorem after?_eq_some_iff {start cs rest : List Char} :
    after? start cs = some rest ↔ cs = start ++ rest := by
  induction start generalizing cs with
  | nil => simp [after?]
  | cons s start ih =>
    cases cs with
    | nil => simp [after?]
    | cons c cs => by_cases h : s = c <;> simp [after?, h, ih, eq_comm]

@[simp] theorem after?_append (start rest : List Char) : after? start (start ++ rest) = some rest :=
  after?_eq_some_iff.2 rfl

/-- What stands before `final`. -/
def before? (final cs : List Char) : Option (List Char) :=
  (after? final.reverse cs.reverse).map List.reverse

theorem before?_eq_some_iff {final cs rest : List Char} :
    before? final cs = some rest ↔ cs = rest ++ final := by
  simp only [before?, Option.map_eq_some_iff, after?_eq_some_iff]
  constructor
  · rintro ⟨r, h, rfl⟩
    simpa using congrArg List.reverse h
  · rintro rfl
    exact ⟨rest.reverse, by simp⟩

/-- `part` stands somewhere in the text. -/
def occurs (part : List Char) : List Char → Bool
  | [] => part.isEmpty
  | c :: cs => part.isPrefixOf (c :: cs) || occurs part cs

def literal (s : String) (cs : List Char) : Option (List Char) := after? s.toList cs

/-- The first of `ss` that `cs` starts with. -/
def oneOf (ss : List String) (cs : List Char) : Option (List Char) :=
  ss.findSome? fun s => literal s cs

/-- Reads `r` if it is there. -/
def optional (r : List Char → Option (List Char)) (cs : List Char) : List Char :=
  (r cs).getD cs

/-- One blank or more. -/
def blanks (cs : List Char) : Option (List Char) :=
  match cs with
  | c :: r => if isBlank c then some (trimStart r) else none
  | [] => none

/-! ## 2. Runs -/

/-- One or more characters of the class `p`, and what follows them. -/
def run (p : Char → Bool) (cs : List Char) : Option (List Char × List Char) :=
  if (cs.takeWhile p).isEmpty then none else some (cs.takeWhile p, cs.dropWhile p)

def isDecimalDigit (c : Char) : Bool := '0' ≤ c && c ≤ '9'

def isLower (c : Char) : Bool := 'a' ≤ c && c ≤ 'z'

/-- Addresses and code bytes are written with these digits only. -/
def isHexDigit (c : Char) : Bool := isDecimalDigit c || ('a' ≤ c && c ≤ 'f')

/-- An unsigned number: decimal digits, or `0x` and hexadecimal digits. -/
def number (cs : List Char) : Option (List Char × List Char) :=
  match cs with
  | '0' :: 'x' :: r =>
    match run isHexDigit r with
    | some (ds, rest) => some ('0' :: 'x' :: ds, rest)
    | none => run isDecimalDigit cs
  | _ => run isDecimalDigit cs

/-- A lower-case letter, then lower-case letters and digits. -/
def identifier (cs : List Char) : Option (List Char × List Char) :=
  match cs with
  | c :: r =>
    if isLower c then
      some (c :: r.takeWhile (fun d => isLower d || isDecimalDigit d),
        r.dropWhile (fun d => isLower d || isDecimalDigit d))
    else none
  | [] => none

/-! ## 3. Cuts -/

/-- What stands before the first `c` and after it. -/
def cut (c : Char) (cs : List Char) : Option (List Char × List Char) :=
  match cs.dropWhile (· != c) with
  | _ :: r => some (cs.takeWhile (· != c), r)
  | [] => none

/-- What stands before the first `part` and after it. -/
def cutAt (part : List Char) : List Char → Option (List Char × List Char)
  | [] => none
  | c :: cs =>
    match after? part (c :: cs) with
    | some rest => some ([], rest)
    | none => (cutAt part cs).map fun (before, rest) => (c :: before, rest)

/-- What stands before the last `c` and after it. -/
def cutLast (c : Char) (cs : List Char) : Option (List Char × List Char) :=
  (cut c cs.reverse).map fun (after, before) => (before.reverse, after.reverse)

/-- The pieces between the separators `c`; at least one. -/
def pieces (c : Char) : List Char → List (List Char)
  | [] => [[]]
  | d :: r =>
    if d == c then [] :: pieces c r
    else match pieces c r with
      | p :: ps => (d :: p) :: ps
      | [] => [[d]]

end StackDepth.Text

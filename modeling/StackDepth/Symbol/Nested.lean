import StackDepth.Text.Reader

/-!
# Nested symbols

The older form of a mangled symbol: `_ZN`, the components of a path each after its length, and `E`.
Characters that a symbol cannot hold are written between dollar signs, `::` inside a component as
two dots. The last component may be a hash, which is not shown.
-/

namespace StackDepth.Symbol.Nested

open StackDepth.Text

/-! ## 1. Components -/

/-- What follows the mark of a nested symbol. -/
def inner? (cs : List Char) : Option (List Char) := oneOf ["_ZN", "ZN", "__ZN"] cs

/-- The components up to the closing `E`, and what follows it. -/
def components? (cs : List Char) : Option (List (List Char) × List Char) :=
  match cs with
  | 'E' :: rest => some ([], rest)
  | c :: r =>
    if isDecimalDigit c then
      let after := r.dropWhile isDecimalDigit
      match digits? 10 (c :: r.takeWhile isDecimalDigit) with
      | none => none
      | some size =>
        if size < after.length then
          (components? (after.drop size)).map fun (parts, rest) => (after.take size :: parts, rest)
        else none
    else none
  | [] => none
termination_by cs.length
decreasing_by
  have := (List.dropWhile_suffix (l := r) isDecimalDigit).length_le
  simp only [List.length_drop, List.length_cons]
  omega

/-- `h` and hexadecimal digits. -/
def isHash (part : List Char) : Bool :=
  match part with
  | 'h' :: ds => ds.all fun c => (digit? 16 c).isSome
  | _ => false

/-! ## 2. Escapes -/

/-- Characters that are no control characters and are written by their code point. -/
def codePoint? (digits : List Char) : Option Char := do
  if !digits.all isHexDigit || digits.isEmpty then none
  let n ← digits? 16 digits
  if h : n.isValidChar then
    if n < 0x20 || (0x7F ≤ n && n < 0xA0) then none else some (Char.ofNatAux n h)
  else none

/-- What an escape between dollar signs stands for. -/
def unescape? (escape : List Char) : Option Char :=
  match String.ofList escape with
  | "SP" => some '@'
  | "BP" => some '*'
  | "RF" => some '&'
  | "LT" => some '<'
  | "GT" => some '>'
  | "LP" => some '('
  | "RP" => some ')'
  | "C" => some ','
  | _ =>
    match escape with
    | 'u' :: digits => codePoint? digits
    | _ => none

theorem length_cut_lt {c : Char} {cs before after : List Char}
    (h : cut c cs = some (before, after)) :
    after.length < cs.length := by
  unfold cut at h
  split at h
  · rename_i d r hd
    have := (List.dropWhile_suffix (l := cs) (· != c)).length_le
    rw [hd] at this
    simp only [Option.some.injEq, Prod.mk.injEq] at h
    rw [← h.2]
    exact this
  · simp at h

/-- A component with its escapes undone. From the first that stands for nothing on, it is shown as
    it is written. -/
def plain (cs : List Char) : List Char :=
  match cs with
  | [] => []
  | '.' :: '.' :: r => ':' :: ':' :: plain r
  | '$' :: r =>
    match _ : cut '$' r with
    | none => '$' :: r
    | some (escape, after) =>
      match unescape? escape with
      | some c => c :: plain after
      | none => '$' :: r
  | c :: r => c :: plain r
termination_by cs.length
decreasing_by
  · simp only [List.length_cons]
    omega
  · rename_i h
    have := length_cut_lt h
    simp only [List.length_cons]
    omega
  · simp

/-- A component as it is shown: an underscore that only guards an escape is dropped. -/
def showPart (part : List Char) : String :=
  match part with
  | '_' :: '$' :: r => String.ofList (plain ('$' :: r))
  | _ => String.ofList (plain part)

/-- The components without the hash at their end. -/
def dropHash (parts : List (List Char)) : List (List Char) :=
  match parts.getLast? with
  | some part => if isHash part then parts.dropLast else parts
  | none => parts

/-! ## 3. Whole symbols -/

/-- The path that a nested symbol names, and what follows the symbol. -/
def read? (cs : List Char) : Option (String × List Char) := do
  let inner ← inner? cs
  if inner.any fun c => 128 ≤ c.toNat then none
  let (parts, rest) ← components? inner
  return ("::".intercalate ((dropHash parts).map showPart), rest)

end StackDepth.Symbol.Nested

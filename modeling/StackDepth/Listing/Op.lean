import StackDepth.Listing.Heading

/-!
# Operations

An operation is a word of a line with a blank before it, and everything after the word. A form of
an instruction is recognised wherever one of the operations of a line has it; where a form carries
a value, the first operation that has the form gives it.
-/

namespace StackDepth.Listing

open StackDepth.Text

structure Op where
  name : List Char
  /-- What follows the name: empty, or starting with a blank. -/
  operands : List Char
  deriving DecidableEq, Repr

/-- The operations of a line, from left to right: one for each blank. -/
def ops : List Char → List Op
  | [] => []
  | c :: r => if isBlank c then ⟨r.takeWhile isInk, r.dropWhile isInk⟩ :: ops r else ops r

/-! ## 1. Mnemonics -/

/-- Mnemonics put together from a stem, a condition and a width. -/
structure Mnemonic where
  stems : List (List Char)
  conditions : List (List Char)
  widths : List (List Char)

def Mnemonic.of (stems conditions widths : List String) : Mnemonic :=
  ⟨stems.map String.toList, conditions.map String.toList, widths.map String.toList⟩

/-- `word` is a stem, a condition and a width, one after the other. -/
def Mnemonic.has (m : Mnemonic) (word : List Char) : Bool :=
  m.stems.any fun stem =>
    match after? stem word with
    | none => false
    | some rest => m.conditions.any fun condition =>
      match after? condition rest with
      | none => false
      | some width => m.widths.contains width

theorem Mnemonic.has_iff (m : Mnemonic) (word : List Char) :
    m.has word = true ↔ ∃ stem ∈ m.stems, ∃ condition ∈ m.conditions, ∃ width ∈ m.widths,
      word = stem ++ (condition ++ width) := by
  simp only [has, List.any_eq_true]
  constructor
  · rintro ⟨stem, hs, h⟩
    split at h
    · simp at h
    · rename_i rest hrest
      obtain ⟨condition, hc, h⟩ := List.any_eq_true.1 h
      split at h
      · simp at h
      · rename_i width hwidth
        refine ⟨stem, hs, condition, hc, width, by simpa using h, ?_⟩
        rw [after?_eq_some_iff.1 hrest, after?_eq_some_iff.1 hwidth]
  · rintro ⟨stem, hs, condition, hc, width, hw, rfl⟩
    refine ⟨stem, hs, ?_⟩
    rw [after?_append]
    refine List.any_eq_true.2 ⟨condition, hc, ?_⟩
    rw [after?_append]
    simpa using hw

/-! ## 2. Call targets -/

/-- The address that a direct call names, and the symbol after it: nothing may follow. -/
def callTarget? (cs : List Char) : Option (List Char × List Char) := do
  let (address, rest) ← run isHexDigit cs
  if rest.isEmpty then return (address, [])
  let symbol ← bracketed? ">" (← blanks rest)
  return (address, symbol)

/-- A call target as a value. An address over 64 bits calls nothing. -/
def callee (target : List Char × List Char) : Option (Nat × String) :=
  (word? 16 target.1).map fun address => (address, String.ofList target.2)

end StackDepth.Listing

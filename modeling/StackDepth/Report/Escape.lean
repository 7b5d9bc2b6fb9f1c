/-!
# Escapes of drawings

A label of a drawing stands between double quotes. A quote and a backslash in it get a backslash
before them, and a line end is written as backslash and `n`. The rule is the same for bytes and for
characters, so it is stated for any alphabet that has these four signs.
-/

namespace StackDepth.Report

/-- The signs that matter inside a label. -/
structure Alphabet (α : Type) where
  quote : α
  backslash : α
  lineEnd : α
  letterN : α

namespace Alphabet

variable {α : Type} [DecidableEq α] (s : Alphabet α)

def escapeOne (c : α) : List α :=
  if c = s.quote ∨ c = s.backslash then [s.backslash, c]
  else if c = s.lineEnd then [s.backslash, s.letterN]
  else [c]

def escape (cs : List α) : List α := cs.flatMap s.escapeOne

@[simp] theorem escape_nil : s.escape [] = [] := rfl

@[simp] theorem escape_cons (c : α) (cs : List α) :
    s.escape (c :: cs) = s.escapeOne c ++ s.escape cs :=
  rfl

@[simp] theorem escape_append (cs ds : List α) :
    s.escape (cs ++ ds) = s.escape cs ++ s.escape ds := by
  simp [escape]

end Alphabet

/-- The signs as bytes. -/
def byteSigns : Alphabet UInt8 := ⟨34, 92, 10, 110⟩

/-- The signs as characters. -/
def charSigns : Alphabet Char := ⟨'"', '\\', '\n', 'n'⟩

/-- Escapes what is written to it, chunk by chunk. -/
structure Escaper where
  output : Array UInt8 := #[]

/-- Writes one chunk; how much of it was taken, which is all. -/
def Escaper.write (e : Escaper) (chunk : List UInt8) : Nat × Escaper :=
  (chunk.length, { output := e.output ++ (byteSigns.escape chunk).toArray })

/-- Writes chunks one after the other, and how much of each was taken. -/
def Escaper.writeAll (e : Escaper) : List (List UInt8) → List Nat × Escaper
  | [] => ([], e)
  | chunk :: rest =>
    let (n, e) := e.write chunk
    let (ns, e) := e.writeAll rest
    (n :: ns, e)

/-- Text as it stands in a label. -/
def escapeText (text : String) : String := String.ofList (charSigns.escape text.toList)

end StackDepth.Report

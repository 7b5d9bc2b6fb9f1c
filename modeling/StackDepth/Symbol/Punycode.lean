import StackDepth.Text.Reader

/-!
# Punycode

Identifiers with characters outside ASCII are written as their ASCII part and a row of insertions.
An insertion is a number in a mixed base, with digits `a` to `z` for 0 to 25 and `0` to `9` for 26
to 35; it gives the code point to insert and the place where it goes.
-/

namespace StackDepth.Symbol.Punycode

open StackDepth.Text

def base : Nat := 36
def leastThreshold : Nat := 1
def mostThreshold : Nat := 26
def skew : Nat := 38

/-- The longest identifier that is decoded. -/
def limit : Nat := 128

def digit? (c : Char) : Option Nat :=
  if isLower c then some (c.toNat - 97)
  else if isDecimalDigit c then some (c.toNat - 48 + 26)
  else none

/-- The threshold of the digit at place `k`. -/
def threshold (bias k : Nat) : Nat := min (max (k - bias) leastThreshold) mostThreshold

/-- The number that `cs` starts with, and what follows it. `k` is the place of the next digit, `w`
    its weight, `delta` the sum so far; numbers over 64 bits are refused. -/
def number? (bias k w delta : Nat) : List Char → Option (Nat × List Char)
  | [] => none
  | c :: rest =>
    match digit? c with
    | none => none
    | some d =>
      let sum := delta + d * w
      let t := threshold bias k
      if wordLimit ≤ sum then none
      else if d < t then some (sum, rest)
      else if wordLimit ≤ w * (base - t) then none
      else number? bias (k + base) (w * (base - t)) sum rest

theorem length_number?_lt {bias k w delta n : Nat} {cs rest : List Char}
    (h : number? bias k w delta cs = some (n, rest)) : rest.length < cs.length := by
  induction cs generalizing k w delta with
  | nil => simp [number?] at h
  | cons c cs ih =>
    unfold number? at h
    split at h
    · simp at h
    · dsimp only at h
      split at h
      · simp at h
      · split at h
        · simp only [Option.some.injEq, Prod.mk.injEq] at h
          simp [h.2]
        · split at h
          · simp at h
          · exact Nat.lt_succ_of_lt (ih h)

/-- Scales `delta` down until it is small, counting the steps in `k`. -/
def scale (k delta : Nat) : Nat × Nat :=
  if (base - leastThreshold) * mostThreshold / 2 < delta then
    scale (k + base) (delta / (base - leastThreshold))
  else (k, delta)
termination_by delta
decreasing_by
  rename_i h
  have h1 : (base - leastThreshold) * mostThreshold / 2 = 455 := rfl
  have h2 : base - leastThreshold = 35 := rfl
  rw [h1] at h
  rw [h2]
  exact Nat.div_lt_self (by omega) (by omega)

/-- The bias for the next number, after an insertion of `delta` made the text `length` long. -/
def adapt (damp delta length : Nat) : Nat :=
  let delta := delta / damp
  let (k, delta) := scale 0 (delta + delta / length)
  k + (base - leastThreshold + 1) * delta / (delta + skew)

/-- Makes the insertions that `cs` lists. `i` is the place after the last one, `code` its code
    point. -/
def insertAll (bias damp i code : Nat) (text cs : List Char) : Option (List Char) :=
  match _ : number? bias base 1 0 cs with
  | none => none
  | some (delta, rest) =>
    let length := text.length + 1
    let place := (i + delta) % length
    let code := code + (i + delta) / length
    if limit < length then none
    else if code.isValidChar then
      let text := text.take place ++ Char.ofNat code :: text.drop place
      if rest.isEmpty then some text
      else insertAll (adapt damp delta length) 2 (place + 1) code text rest
    else none
termination_by cs.length
decreasing_by
  exact length_number?_lt (by assumption)

/-- The identifier of an ASCII part and its insertions. -/
def decode? (ascii insertions : List Char) : Option (List Char) :=
  if insertions.isEmpty || limit < ascii.length then none
  else insertAll 72 700 0 0x80 ascii insertions

end StackDepth.Symbol.Punycode

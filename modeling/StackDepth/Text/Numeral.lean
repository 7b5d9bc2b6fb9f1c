/-!
# Numerals

Numbers in a listing are unsigned 64-bit words, written in base 10 or 16. Reading accepts one
leading `+` and digits of either case, and refuses what does not fit a word; writing uses lower
case and no leading zeros unless a width asks for them.
-/

namespace StackDepth.Text

/-! ## 1. Reading -/

/-- The first number that no 64-bit word holds. -/
def wordLimit : Nat := 0x10000000000000000

/-- The value of `c` as a digit, of whatever base. -/
def digitValue (c : Char) : Nat :=
  if '0' ≤ c ∧ c ≤ '9' then c.toNat - 48
  else if 'a' ≤ c ∧ c ≤ 'z' then c.toNat - 87
  else if 'A' ≤ c ∧ c ≤ 'Z' then c.toNat - 55
  else 36

/-- The value of `c` as a digit of `base`. -/
def digit? (base : Nat) (c : Char) : Option Nat :=
  if digitValue c < base then some (digitValue c) else none

/-- The number that a row of digits denotes, most significant digit first. -/
def digits? (base : Nat) (cs : List Char) : Option Nat :=
  cs.foldlM (fun n c => (digit? base c).map (base * n + ·)) 0

/-- The word that `cs` denotes: one or more digits, after at most one `+`. -/
def word? (base : Nat) (cs : List Char) : Option Nat :=
  let ds := match cs with
    | '+' :: r => r
    | _ => cs
  if ds.isEmpty then none
  else (digits? base ds).filter (· < wordLimit)

/-- An immediate operand: hexadecimal after `0x`, else decimal. -/
def immediate? (cs : List Char) : Option Nat :=
  match cs with
  | '0' :: 'x' :: ds => word? 16 ds
  | _ => word? 10 cs

/-! ## 2. Writing -/

/-- Lower-case hexadecimal digits. -/
def hex (n : Nat) : String := String.ofList (Nat.toDigits 16 n)

def decimal (n : Nat) : String := String.ofList (Nat.toDigits 10 n)

/-- An address as it is shown to a reader. -/
def hexAddress (n : Nat) : String := "0x" ++ hex n

/-- How many digits `n` takes in base `base`: one, and one more as often as `n` can be divided by
    the base and something is left. -/
def width (base n : Nat) : Nat :=
  if 1 < base ∧ base ≤ n then width base (n / base) + 1 else 1
termination_by n
decreasing_by
  rename_i h
  exact Nat.div_lt_self (by omega) h.1

end StackDepth.Text

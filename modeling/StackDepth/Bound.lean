import StackDepth.Text.Numeral

/-!
# Stack bounds

How deep the stack gets: exactly so many bytes, or at least so many when something on the way could
not be measured.
-/

namespace StackDepth

inductive Bound where
  | exact (bytes : Nat)
  | atLeast (bytes : Nat)
  deriving DecidableEq, Repr

namespace Bound

def of (bytes : Nat) (imprecise : Bool) : Bound :=
  if imprecise then .atLeast bytes else .exact bytes

def bytes : Bound → Nat
  | .exact n => n
  | .atLeast n => n

def isExact : Bound → Bool
  | .exact _ => true
  | .atLeast _ => false

/-- A lower bound is marked by `>`. -/
def text : Bound → String
  | .exact n => Text.decimal n
  | .atLeast n => ">" ++ Text.decimal n

@[simp] theorem bytes_of (n : Nat) (b : Bool) : (of n b).bytes = n := by
  cases b <;> rfl

@[simp] theorem isExact_of (n : Nat) (b : Bool) : (of n b).isExact = !b := by
  cases b <;> rfl

end Bound

end StackDepth

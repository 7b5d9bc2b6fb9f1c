import StackDepth.Listing.Line

/-!
# The ledger

Counts the instructions of a listing: per mnemonic, with the least known impact it was seen with,
and per impact. Mnemonics are kept in order, so that the ledger does not show in which order they
came.
-/

namespace StackDepth

/-- What is known of one mnemonic. -/
structure Count where
  executions : Nat
  impact : Impact
  deriving DecidableEq, Repr

structure Ledger where
  /-- Counts by mnemonic, in ascending order of the mnemonics. -/
  operations : List (String × Count) := []
  no : Nat := 0
  clear : Nat := 0
  potential : Nat := 0
  weak : Nat := 0
  deriving DecidableEq, Repr

namespace Ledger

/-- One more execution of `name`. -/
def addTo (name : String) (impact : Impact) : List (String × Count) → List (String × Count)
  | [] => [(name, ⟨1, impact⟩)]
  | (key, count) :: rest =>
    if name = key then (key, ⟨count.executions + 1, count.impact.max impact⟩) :: rest
    else if name < key then (name, ⟨1, impact⟩) :: (key, count) :: rest
    else (key, count) :: addTo name impact rest

/-- Counts one instruction. -/
def add (l : Ledger) (name : String) (impact : Impact) : Ledger :=
  let l := { l with operations := addTo name impact l.operations }
  match impact with
  | .no => { l with no := l.no + 1 }
  | .clear => { l with clear := l.clear + 1 }
  | .potential => { l with potential := l.potential + 1 }
  | .weak => { l with weak := l.weak + 1 }

/-- How many instructions had an impact. -/
def count (l : Ledger) : Impact → Nat
  | .no => l.no
  | .clear => l.clear
  | .potential => l.potential
  | .weak => l.weak

/-- How many instructions were counted. -/
def total (l : Ledger) : Nat := (Impact.all.map l.count).foldr (· + ·) 0

/-- The executions of all mnemonics together. -/
def executions (l : Ledger) : Nat := (l.operations.map (·.2.executions)).foldr (· + ·) 0

def isEmpty (l : Ledger) : Bool := l.operations.isEmpty

end Ledger

end StackDepth

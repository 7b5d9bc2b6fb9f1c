import StackDepth.Elf
import StackDepth.Report
import StackDepth.Text.Quoted

/-!
# The command

`listing [elf | target]`: reads a listing, and prints its table, its call tree and the bound of the
whole program. The target is that of the binary or the one named; without either it is taken from
the listing's own `file format` line.

The command sees files through a function that gives the bytes of each, so that a run is a value.
-/

namespace StackDepth.Command

open StackDepth.Text

/-- How a run ended and what it printed. -/
structure Exit where
  code : Nat
  stdout : String := ""
  stderr : String := ""
  deriving DecidableEq, Repr

/-- The bytes of a file, if there is such a file. -/
abbrev Files := String → Option ByteArray

/-! ## 1. The target -/

/-- What follows `file format` on the first row that has it, of the rows that are text. -/
def formatOf? : List (Option String) → Option String
  | some row :: rest =>
    match cutAt "file format".toList row.toList with
    | some (_, format) => some (String.ofList format)
    | none => formatOf? rest
  | _ => none

/-- The target that a listing names. -/
def targetOfListing? (files : Files) (listing : String) : Option Target := do
  Target.ofName? (← formatOf? (Listing.rowsOf (← files listing)))

def targetOf? (files : Files) (listing : String) : Option String → Except Elf.Fault (Option Target)
  | none => .ok (targetOfListing? files listing)
  | some arg =>
    match files arg with
    | some image => (Elf.target image).map some
    | none => .ok (Target.ofName? arg)

/-! ## 2. Runs -/

def usage : String := "usage: usage <listing> [<elf> | <target>]\n"

def unknownTarget : String :=
  "Unknown target, pick one of [" ++
    ", ".intercalate (Target.all.map fun t => quoted t.name) ++ "]\n"

/-- Reads the listing into a new survey. -/
def readListing (files : Files) (listing : String) (target : Target) : Except Fault Survey :=
  match files listing with
  | none => .error (.unreadable .missing)
  | some bytes =>
    let o := Survey.read { target, policy := {} } (Listing.rowsOf bytes)
    o.result.map fun _ => o.survey

/-- What is printed of a survey once it is measured. -/
def report (s : Survey) : String :=
  Report.table s { header := true, sections := true } ++ "\n" ++ Report.tree s ++ "\n" ++
    "Stack limit: " ++ s.bound.text ++ " bytes" ++
      (if s.precise then "" else " (lower bound)") ++ "\n"

/-- Surveys the listing for a target. -/
def survey (files : Files) (listing : String) (target : Target) : Exit :=
  let first := "Target is " ++ target.name ++ "\n"
  match readListing files listing target with
  | .error fault =>
    { code := 1
      stdout := first
      stderr := "Error reading " ++ quoted listing ++ ": " ++ fault.message ++ "\n" }
  | .ok s => { code := 0, stdout := first ++ report s.measure.2.1 }

def run (files : Files) : List String → Exit
  | [] => { code := 2, stderr := usage }
  | listing :: rest =>
    match targetOf? files listing rest.head? with
    | .error fault => { code := 1, stderr := "Error loading ELF!\n" ++ fault.message ++ "\n" }
    | .ok none => { code := 1, stderr := unknownTarget }
    | .ok (some target) => survey files listing target

end StackDepth.Command

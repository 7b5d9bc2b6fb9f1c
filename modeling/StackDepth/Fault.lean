import StackDepth.Text.Numeral

/-!
# Faults

Why a target name or a listing is refused.
-/

namespace StackDepth

/-- Why a file could not be read. -/
inductive ReadFault where
  | missing
  /-- Some line is not text. -/
  | invalidText
  deriving DecidableEq, Repr

/-- The cause, as the system reports it. -/
def ReadFault.text : ReadFault → String
  | .missing => "Os \x7b code: 2, kind: NotFound, message: \"No such file or directory\" \x7d"
  | .invalidText =>
    "Error \x7b kind: InvalidData, message: \"stream did not contain valid UTF-8\" \x7d"

inductive Fault where
  | unsupportedTarget (name : String)
  /-- A line acts on the stack where no function is current. -/
  | outsideFunction (lineNumber : Nat) (line : String)
  | unreadable (cause : ReadFault)
  deriving DecidableEq, Repr

def Fault.message : Fault → String
  | .unsupportedTarget name =>
    "Unsupported target `" ++ name ++ "`; supported are arm, aarch64, x86 and x86_64."
  | .outsideFunction lineNumber line =>
    "Line " ++ Text.decimal lineNumber ++ ": `" ++ line ++
      "` operates on the stack outside of any function."
  | .unreadable cause => "Reading the listing raised this error: " ++ cause.text

end StackDepth

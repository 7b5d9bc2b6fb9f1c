import StackDepth.Command

/-!
# The program

Reads the files that the arguments name, runs the command on them and prints what it answers.
-/

namespace StackDepth.Program

/-- The bytes of a file, if it can be read. -/
def readFile? (name : String) : IO (Option ByteArray) := do
  try
    return some (← IO.FS.readBinFile name)
  catch _ =>
    return none

end StackDepth.Program

def main (args : List String) : IO UInt32 := do
  let files ← (args.take 2).mapM fun name => return (name, ← StackDepth.Program.readFile? name)
  let exit := StackDepth.Command.run (fun name => (files.lookup name).join) args
  IO.print exit.stdout
  IO.eprint exit.stderr
  return exit.code.toUInt32

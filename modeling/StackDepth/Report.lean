import StackDepth.Report.Counts
import StackDepth.Report.Drawing
import StackDepth.Report.Table
import StackDepth.Report.Tree

/-!
# Reports

The four ways to show a survey, each in its plain style.
-/

namespace StackDepth.Report

inductive Format where
  | table
  | tree
  | counts
  | drawing
  deriving DecidableEq, Repr

def render (s : Survey) : Format → String
  | .table => table s {}
  | .tree => tree s
  | .counts => counts s {}
  | .drawing => drawing s {}

end StackDepth.Report

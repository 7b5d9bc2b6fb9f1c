import StackDepth.Report.Escape
import StackDepth.Survey
import StackDepth.Symbol.Basic

/-!
# The drawing

The call graph as a directed graph for a layout program: a box for every node, dashed if its bound
is not exact, an arrow for every call, and a frame around every cycle group. Nodes and calls appear
by slot.
-/

namespace StackDepth.Report

open StackDepth.Text

structure DrawingStyle where
  font : String := "monospace"
  deriving DecidableEq, Repr

/-- What a box says; in the drawing, `\n` starts a new line. -/
def boxLabel (n : Node) (f : Function) : String :=
  if n == CallGraph.pointer then f.name
  else
    escapeText (Symbol.readable f.name) ++ "\\nmax " ++ f.bound.text ++ "\\nlocal = " ++
      decimal f.size

def boxLine (n : Node) (f : Function) : String :=
  "    " ++ decimal n ++ " [label=\"" ++ boxLabel n f ++ "\"" ++
    (if f.imprecise || n == CallGraph.pointer then " style=dashed" else "") ++ "]\n"

def arrowLine (c : Call) : String :=
  "    " ++ decimal c.caller ++ " -> " ++ decimal c.callee ++ "\n"

def groupLines (style : DrawingStyle) (i : Nat) (group : List Node) : String :=
  "\n    subgraph cluster_" ++ decimal i ++ " \x7b\n" ++
    "        style=dashed\n" ++
    "        fontname=" ++ style.font ++ "\n" ++
    "        label=\"SCC" ++ decimal i ++ "\"\n" ++
    String.join (group.map fun n => "        " ++ decimal n ++ "\n") ++
    "    \x7d\n"

/-- The calls by slot. -/
def callsBySlot (g : CallGraph) : List Call := g.calls.mergeSort fun a b => decide (a.slot ≤ b.slot)

/-- The drawing of a survey. -/
def drawing (s : Survey) (style : DrawingStyle) : String :=
  let g := s.graph
  "digraph \x7b\n" ++
    "    node [fontname=" ++ style.font ++ " shape=box]\n" ++
    String.join (g.nodes.map fun n => ((g.function? n).map (boxLine n)).getD "") ++
    String.join ((callsBySlot g).map arrowLine) ++
    String.join (s.cycles.mapIdx (groupLines style)) ++
    "\x7d\n"

end StackDepth.Report

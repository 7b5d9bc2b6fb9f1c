import StackDepth.Survey

/-!
# The call tree

Below each regarded entrance, its callees, theirs, and so on. The callees of a function are listed
where it first appears; later it ends in `...`. A call back into the chain above is listed and not
followed.
-/

namespace StackDepth

namespace CallGraph

/-- The calls whose caller is not listed in `expanded`. -/
def unlisted (g : CallGraph) (expanded : List Node) : Nat :=
  g.calls.countP fun c => !expanded.contains c.caller

theorem length_callees (g : CallGraph) (n : Node) :
    (g.callees n).length = g.calls.countP (·.caller == n) := by
  simp [callees, recentCallees, List.countP_eq_length_filter]

theorem unlisted_cons_le (g : CallGraph) (n : Node) (expanded : List Node) :
    g.unlisted (n :: expanded) ≤ g.unlisted expanded := by
  refine List.countP_mono_left fun c _ h => ?_
  simp only [List.contains_cons, Bool.not_or, Bool.and_eq_true] at h
  exact h.2

/-- Listing the callees of a function for the first time takes all its calls. -/
theorem unlisted_cons (g : CallGraph) (n : Node) (expanded : List Node)
    (h : expanded.contains n = false) :
    g.unlisted (n :: expanded) + (g.callees n).length = g.unlisted expanded := by
  rw [length_callees]
  unfold unlisted
  induction g.calls with
  | nil => rfl
  | cons c cs ih =>
    simp only [List.countP_cons]
    by_cases hc : c.caller = n
    · have h1 : (n :: expanded).contains c.caller = true := by simp [hc]
      have h2 : expanded.contains c.caller = false := by rw [hc]; exact h
      have h3 : (c.caller == n) = true := by simp [hc]
      simp only [h1, h2, h3, Bool.not_true, Bool.not_false, Bool.false_eq_true, if_false, if_true]
      omega
    · have h1 : (n :: expanded).contains c.caller = expanded.contains c.caller := by
        simp [hc]
      have h3 : (c.caller == n) = false := by simp [hc]
      simp only [h1, h3, Bool.false_eq_true, if_false]
      omega

end CallGraph

namespace Report

/-! ## 1. Entries -/

/-- A line of the tree. -/
structure Entry where
  node : Node
  /-- The chain above it, the caller first. -/
  above : List Node
  /-- Its callees are listed elsewhere. -/
  repeated : Bool
  deriving DecidableEq, Repr

/-- The node is on the chain above it. -/
def Entry.isCircle (e : Entry) : Bool := e.above.contains e.node

/-- The entries below `due`, nodes with the chain above each, in order; `expanded` has the functions
    whose callees are listed already. -/
def entries (g : CallGraph) : List (Node × List Node) → List Node → List Entry
  | [], _ => []
  | (n, above) :: due, expanded =>
    if above.contains n then ⟨n, above, false⟩ :: entries g due expanded
    else if (g.callees n).isEmpty then ⟨n, above, false⟩ :: entries g due (n :: expanded)
    else if expanded.contains n then ⟨n, above, true⟩ :: entries g due expanded
    else ⟨n, above, false⟩ ::
      entries g ((g.callees n).map (·, n :: above) ++ due) (n :: expanded)
termination_by due expanded => g.unlisted expanded + due.length
decreasing_by
  · simp
  · have := g.unlisted_cons_le n expanded
    simp only [List.length_cons]
    omega
  · simp
  · rename_i h
    have := g.unlisted_cons n expanded (by simpa using h)
    simp only [List.length_append, List.length_map, List.length_cons]
    omega

/-! ## 2. Lines -/

/-- The call that leads to an entry, drawn as deep as the chain above it is long. -/
def indent (depth : Nat) : String :=
  if depth = 0 then "" else Text.fill ' ' (3 * (depth - 1)) ++ "-> "

/-- Own bytes are left out where they are listed above, and where they are not known. -/
def describe (f : Function) (circle : Bool) : String :=
  Text.hexAddress f.address ++ " " ++ f.name ++ " " ++ f.bound.text ++
    (if circle || f.dynamic then "" else " (" ++ Text.decimal f.size ++ ")")

def entryLine (g : CallGraph) (e : Entry) : String :=
  match g.function? e.node with
  | none => ""
  | some f =>
    indent e.above.length ++
      (if e.node == CallGraph.pointer then "Unknown Function Pointer" else describe f e.isCircle) ++
      (if f.cycle && e.isCircle then " CIRCLE" else "") ++
      (if f.dynamic then " DYNAMIC" else "") ++
      (if e.repeated then " ..." else "") ++ "\n"

/-- The entrances that the policy regards, by address. -/
def treeRoots (s : Survey) : List Node :=
  s.graph.entrances.filter fun n => ((s.graph.function? n).map s.policy.regards).getD false

/-- The call tree of a survey. -/
def tree (s : Survey) : String :=
  String.join ((entries s.graph ((treeRoots s).map (·, [])) []).map (entryLine s.graph))

end Report

end StackDepth

import StackDepth.CallGraph.Reach
import StackDepth.Log
import StackDepth.Policy
import StackDepth.Trail

/-!
# The analysis

Gives every function of a call graph its worst-case total. The graph is walked depth first; a
function is finished once its callees are, with its own size and the largest total among them. A
frame sized at run time, an indirect call or a cycle makes the chain of calls that leads to it
imprecise, and what is left over of that is spread afterwards along the calls.
-/

namespace StackDepth

/-! ## 1. What the analysis carries along -/

/-- Which kinds of findings were logged, where each kind is logged once. -/
structure Warned where
  dynamic : Bool := false
  pointerCall : Bool := false
  cycle : Bool := false
  deriving DecidableEq, Repr

structure Analysis where
  graph : CallGraph
  warned : Warned := {}
  log : Array Event := #[]

/-- What a finding of one kind logs: `each` with its function every time, or `once` the first time.
    Also whether the kind counts as logged from then on. -/
def Policy.warning (p : Policy) (enabled warned : Bool) (each once : Event) : Bool × List Event :=
  if !enabled then (warned, [])
  else if p.warnEach then (warned, [each])
  else if warned then (warned, [])
  else (true, [once])

namespace CallGraph

/-- The callees of `n` that are functions. -/
def calledFunctions (g : CallGraph) (n : Node) : List Node := (g.callees n).filter (· != pointer)

/-- The largest total among the callees of `n`. -/
def deepestCallee (g : CallGraph) (n : Node) : Nat :=
  ((g.calledFunctions n).map g.total).foldr max 0

/-- Marks `n` as visited and, if it is a function, sets its total and takes over that a callee is
    imprecise. -/
def finish (g : CallGraph) (n : Node) : CallGraph :=
  if n == pointer then g.modify n fun f => { f with visited := true }
  else
    g.modify n fun f =>
      { f with
        visited := true
        total := f.size + g.deepestCallee n
        imprecise := f.imprecise || (g.calledFunctions n).any g.isImprecise }

@[simp] theorem calls_finish (g : CallGraph) (n : Node) : (g.finish n).calls = g.calls := by
  unfold finish
  split <;> rfl

theorem isVisited_finish (g : CallGraph) (n m : Node) (h : g.isVisited m = true) :
    (g.finish n).isVisited m = true := by
  unfold finish
  split
  · exact isVisited_modify _ _ _ _ (fun _ _ => rfl) h
  · exact isVisited_modify _ _ _ _ (fun _ _ => rfl) h

theorem isVisited_finish_self (g : CallGraph) (n : Node) : (g.finish n).isVisited n = true := by
  unfold finish isVisited
  split <;> rw [function?_modify, if_pos rfl] <;> cases g.function? n <;> rfl

end CallGraph

namespace Analysis

/-! ## 2. Findings -/

/-- The chain ends in a function with a frame sized at run time. -/
def foundDynamic (p : Policy) (path : List Node) (n : Node) (a : Analysis) : Analysis :=
  let (warned, events) :=
    p.warning p.warnDynamic a.warned.dynamic (.dynamicIn (a.graph.name n)) .dynamicFound
  { graph := a.graph.markImprecise path
    warned := { a.warned with dynamic := warned }
    log := a.log ++ events.toArray }

/-- The chain ends in a function with an indirect call. -/
def foundPointerCall (p : Policy) (path : List Node) (n : Node) (a : Analysis) : Analysis :=
  let (warned, events) :=
    p.warning p.warnPointer a.warned.pointerCall (.pointerCallIn (a.graph.name n)) .pointerCallFound
  { graph := a.graph.markImprecise path
    warned := { a.warned with pointerCall := warned }
    log := a.log ++ events.toArray }

/-- The last function of the chain is the one at `start`: from there on it is a cycle. -/
def foundCycle (p : Policy) (path : List Node) (start : Nat) (a : Analysis) : Analysis :=
  let names := path.map a.graph.name
  let (warned, events) :=
    p.warning p.warnCycle a.warned.cycle (.cycle (names.drop start)) .cycleFound
  { graph := (a.graph.markImprecise (path.take start)).markCycle (path.drop start).dropLast
    warned := { a.warned with cycle := warned }
    log := a.log ++ (Event.cyclePath names :: events).toArray }

def checkDynamic (p : Policy) (path : List Node) (n : Node) (a : Analysis) : Analysis :=
  if ((a.graph.function? n).map (·.dynamic)).getD false then a.foundDynamic p path n else a

def checkPointerCall (p : Policy) (path : List Node) (n : Node) (a : Analysis) : Analysis :=
  if a.graph.callsPointer n then a.foundPointerCall p path n else a

/-- Whether findings at `n` are reported. -/
def regards (p : Policy) (a : Analysis) (n : Node) : Bool :=
  n != CallGraph.pointer && ((a.graph.function? n).map p.regards).getD false

/-- What is found at `n`, the last node of the chain. -/
def findings (p : Policy) (path : List Node) (n : Node) (a : Analysis) : Analysis :=
  if a.regards p n then (a.checkDynamic p path n).checkPointerCall p path n else a

@[simp] theorem calls_checkDynamic (p : Policy) (path : List Node) (n : Node) (a : Analysis) :
    (a.checkDynamic p path n).graph.calls = a.graph.calls := by
  unfold checkDynamic
  split
  · exact CallGraph.calls_markImprecise _ _
  · rfl

@[simp] theorem calls_checkPointerCall (p : Policy) (path : List Node) (n : Node) (a : Analysis) :
    (a.checkPointerCall p path n).graph.calls = a.graph.calls := by
  unfold checkPointerCall
  split
  · exact CallGraph.calls_markImprecise _ _
  · rfl

@[simp] theorem calls_findings (p : Policy) (path : List Node) (n : Node) (a : Analysis) :
    (a.findings p path n).graph.calls = a.graph.calls := by
  unfold findings
  split
  · simp
  · rfl

theorem isVisited_checkDynamic (p : Policy) (path : List Node) (n m : Node) (a : Analysis)
    (h : a.graph.isVisited m = true) : (a.checkDynamic p path n).graph.isVisited m = true := by
  unfold checkDynamic
  split
  · exact CallGraph.isVisited_markImprecise _ _ _ h
  · exact h

theorem isVisited_checkPointerCall (p : Policy) (path : List Node) (n m : Node) (a : Analysis)
    (h : a.graph.isVisited m = true) : (a.checkPointerCall p path n).graph.isVisited m = true := by
  unfold checkPointerCall
  split
  · exact CallGraph.isVisited_markImprecise _ _ _ h
  · exact h

theorem isVisited_findings (p : Policy) (path : List Node) (n m : Node) (a : Analysis)
    (h : a.graph.isVisited m = true) : (a.findings p path n).graph.isVisited m = true := by
  unfold findings
  split
  · exact isVisited_checkPointerCall _ _ _ _ _ (isVisited_checkDynamic _ _ _ _ _ h)
  · exact h

/-! ## 3. The walk -/

/-- What is done at `n`, the last node of the chain, where `start?` is where the cycle starts that
    it closes. A node that closes a cycle is not finished. -/
def attend (p : Policy) (path : List Node) (start? : Option Nat) (n : Node) (a : Analysis) :
    Analysis :=
  match start? with
  | some start => a.foundCycle p path start
  | none =>
    if a.graph.isVisited n then a
    else
      let a := a.findings p path n
      { a with graph := a.graph.finish n }

/-- What is done where the walk stands. -/
def visit (p : Policy) (w : Walk) (a : Analysis) : Analysis :=
  match w.tail? with
  | none => a
  | some n => a.attend p w.path w.cycleStart? n

@[simp] theorem calls_visit (p : Policy) (w : Walk) (a : Analysis) :
    (a.visit p w).graph.calls = a.graph.calls := by
  unfold visit attend
  split
  · rfl
  · split
    · simp [foundCycle]
    · split
      · rfl
      · simp [calls_findings]

theorem isVisited_visit (p : Policy) (w : Walk) (a : Analysis) (m : Node)
    (h : a.graph.isVisited m = true) : (a.visit p w).graph.isVisited m = true := by
  unfold visit attend
  split
  · exact h
  · split
    · exact CallGraph.isVisited_markCycle _ _ _ (CallGraph.isVisited_markImprecise _ _ _ h)
    · split
      · exact h
      · exact CallGraph.isVisited_finish _ _ _ (isVisited_findings p _ _ _ _ h)

/-- Where the walk stands is visited afterwards, unless it closes a cycle. -/
theorem isVisited_visit_tail (p : Policy) (t : Tier) (outer : List Tier) (r : Bool) (a : Analysis) :
    (a.visit p ⟨t :: outer, r⟩).graph.isVisited t.node = true ∨
      outer.any (·.node == t.node) = true := by
  by_cases hc : outer.any (·.node == t.node) = true
  · exact .inr hc
  · left
    have hs : Walk.cycleStart? ⟨t :: outer, r⟩ = none := if_neg hc
    unfold visit attend
    simp only [Walk.tail?, List.head?_cons, Option.map_some, hs]
    split
    · assumption
    · exact CallGraph.isVisited_finish_self _ _

/-- A visit opens no call. -/
theorem work_visit_down_le (p : Policy) (w : Walk) (a : Analysis) :
    (w.down a.graph).work (a.visit p (w.down a.graph)).graph ≤ w.work a.graph := by
  obtain ⟨tiers, returned⟩ := w
  cases returned with
  | false =>
    refine Nat.le_trans (Nat.add_le_add_right (Walk.openCalls_mono (calls_visit _ _ _) ?_) _)
      (Walk.openCalls_descend_le a.graph tiers)
    intro c hc
    simp only [Walk.isOpen, Bool.and_eq_true, Bool.not_eq_true'] at hc ⊢
    refine ⟨?_, hc.2⟩
    cases hv : a.graph.isVisited c.caller with
    | false => rfl
    | true => rw [isVisited_visit p _ a _ hv] at hc; exact absurd hc.1 (by decide)
  | true =>
    refine Nat.add_le_add_right (Walk.openCalls_mono (calls_visit _ _ _) ?_) _
    intro c hc
    simp only [Walk.down, Walk.taken, Walk.isOpen, Bool.and_eq_true, Bool.not_eq_true',
      Bool.false_eq_true, if_false, if_true] at hc ⊢
    refine ⟨?_, ?_⟩
    · cases hv : a.graph.isVisited c.caller with
      | false => rfl
      | true => rw [isVisited_visit p _ a _ hv] at hc; exact absurd hc.1 (by decide)
    · cases tiers with
      | nil => rfl
      | cons t outer =>
        have ho : outer.any (·.node == c.caller) = false := hc.2
        rw [List.any_cons, ho, Bool.or_false]
        cases ht : t.node == c.caller with
        | false => rfl
        | true =>
          have he : t.node = c.caller := by simpa using ht
          have hv := isVisited_visit_tail p t outer false a
          rw [he, hc.1, ho] at hv
          exact absurd hv (by decide)

/-- Walks on from where `w` stands until every root is done. -/
def walk (p : Policy) (w : Walk) (a : Analysis) : Analysis :=
  if _ : (w.down a.graph).tiers = [] then a
  else walk p ((w.down a.graph).up (a.visit p (w.down a.graph)).graph) (a.visit p (w.down a.graph))
termination_by w.work a.graph
decreasing_by
  rename_i h
  exact Nat.lt_of_lt_of_le (Walk.work_up_lt _ _ (Walk.returned_down _ _) h)
    (work_visit_down_le p w a)

/-- What is done at the top of a trail. -/
def visitTop (p : Policy) (t : Trail) (a : Analysis) : Analysis :=
  match t.tail? with
  | none => a
  | some n => a.attend p t.path.toList t.cycleStart? n

theorem visitTop_eq (p : Policy) (t : Trail) (a : Analysis) :
    a.visitTop p t = a.visit p t.walk := by
  simp only [visitTop, visit, Trail.tail?_walk, Trail.path_walk, Trail.cycleStart?_walk]

/-- Follows a trail until every root is done. -/
def follow (p : Policy) (t : Trail) (a : Analysis) : Analysis :=
  if _ : (t.down a.graph).path.isEmpty then a
  else
    follow p ((t.down a.graph).up (a.visitTop p (t.down a.graph)).graph)
      (a.visitTop p (t.down a.graph))
termination_by t.walk.work a.graph
decreasing_by
  rename_i h
  rw [← Trail.tiers_walk_down_eq_nil_iff] at h
  rw [visitTop_eq, Trail.walk_up, Trail.walk_down]
  exact Nat.lt_of_lt_of_le (Walk.work_up_lt _ _ (Walk.returned_down _ _) h)
    (work_visit_down_le p t.walk a)

/-- **Following a trail is walking on from where its walk stands.** -/
theorem follow_eq_walk (p : Policy) (t : Trail) (a : Analysis) :
    follow p t a = walk p t.walk a := by
  fun_induction follow p t a with
  | case1 t a h => rw [walk, dif_pos (Trail.tiers_walk_down_eq_nil_iff.mpr h)]
  | case2 t a h ih =>
    rw [← Trail.tiers_walk_down_eq_nil_iff] at h
    rw [walk, dif_neg h, ih, visitTop_eq, Trail.walk_up, Trail.walk_down]

end Analysis

/-! ## 4. The verdict -/

structure Verdict where
  /-- No entrance is imprecise. -/
  precise : Bool
  /-- The largest total of all functions. -/
  limit : Nat
  /-- The cycle groups, by address. -/
  cycles : List (List Node)
  deriving DecidableEq, Repr

namespace Analysis

/-- Walks from the entrances, then from each function that no entrance leads to, by address. -/
def walkAll (p : Policy) (g : CallGraph) : Analysis :=
  let a := follow p (Trail.start g.entrances) { graph := g }
  a.graph.functions.foldl
    (fun a n => if a.graph.isVisited n then a else follow p (Trail.start [n]) a) a

theorem walkAll_eq (p : Policy) (g : CallGraph) : walkAll p g =
    (walk p (Walk.start g.entrances) { graph := g }).graph.functions.foldl
      (fun a n => if a.graph.isVisited n then a else walk p (Walk.start [n]) a)
      (walk p (Walk.start g.entrances) { graph := g }) := by
  simp only [walkAll, follow_eq_walk, Trail.walk_start]

end Analysis

/-- Sets the totals and marks of every function: the verdict, the graph and what is logged. -/
def CallGraph.analyse (p : Policy) (g : CallGraph) : Verdict × CallGraph × List Event :=
  let a := Analysis.walkAll p g
  let cycles := a.graph.cycles
  let done := (a.graph.markCycle cycles.flatten).spreadImprecision
  ({ precise := g.entrances.all fun n => !done.isImprecise n
     limit := done.limit
     cycles }, done, a.log.toList)

end StackDepth

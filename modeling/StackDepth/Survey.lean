import StackDepth.Analysis
import StackDepth.Fault
import StackDepth.Ledger
import StackDepth.Listing.Arm
import StackDepth.Listing.Rows

/-!
# Surveys

One run over a listing: its lines are read one after the other into a call graph and a ledger, the
functions that were called but never labelled are dropped, and the stack is measured on what is
left.
-/

namespace StackDepth

open StackDepth.Listing (Dialect)

structure Survey where
  target : Target
  policy : Policy
  graph : CallGraph := CallGraph.empty
  ledger : Ledger := {}
  /-- The cycle groups that the last measurement found. -/
  cycles : List (List Node) := []
  /-- The last measurement found no imprecise entrance. -/
  precise : Bool := true
  file : Option String := none
  sectionName : Option String := none
  /-- The function whose instructions are being read. -/
  current : Option Node := none
  /-- How many lines were read. -/
  lineNumber : Nat := 0

/-- What an operation on a survey answers, leaves behind and logs. -/
structure Outcome (α : Type) where
  result : Except Fault α
  survey : Survey
  log : List Event

namespace Survey

def dialect (s : Survey) : Dialect := Dialect.of s.target

/-! ## 1. Lines -/

/-- The bytes that the log shows for a counted line. -/
def loggedSize (s : Survey) : Line → Option Nat
  | .push size | .decrement size => some size
  | .call _ _ => if s.policy.countReturnAddress then some s.dialect.callSize else none
  | _ => none

/-- Counts the line if it has a mnemonic. -/
def tally (s : Survey) (text : String) (line : Line) : Survey × List Event :=
  match Listing.mnemonic? text.toList with
  | none => (s, [])
  | some name =>
    ({ s with ledger := s.ledger.add name line.impact }, [.counted line (s.loggedSize line) text])

/-- A function is labelled at `address`: it gets the name if it has none of its own, and from here
    on it is current. -/
def enter (s : Survey) (address : Nat) (name : String) : Survey :=
  let (n, graph) := s.graph.addFunction address name
  { s with
    graph := graph.modify n fun f =>
      let f := if f.isUnnamed then f.rename name else f
      { f with file := s.file, sectionName := s.sectionName, visited := true }
    current := some n }

/-- The function `n` takes `size` more bytes of the stack. -/
def grow (s : Survey) (n : Node) (size : Nat) : Survey :=
  { s with graph := s.graph.modify n fun f => { f with size := f.size + size } }

/-- The function `n` calls the one at `address`. -/
def call (s : Survey) (n : Node) (address : Nat) (name : String) : Survey :=
  let (callee, graph) :=
    if name.isEmpty then s.graph.addUnnamed address else s.graph.addFunction address name
  let s := { s with graph := (graph.addCall n callee).2 }
  if s.policy.countReturnAddress then s.grow n s.dialect.callSize else s

/-- Puts a line into effect inside the function `n`. -/
def applyIn (s : Survey) (n : Node) : Line → Survey
  | .push size | .decrement size => s.grow n size
  | .dynamic => { s with graph := s.graph.modify n fun f => { f with dynamic := true } }
  | .call address name => s.call n address name
  | .pointerCall => { s with graph := (s.graph.addCall n CallGraph.pointer).2 }
  | _ => s

/-- Puts a line into effect. -/
def apply (s : Survey) (line : Line) : Survey × List Event :=
  match line with
  | .fileFormat file => ({ s with file := some file, sectionName := none, current := none }, [])
  | .sectionStart name =>
    ({ s with sectionName := some name, current := none }, [.sectionStarted name])
  | .label address name => (s.enter address name, [.functionStarted name])
  | line =>
    match s.current with
    | some n => (s.applyIn n line, [])
    | none => (s, [])

/-- Reads one line. A line that acts on a function where none is current is refused, and nothing but
    the number of lines changes. -/
def readLine (s : Survey) (raw : String) : Outcome Line :=
  let text := Text.dropLineEnd raw
  let s := { s with lineNumber := s.lineNumber + 1 }
  let reading := s.dialect.read text.toList
  let refused := if reading.refused then [Event.decrementRefused text] else []
  if reading.line.needsFunction && s.current.isNone then
    ⟨.error (.outsideFunction s.lineNumber text), s, refused⟩
  else
    let (s, counted) := s.tally text reading.line
    let (s, applied) := s.apply reading.line
    ⟨.ok reading.line, s, refused ++ counted ++ applied⟩

/-! ## 2. Listings -/

/-- Removes a function that was called but never labelled. -/
def dropPhantom (s : Survey) (n : Node) : Survey × List Event :=
  ({ s with graph := (s.graph.remove n).2 },
    (s.graph.callers n).map fun caller =>
      .innerCall (s.graph.name caller) (s.graph.address n) (s.graph.name n))

/-- Removes every function that was called but never labelled, and forgets which were visited. -/
def prune (s : Survey) : Survey × List Event :=
  let phantoms := s.graph.functions.filter fun n => !s.graph.isVisited n
  let (s, log) := phantoms.foldl
    (fun (s, log) n =>
      let (s, events) := s.dropPhantom n
      (s, log ++ events.toArray))
    (s, (#[] : Array Event))
  let graph :=
    s.graph.nodes.foldl (fun g n => g.modify n fun f => { f with visited := false }) s.graph
  ({ s with graph, current := none }, log.toList)

/-- Reads rows until one is refused. -/
def readRows (s : Survey) (log : Array Event) : List (Option String) → Outcome Unit
  | [] => ⟨.ok (), s, log.toList⟩
  | none :: _ => ⟨.error (.unreadable .invalidText), s, log.toList⟩
  | some raw :: rest =>
    let o := s.readLine raw
    match o.result with
    | .error fault => ⟨.error fault, o.survey, (log ++ o.log.toArray).toList⟩
    | .ok _ => readRows o.survey (log ++ o.log.toArray) rest

/-- Reads a whole listing, then prunes. -/
def read (s : Survey) (rows : List (Option String)) : Outcome Unit :=
  let o := s.readRows #[] rows
  match o.result with
  | .error _ => o
  | .ok _ =>
    let (s, log) := o.survey.prune
    ⟨.ok (), s, o.log ++ log ++ [.listingRead s.lineNumber s.graph.size]⟩

/-! ## 3. Measurement -/

/-- Measures the stack. -/
def measure (s : Survey) : Verdict × Survey × List Event :=
  let (verdict, graph, log) := s.graph.analyse s.policy
  (verdict, { s with graph, cycles := verdict.cycles, precise := verdict.precise }, log)

/-- The bound of the whole program. -/
def bound (s : Survey) : Bound := Bound.of s.graph.limit (!s.precise)

/-- Every function, the deepest first and then by address. -/
def deepestFirst (s : Survey) : List Function :=
  (s.graph.functions.filterMap s.graph.function?).mergeSort fun a b => decide (b.total ≤ a.total)

/-- The first function of a name, by address. -/
def named? (s : Survey) (name : String) : Option Function :=
  (s.graph.functions.filterMap s.graph.function?).find? (·.name == name)

end Survey

end StackDepth

import StackDepth.Function

/-!
# Call graphs

Functions and the calls between them. A function lives in a slot, and its node is the number of
that slot; slot 0 is the function pointer, which stands for every target of an indirect call and is
found by no address. A slot that a removed function leaves is the next to be taken, the last freed
first; calls have slots of their own under the same rule.

Calls are kept newest first. What a reader sees of them is in the order in which they were found
(`callees`, `callers`).
-/

namespace StackDepth

/-- A function of a call graph, or its function pointer. -/
abbrev Node := Nat

structure Call where
  slot : Nat
  caller : Node
  callee : Node
  deriving DecidableEq, Repr

structure CallGraph where
  slots : Array (Option Function)
  /-- Free slots, the last freed first. -/
  vacant : List Node := []
  /-- The calls, the newest first. -/
  calls : List Call := []
  /-- Free slots of calls, the last freed first. -/
  vacantCalls : List Nat := []
  deriving DecidableEq, Repr

namespace CallGraph

/-! ## 1. Nodes -/

/-- The function pointer. -/
def pointer : Node := 0

/-- A graph without functions. -/
def empty : CallGraph := { slots := #[some (Function.named 0 "Function Pointer")] }

def function? (g : CallGraph) (n : Node) : Option Function := (g.slots[n]?).getD none

def isLive (g : CallGraph) (n : Node) : Bool := (g.function? n).isSome

def address (g : CallGraph) (n : Node) : Nat := ((g.function? n).map (·.address)).getD 0

def name (g : CallGraph) (n : Node) : String := ((g.function? n).map (·.name)).getD ""

def total (g : CallGraph) (n : Node) : Nat := ((g.function? n).map (·.total)).getD 0

def isImprecise (g : CallGraph) (n : Node) : Bool := ((g.function? n).map (·.imprecise)).getD false

/-- Nothing is left to do at a slot that is free. -/
def isVisited (g : CallGraph) (n : Node) : Bool := ((g.function? n).map (·.visited)).getD true

/-- Every node that is in use, by slot. -/
def nodes (g : CallGraph) : List Node := (List.range g.slots.size).filter g.isLive

/-- Every node but the function pointer, by slot. -/
def functionNodes (g : CallGraph) : List Node :=
  (List.range' 1 (g.slots.size - 1)).filter g.isLive

/-- Every node but the function pointer, by address. -/
def functions (g : CallGraph) : List Node :=
  g.functionNodes.mergeSort fun a b => decide (g.address a ≤ g.address b)

/-- How many functions there are, the function pointer not counted. -/
def size (g : CallGraph) : Nat := g.functionNodes.length

def isEmpty (g : CallGraph) : Bool := g.functionNodes.isEmpty

/-- The function that starts at an address. -/
def find? (g : CallGraph) (address : Nat) : Option Node :=
  (List.range' 1 (g.slots.size - 1)).find? fun n =>
    ((g.function? n).map (·.address)) == some address

/-! ## 2. Calls -/

/-- The callees of `n`, the newest call first. -/
def recentCallees (g : CallGraph) (n : Node) : List Node :=
  (g.calls.filter (·.caller == n)).map (·.callee)

/-- The callees of `n`, in the order in which the calls were found. -/
def callees (g : CallGraph) (n : Node) : List Node := (g.recentCallees n).reverse

/-- The callers of `n`, in the order in which the calls were found. -/
def callers (g : CallGraph) (n : Node) : List Node :=
  ((g.calls.filter (·.callee == n)).map (·.caller)).reverse

def hasCall (g : CallGraph) (caller callee : Node) : Bool :=
  g.calls.any fun c => c.caller == caller && c.callee == callee

def callsPointer (g : CallGraph) (n : Node) : Bool := g.hasCall n pointer

/-- A function that nothing calls. -/
def isEntrance (g : CallGraph) (n : Node) : Bool :=
  n != pointer && g.calls.all fun c => c.callee != n

/-- The functions that nothing calls, by address. -/
def entrances (g : CallGraph) : List Node := g.functions.filter g.isEntrance

/-- The largest total of all functions, 0 without any. -/
def limit (g : CallGraph) : Nat := (g.functionNodes.map g.total).foldr max 0

/-! ## 3. Changes -/

/-- Changes the function of a node; nothing at a free slot. -/
def modify (g : CallGraph) (n : Node) (f : Function → Function) : CallGraph :=
  { g with slots := g.slots.modify n (Option.map f) }

/-- The node of `f`: the one that has its address, else a new one. -/
def insert (g : CallGraph) (f : Function) : Node × CallGraph :=
  match g.find? f.address with
  | some n => (n, g)
  | none =>
    match g.vacant with
    | n :: rest => (n, { g with slots := g.slots.setIfInBounds n (some f), vacant := rest })
    | [] => (g.slots.size, { g with slots := g.slots.push (some f) })

/-- The function at `address`, created under `name` if there is none. -/
def addFunction (g : CallGraph) (address : Nat) (name : String) : Node × CallGraph :=
  g.insert (Function.named address name)

/-- The function at `address`, created without a symbol if there is none. -/
def addUnnamed (g : CallGraph) (address : Nat) : Node × CallGraph :=
  g.insert (Function.unnamed address)

/-- Adds a call unless there is one; whether it was added. -/
def addCall (g : CallGraph) (caller callee : Node) : Bool × CallGraph :=
  if g.hasCall caller callee then (false, g)
  else
    match g.vacantCalls with
    | slot :: rest =>
      (true, { g with calls := ⟨slot, caller, callee⟩ :: g.calls, vacantCalls := rest })
    | [] => (true, { g with calls := ⟨g.calls.length, caller, callee⟩ :: g.calls })

/-- Frees the slot of `n` and of its calls: of those it makes first, then of those it gets, in each
    case the newest first. -/
def free (g : CallGraph) (n : Node) : CallGraph :=
  let made := g.calls.filter (·.caller == n)
  let got := g.calls.filter fun c => c.callee == n && c.caller != n
  { slots := g.slots.setIfInBounds n none
    vacant := n :: g.vacant
    calls := g.calls.filter fun c => c.caller != n && c.callee != n
    vacantCalls := ((made ++ got).map (·.slot)).reverse ++ g.vacantCalls }

/-- Removes a function with its calls; the function pointer stays. -/
def remove (g : CallGraph) (n : Node) : Option Function × CallGraph :=
  if n == pointer then (none, g)
  else
    match g.function? n with
    | some f => (some f, g.free n)
    | none => (none, g)

/-! ## 4. What `modify` does -/

theorem function?_modify (g : CallGraph) (n m : Node) (f : Function → Function) :
    (g.modify n f).function? m = if n = m then (g.function? m).map f else g.function? m := by
  unfold function? modify
  rw [Array.getElem?_modify]
  by_cases h : n = m
  · simp only [h, if_true]
    cases g.slots[m]? with
    | none => rfl
    | some o => rfl
  · simp [h]

@[simp] theorem calls_modify (g : CallGraph) (n : Node) (f : Function → Function) :
    (g.modify n f).calls = g.calls := rfl

theorem isVisited_modify (g : CallGraph) (n m : Node) (f : Function → Function)
    (hf : ∀ x, x.visited = true → (f x).visited = true) (h : g.isVisited m = true) :
    (g.modify n f).isVisited m = true := by
  unfold isVisited at h ⊢
  rw [function?_modify]
  split
  · cases hm : g.function? m with
    | none => rfl
    | some x => simpa using hf x (by simpa [hm] using h)
  · exact h

end CallGraph

end StackDepth

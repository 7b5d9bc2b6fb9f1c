import StackDepth.Proofs.CallGraph.Spreading

/-!
# Graphs that differ in sizes

Two call graphs whose functions have the same slots and the same particulars, but sizes and totals
in the second that are between once and twice those in the first. Nothing else is decided by a
size, so every change that is made to both keeps them so.

* `UpToTwice`: between once and twice; kept by sums and by the largest of several;
* `Function.Widened`, `CallGraph.Widened`: functions and graphs so related;
* `Widened.modify`, `Widened.insert`, `Widened.addCall`, `Widened.remove`: changes while a listing
  is read;
* `Widened.markImprecise`, `Widened.markCycle`, `Widened.finish`, `Widened.spreadImprecision`:
  changes while a graph is analysed.
-/

namespace StackDepth

/-! ## 1. Between once and twice -/

/-- `y` is at least `x` and at most twice `x`. -/
def UpToTwice (x y : Nat) : Prop := x ≤ y ∧ y ≤ 2 * x

namespace UpToTwice

variable {x y u v : Nat}

theorem refl (x : Nat) : UpToTwice x x := ⟨Nat.le_refl x, by omega⟩

theorem double (x : Nat) : UpToTwice x (2 * x) := ⟨by omega, Nat.le_refl _⟩

theorem add (h : UpToTwice x y) (k : UpToTwice u v) : UpToTwice (x + u) (y + v) := by
  obtain ⟨hl, hu⟩ := h
  obtain ⟨kl, ku⟩ := k
  exact ⟨by omega, by omega⟩

theorem max (h : UpToTwice x y) (k : UpToTwice u v) : UpToTwice (Max.max x u) (Max.max y v) := by
  obtain ⟨hl, hu⟩ := h
  obtain ⟨kl, ku⟩ := k
  exact ⟨by omega, by omega⟩

theorem foldr_max {f f' : Node → Nat} (h : ∀ n, UpToTwice (f n) (f' n)) (ns : List Node) :
    UpToTwice ((ns.map f).foldr Max.max 0) ((ns.map f').foldr Max.max 0) := by
  induction ns with
  | nil => exact refl 0
  | cons n ns ih => exact (h n).max ih

end UpToTwice

/-- `f'` is `f` but for its size and its total, which are up to twice as large. -/
structure Function.Widened (f f' : Function) : Prop where
  address : f'.address = f.address
  name : f'.name = f.name
  file : f'.file = f.file
  sectionName : f'.sectionName = f.sectionName
  size : UpToTwice f.size f'.size
  total : UpToTwice f.total f'.total
  dynamic : f'.dynamic = f.dynamic
  imprecise : f'.imprecise = f.imprecise
  cycle : f'.cycle = f.cycle
  visited : f'.visited = f.visited

theorem Function.Widened.refl (f : Function) : f.Widened f :=
  ⟨rfl, rfl, rfl, rfl, .refl _, .refl _, rfl, rfl, rfl, rfl⟩

theorem Function.Widened.regards {f f' : Function} (w : f.Widened f') (p : Policy) :
    p.regards f' = p.regards f := by
  rw [Policy.regards, Policy.regards, w.sectionName, w.name]

namespace CallGraph

variable {g h : CallGraph} {n m : Node}

/-! ## 2. Graphs -/

/-- The same graph but for sizes and totals, which are up to twice as large in the second. -/
structure Widened (g h : CallGraph) : Prop where
  size : h.slots.size = g.slots.size
  vacant : h.vacant = g.vacant
  calls : h.calls = g.calls
  vacantCalls : h.vacantCalls = g.vacantCalls
  function? : ∀ n, Option.Rel Function.Widened (g.function? n) (h.function? n)

namespace Widened

theorem refl (g : CallGraph) : Widened g g where
  size := rfl
  vacant := rfl
  calls := rfl
  vacantCalls := rfl
  function? n := by
    cases g.function? n with
    | none => exact .none
    | some f => exact .some (.refl f)

/-- A slot is free in both graphs, or in use in both. -/
theorem function?_cases (w : Widened g h) (n : Node) :
    (g.function? n = none ∧ h.function? n = none) ∨
      ∃ f f', g.function? n = some f ∧ h.function? n = some f' ∧ f.Widened f' := by
  have hn := w.function? n
  generalize g.function? n = o, h.function? n = o' at hn
  cases hn with
  | none => exact .inl ⟨rfl, rfl⟩
  | some wf => exact .inr ⟨_, _, rfl, rfl, wf⟩

/-- What is the same in each pair of functions is the same in both graphs. -/
theorem map_eq (w : Widened g h) {β : Type} {r : Function → β}
    (hr : ∀ {f f' : Function}, f.Widened f' → r f' = r f) (n : Node) :
    (h.function? n).map r = (g.function? n).map r := by
  rcases w.function?_cases n with ⟨hg, hh⟩ | ⟨f, f', hg, hh, wf⟩
  · rw [hg, hh]
  · rw [hg, hh]
    exact congrArg some (hr wf)

/-- A number that is up to twice as large in each pair of functions. -/
theorem upToTwice_map (w : Widened g h) {r : Function → Nat}
    (hr : ∀ {f f' : Function}, f.Widened f' → UpToTwice (r f) (r f')) (n : Node) :
    UpToTwice (((g.function? n).map r).getD 0) (((h.function? n).map r).getD 0) := by
  rcases w.function?_cases n with ⟨hg, hh⟩ | ⟨f, f', hg, hh, wf⟩
  · rw [hg, hh]
    exact .refl 0
  · rw [hg, hh]
    exact hr wf

theorem isLive (w : Widened g h) : h.isLive = g.isLive := by
  funext n
  rcases w.function?_cases n with ⟨hg, hh⟩ | ⟨f, f', hg, hh, _⟩
  · rw [CallGraph.isLive, CallGraph.isLive, hg, hh]
  · rw [CallGraph.isLive, CallGraph.isLive, hg, hh]
    rfl

theorem address (w : Widened g h) : h.address = g.address :=
  funext fun n => congrArg (Option.getD · 0) (w.map_eq (·.address) n)

theorem name (w : Widened g h) : h.name = g.name :=
  funext fun n => congrArg (Option.getD · "") (w.map_eq (·.name) n)

theorem isVisited (w : Widened g h) : h.isVisited = g.isVisited :=
  funext fun n => congrArg (Option.getD · true) (w.map_eq (·.visited) n)

theorem isImprecise (w : Widened g h) : h.isImprecise = g.isImprecise :=
  funext fun n => congrArg (Option.getD · false) (w.map_eq (·.imprecise) n)

theorem isDynamic (w : Widened g h) : h.isDynamic = g.isDynamic :=
  funext fun n => congrArg (Option.getD · false) (w.map_eq (·.dynamic) n)

theorem isRegarded (w : Widened g h) (p : Policy) : h.isRegarded p = g.isRegarded p :=
  funext fun n => congrArg (Option.getD · false) (w.map_eq (·.regards p) n)

theorem total (w : Widened g h) (n : Node) : UpToTwice (g.total n) (h.total n) :=
  w.upToTwice_map (·.total) n

theorem nodes (w : Widened g h) : h.nodes = g.nodes := by
  rw [CallGraph.nodes, CallGraph.nodes, w.size, w.isLive]

theorem functions (w : Widened g h) : h.functions = g.functions :=
  functions_congr w.size w.isLive w.address

theorem find? (w : Widened g h) : h.find? = g.find? := by
  funext x
  rw [CallGraph.find?, CallGraph.find?, w.size]
  refine congrArg (List.find? · _) (funext fun n => ?_)
  rw [w.map_eq (·.address)]

theorem hasCall (w : Widened g h) : h.hasCall = g.hasCall := by
  funext a b
  rw [CallGraph.hasCall, CallGraph.hasCall, w.calls]

theorem callees (w : Widened g h) : h.callees = g.callees := callees_congr w.calls

theorem callerTable (w : Widened g h) : h.callerTable = g.callerTable :=
  callerTable_congr w.calls w.size

theorem cycles (w : Widened g h) : h.cycles = g.cycles :=
  cycles_congr w.calls w.size w.isLive w.address

theorem limit (w : Widened g h) : UpToTwice g.limit h.limit := by
  rw [CallGraph.limit, CallGraph.limit, functionNodes_congr w.size w.isLive]
  exact .foldr_max w.total _

/-! ## 3. Changes while a listing is read -/

/-- Both functions of a node are changed, so that they stay alike. -/
theorem modify (w : Widened g h) (n : Node) {k k' : Function → Function}
    (hk : ∀ {f f' : Function}, f.Widened f' → (k f).Widened (k' f')) :
    Widened (g.modify n k) (h.modify n k') where
  size := by
    rw [CallGraph.modify, CallGraph.modify, Array.size_modify, Array.size_modify, w.size]
  vacant := w.vacant
  calls := w.calls
  vacantCalls := w.vacantCalls
  function? m := by
    rw [function?_modify, function?_modify]
    split
    · rcases w.function?_cases m with ⟨hg, hh⟩ | ⟨f, f', hg, hh, wf⟩
      · rw [hg, hh]
        exact .none
      · rw [hg, hh]
        exact .some (hk wf)
    · exact w.function? m

/-- One change to many functions. -/
theorem foldl_modify (w : Widened g h) {k : Function → Function}
    (hk : ∀ {f f' : Function}, f.Widened f' → (k f).Widened (k f')) (ns : List Node) :
    Widened (ns.foldl (fun g n => g.modify n k) g) (ns.foldl (fun g n => g.modify n k) h) := by
  induction ns generalizing g h with
  | nil => exact w
  | cons n ns ih => exact ih (w.modify n hk)

/-- A slot takes the same function in both graphs. -/
theorem setIfInBounds (w : Widened g h) (n : Node) (o : Option Function) (rest : List Node) :
    Widened { g with slots := g.slots.setIfInBounds n o, vacant := rest }
      { h with slots := h.slots.setIfInBounds n o, vacant := rest } where
  size := by
    rw [Array.size_setIfInBounds, Array.size_setIfInBounds, w.size]
  vacant := rfl
  calls := w.calls
  vacantCalls := w.vacantCalls
  function? m := by
    rw [CallGraph.function?, CallGraph.function?, Array.getElem?_setIfInBounds,
      Array.getElem?_setIfInBounds, w.size]
    split
    · split
      · cases o with
        | none => exact .none
        | some f => exact .some (.refl f)
      · exact .none
    · exact w.function? m

/-- A slot is added with the same function in both graphs. -/
theorem push (w : Widened g h) (f : Function) (vacant : List Node) :
    Widened { g with slots := g.slots.push (some f), vacant }
      { h with slots := h.slots.push (some f), vacant } where
  size := by
    rw [Array.size_push, Array.size_push, w.size]
  vacant := rfl
  calls := w.calls
  vacantCalls := w.vacantCalls
  function? m := by
    rw [CallGraph.function?, CallGraph.function?, Array.getElem?_push, Array.getElem?_push, w.size]
    split
    · exact .some (.refl f)
    · exact w.function? m

/-- The same function is found or entered in both graphs, at the same node. -/
theorem insert (w : Widened g h) (f : Function) :
    (h.insert f).1 = (g.insert f).1 ∧ Widened (g.insert f).2 (h.insert f).2 := by
  unfold CallGraph.insert
  rw [w.find?, w.vacant]
  cases g.find? f.address with
  | some n => exact ⟨rfl, w⟩
  | none =>
    cases g.vacant with
    | nil => exact ⟨w.size, w.push f []⟩
    | cons n rest => exact ⟨rfl, w.setIfInBounds n (some f) rest⟩

theorem addCall (w : Widened g h) (a b : Node) : Widened (g.addCall a b).2 (h.addCall a b).2 := by
  unfold CallGraph.addCall
  rw [w.hasCall, w.vacantCalls, w.calls]
  split
  · exact w
  · split
    · exact ⟨w.size, w.vacant, rfl, rfl, w.function?⟩
    · exact ⟨w.size, w.vacant, rfl, rfl, w.function?⟩

theorem free (w : Widened g h) (n : Node) : Widened (g.free n) (h.free n) := by
  unfold CallGraph.free
  dsimp only
  rw [w.calls, w.vacant, w.vacantCalls]
  exact { w.setIfInBounds n none (n :: g.vacant) with calls := rfl, vacantCalls := rfl }

theorem remove (w : Widened g h) (n : Node) : Widened (g.remove n).2 (h.remove n).2 := by
  unfold CallGraph.remove
  split
  · exact w
  · rcases w.function?_cases n with ⟨hg, hh⟩ | ⟨f, f', hg, hh, _⟩
    · rw [hg, hh]
      exact w
    · rw [hg, hh]
      exact w.free n

theorem foldl_remove (w : Widened g h) (ns : List Node) :
    Widened (ns.foldl (fun g n => (g.remove n).2) g) (ns.foldl (fun g n => (g.remove n).2) h) := by
  induction ns generalizing g h with
  | nil => exact w
  | cons n ns ih => exact ih (w.remove n)

/-! ## 4. Changes while a graph is analysed -/

theorem markImprecise (w : Widened g h) (ns : List Node) :
    Widened (g.markImprecise ns) (h.markImprecise ns) := by
  refine w.foldl_modify (fun {f f'} wf => ?_) ns
  exact { wf with imprecise := rfl }

theorem markCycle (w : Widened g h) (ns : List Node) :
    Widened (g.markCycle ns) (h.markCycle ns) := by
  refine w.foldl_modify (fun {f f'} wf => ?_) ns
  exact { wf with imprecise := rfl, cycle := rfl }

theorem calledFunctions (w : Widened g h) : h.calledFunctions = g.calledFunctions := by
  funext n
  rw [CallGraph.calledFunctions, CallGraph.calledFunctions, w.callees]

theorem deepestCallee (w : Widened g h) (n : Node) :
    UpToTwice (g.deepestCallee n) (h.deepestCallee n) := by
  rw [CallGraph.deepestCallee, CallGraph.deepestCallee, w.calledFunctions]
  exact .foldr_max w.total _

/-- **Finishing a node.** Its total is a sum of two numbers that are up to twice as large. -/
theorem finish (w : Widened g h) (n : Node) : Widened (g.finish n) (h.finish n) := by
  unfold CallGraph.finish
  split
  · exact w.modify n fun wf => { wf with visited := rfl }
  · refine w.modify n fun wf => { wf with visited := rfl, total := ?_, imprecise := ?_ }
    · exact wf.size.add (w.deepestCallee n)
    · dsimp only
      rw [wf.imprecise, w.calledFunctions, w.isImprecise]

theorem isPrecise (w : Widened g h) : h.isPrecise = g.isPrecise := by
  funext n
  rw [isPrecise_eq, isPrecise_eq, w.isLive, w.isImprecise]

/-- The same nodes are marked in both graphs, turn by turn. -/
theorem spreadFrom (callers : Array (List Node)) (queue : List Node) :
    ∀ h, Widened g h → Widened (spreadFrom callers queue g) (spreadFrom callers queue h) := by
  fun_induction CallGraph.spreadFrom callers queue g with
  | case1 g =>
    intro h w
    rw [CallGraph.spreadFrom]
    exact w
  | case2 n queue g found ih =>
    intro h w
    rw [CallGraph.spreadFrom, w.isPrecise]
    exact ih _ (w.markImprecise found)

theorem spreadImprecision (w : Widened g h) :
    Widened g.spreadImprecision h.spreadImprecision := by
  unfold CallGraph.spreadImprecision
  rw [w.callerTable, w.functions, w.isImprecise]
  exact spreadFrom _ _ h w

end Widened

end CallGraph

end StackDepth

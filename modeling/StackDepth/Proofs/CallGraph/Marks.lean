import StackDepth.Analysis
import StackDepth.Proofs.CallGraph.Cycles

/-!
# Totals and marks

The analysis writes totals and marks into the functions of a graph and nothing else.

* `Agrees`: two graphs that differ in totals and marks only; they have the same functions, calls,
  entrances and cycle groups;
* `markImprecise`, `markCycle` and `finish`: what each writes, one lemma for each field;
* `markImprecise_congr`: which nodes are imprecise in the end decides the whole graph.
-/

namespace StackDepth

/-- What a function has before any analysis. -/
def Function.unmarked (f : Function) : Function :=
  { f with total := 0, imprecise := false, cycle := false, visited := false }

namespace CallGraph

variable {g h k : CallGraph} {n m : Node}

/-! ## 1. Fields -/

/-- The bytes of `n` itself, without its callees. -/
def ownSize (g : CallGraph) (n : Node) : Nat := ((g.function? n).map (·.size)).getD 0

def isDynamic (g : CallGraph) (n : Node) : Bool := ((g.function? n).map (·.dynamic)).getD false

def isCycle (g : CallGraph) (n : Node) : Bool := ((g.function? n).map (·.cycle)).getD false

/-- Whether the policy regards the function of `n`. -/
def isRegarded (p : Policy) (g : CallGraph) (n : Node) : Bool :=
  ((g.function? n).map p.regards).getD false

/-- A node that is not visited is in use. -/
theorem isLive_of_not_visited (hv : g.isVisited n = false) : g.isLive n = true := by
  rw [isVisited] at hv
  rw [isLive]
  cases hf : g.function? n with
  | none => rw [hf] at hv; cases hv
  | some f => rfl

/-! ### What the lists of a graph depend on -/

theorem callees_congr (hc : h.calls = g.calls) : h.callees = g.callees := by
  funext n
  rw [callees, callees, recentCallees, recentCallees, hc]

theorem callers_congr (hc : h.calls = g.calls) : h.callers = g.callers := by
  funext n
  rw [callers, callers, hc]

theorem functionNodes_congr (hs : h.slots.size = g.slots.size) (hl : h.isLive = g.isLive) :
    h.functionNodes = g.functionNodes := by
  rw [functionNodes, functionNodes, hs, hl]

theorem functions_congr (hs : h.slots.size = g.slots.size) (hl : h.isLive = g.isLive)
    (ha : h.address = g.address) : h.functions = g.functions := by
  rw [functions, functions, functionNodes_congr hs hl, ha]

theorem calleeTable_congr (hc : h.calls = g.calls) (hs : h.slots.size = g.slots.size) :
    h.calleeTable = g.calleeTable := by
  rw [calleeTable, calleeTable, callees_congr hc, hs]

theorem callerTable_congr (hc : h.calls = g.calls) (hs : h.slots.size = g.slots.size) :
    h.callerTable = g.callerTable := by
  rw [callerTable, callerTable, callers_congr hc, hs]

theorem ranked_congr (hs : h.slots.size = g.slots.size) (hl : h.isLive = g.isLive)
    (ha : h.address = g.address) : h.ranked = g.ranked := by
  funext ahead
  rw [ranked, ranked, functions_congr hs hl ha, hl]

theorem cycles_congr (hc : h.calls = g.calls) (hs : h.slots.size = g.slots.size)
    (hl : h.isLive = g.isLive) (ha : h.address = g.address) : h.cycles = g.cycles := by
  have hbelow : h.belowPointer = g.belowPointer := by
    funext n
    rw [belowPointer, belowPointer, ha]
  have hbefore : h.beforePointer = g.beforePointer := by
    funext toPointer n
    rw [beforePointer, beforePointer, hbelow, ha]
  rw [cycles, cycles, calleeTable_congr hc hs, callerTable_congr hc hs, ranked_congr hs hl ha,
    hbelow, hbefore]

/-! ## 2. Graphs that differ in totals and marks -/

structure Agrees (g h : CallGraph) : Prop where
  size : h.slots.size = g.slots.size
  vacant : h.vacant = g.vacant
  calls : h.calls = g.calls
  function? : ∀ n, (h.function? n).map Function.unmarked = (g.function? n).map Function.unmarked

namespace Agrees

theorem refl (g : CallGraph) : Agrees g g := ⟨rfl, rfl, rfl, fun _ => rfl⟩

theorem trans (e : Agrees g h) (e' : Agrees h k) : Agrees g k :=
  ⟨e'.size.trans e.size, e'.vacant.trans e.vacant, e'.calls.trans e.calls,
    fun n => (e'.function? n).trans (e.function? n)⟩

/-- What can be read off the function before the analysis is the same. -/
theorem map_eq (e : Agrees g h) {β : Type} {r : Function → β} (hr : ∀ f, r f.unmarked = r f)
    (n : Node) : (h.function? n).map r = (g.function? n).map r := by
  have hmap : ∀ o : Option Function, o.map r = (o.map Function.unmarked).map r := by
    intro o
    rw [Option.map_map]
    exact congrArg (Option.map · o) (funext fun f => (hr f).symm)
  rw [hmap, e.function?, ← hmap]

theorem isLive (e : Agrees g h) (n : Node) : h.isLive n = g.isLive n := by
  have hsome := congrArg Option.isSome (e.function? n)
  rw [Option.isSome_map, Option.isSome_map] at hsome
  exact hsome

theorem address (e : Agrees g h) : h.address = g.address :=
  funext fun n => congrArg (Option.getD · 0) (e.map_eq (fun _ => rfl) n)

theorem ownSize (e : Agrees g h) (n : Node) : h.ownSize n = g.ownSize n :=
  congrArg (Option.getD · 0) (e.map_eq (fun _ => rfl) n)

theorem isDynamic (e : Agrees g h) (n : Node) : h.isDynamic n = g.isDynamic n :=
  congrArg (Option.getD · false) (e.map_eq (fun _ => rfl) n)

theorem isRegarded (e : Agrees g h) (p : Policy) (n : Node) :
    h.isRegarded p n = g.isRegarded p n :=
  congrArg (Option.getD · false) (e.map_eq (fun _ => rfl) n)

theorem calls_eq (e : Agrees g h) : h.Calls = g.Calls := by
  funext a b
  rw [Calls, Calls, e.calls]

theorem reaches (e : Agrees g h) : h.Reaches = g.Reaches :=
  congrArg Relation.ReflTransGen e.calls_eq

theorem callers (e : Agrees g h) : h.callers = g.callers := callers_congr e.calls

theorem callees (e : Agrees g h) : h.callees = g.callees := callees_congr e.calls

theorem functionNodes (e : Agrees g h) : h.functionNodes = g.functionNodes :=
  functionNodes_congr e.size (funext e.isLive)

theorem functions (e : Agrees g h) : h.functions = g.functions :=
  functions_congr e.size (funext e.isLive) e.address

theorem callerTable (e : Agrees g h) : h.callerTable = g.callerTable :=
  callerTable_congr e.calls e.size

theorem cycles (e : Agrees g h) : h.cycles = g.cycles :=
  cycles_congr e.calls e.size (funext e.isLive) e.address

theorem wellFormed (e : Agrees g h) (hg : g.WellFormed) : h.WellFormed :=
  hg.congr e.isLive (fun m => congrFun e.address m) (fun hab => hg.callsLive (e.calls_eq ▸ hab))
    e.vacant e.size

end Agrees

/-- Changing totals and marks of a function. -/
theorem agrees_modify {f : Function → Function} (hf : ∀ x, (f x).unmarked = x.unmarked) :
    Agrees g (g.modify n f) where
  size := Array.size_modify ..
  vacant := rfl
  calls := rfl
  function? m := by
    rw [function?_modify]
    split
    · rw [Option.map_map]
      exact congrArg (Option.map · (g.function? m)) (funext hf)
    · rfl

/-! ## 3. One change to many functions -/

section ModifyAll

variable {f : Function → Function} {ns : List Node}

theorem agrees_foldl_modify (hf : ∀ x, (f x).unmarked = x.unmarked) :
    Agrees g (ns.foldl (fun g n => g.modify n f) g) := by
  induction ns generalizing g with
  | nil => exact .refl g
  | cons n ns ih => exact (agrees_modify hf).trans ih

/-- A field that the change leaves alone. -/
theorem map_foldl_modify {β : Type} {r : Function → β} (hr : ∀ x, r (f x) = r x) :
    ((ns.foldl (fun g n => g.modify n f) g).function? m).map r = (g.function? m).map r := by
  induction ns generalizing g with
  | nil => rfl
  | cons n ns ih =>
    rw [List.foldl_cons, ih, function?_modify]
    split
    · rw [Option.map_map]
      exact congrArg (Option.map · (g.function? m)) (funext hr)
    · rfl

theorem function?_foldl_modify (hf : ∀ x, f (f x) = f x) :
    (ns.foldl (fun g n => g.modify n f) g).function? m =
      if m ∈ ns then (g.function? m).map f else g.function? m := by
  induction ns generalizing g with
  | nil => rw [List.foldl_nil, if_neg List.not_mem_nil]
  | cons n ns ih =>
    rw [List.foldl_cons, ih, function?_modify]
    by_cases hm : m ∈ ns
    · rw [if_pos hm, if_pos (List.mem_cons_of_mem n hm)]
      split
      · rw [Option.map_map]
        exact congrArg (Option.map · (g.function? m)) (funext hf)
      · rfl
    · rw [if_neg hm]
      by_cases e : n = m
      · rw [if_pos e, if_pos (e ▸ List.mem_cons_self)]
      · rw [if_neg e, if_neg fun h => (List.mem_cons.mp h).elim (fun e' => e e'.symm) hm]

/-- A mark that the change sets. -/
theorem mark_foldl_modify (hf : ∀ x, f (f x) = f x) {r : Function → Bool}
    (hr : ∀ x, r (f x) = true) :
    (((ns.foldl (fun g n => g.modify n f) g).function? m).map r).getD false = true ↔
      ((g.function? m).map r).getD false = true ∨ (m ∈ ns ∧ g.isLive m = true) := by
  rw [function?_foldl_modify hf, isLive]
  cases g.function? m with
  | none =>
    split <;> simp
  | some x =>
    split
    · rename_i hm
      exact iff_of_true (hr x) (.inr ⟨hm, rfl⟩)
    · rename_i hm
      exact ⟨.inl, fun h' => h'.resolve_right fun h'' => hm h''.1⟩

end ModifyAll

/-! ## 4. The marks -/

theorem agrees_markImprecise (ns : List Node) : Agrees g (g.markImprecise ns) :=
  agrees_foldl_modify fun _ => rfl

theorem agrees_markCycle (ns : List Node) : Agrees g (g.markCycle ns) :=
  agrees_foldl_modify fun _ => rfl

section Marks

variable (g) (ns : List Node) (m : Node)

theorem isImprecise_markImprecise : (g.markImprecise ns).isImprecise m = true ↔
    g.isImprecise m = true ∨ (m ∈ ns ∧ g.isLive m = true) := by
  unfold isImprecise markImprecise
  refine mark_foldl_modify ?_ ?_
  · exact fun _ => rfl
  · exact fun _ => rfl

theorem isImprecise_markCycle : (g.markCycle ns).isImprecise m = true ↔
    g.isImprecise m = true ∨ (m ∈ ns ∧ g.isLive m = true) := by
  unfold isImprecise markCycle
  refine mark_foldl_modify ?_ ?_
  · exact fun _ => rfl
  · exact fun _ => rfl

theorem isCycle_markCycle : (g.markCycle ns).isCycle m = true ↔
    g.isCycle m = true ∨ (m ∈ ns ∧ g.isLive m = true) := by
  unfold isCycle markCycle
  refine mark_foldl_modify ?_ ?_
  · exact fun _ => rfl
  · exact fun _ => rfl

@[simp] theorem isCycle_markImprecise : (g.markImprecise ns).isCycle m = g.isCycle m :=
  congrArg (Option.getD · false) (map_foldl_modify fun _ => rfl)

@[simp] theorem total_markImprecise : (g.markImprecise ns).total m = g.total m :=
  congrArg (Option.getD · 0) (map_foldl_modify fun _ => rfl)

@[simp] theorem total_markCycle : (g.markCycle ns).total m = g.total m :=
  congrArg (Option.getD · 0) (map_foldl_modify fun _ => rfl)

@[simp] theorem isVisited_markImprecise_eq : (g.markImprecise ns).isVisited m = g.isVisited m :=
  congrArg (Option.getD · true) (map_foldl_modify fun _ => rfl)

@[simp] theorem isVisited_markCycle_eq : (g.markCycle ns).isVisited m = g.isVisited m :=
  congrArg (Option.getD · true) (map_foldl_modify fun _ => rfl)

end Marks

theorem getElem?_slots (h : n < g.slots.size) : g.slots[n]? = some (g.function? n) := by
  rw [function?, Array.getElem?_eq_getElem h]
  rfl

theorem markImprecise_eq (g : CallGraph) (ns : List Node) :
    g.markImprecise ns = { g with slots := (g.markImprecise ns).slots } := by
  unfold markImprecise
  induction ns generalizing g with
  | nil => rfl
  | cons n ns ih => exact ih _

theorem function?_markImprecise (g : CallGraph) (ns : List Node) (m : Node) :
    (g.markImprecise ns).function? m =
      if m ∈ ns then (g.function? m).map fun f => { f with imprecise := true }
      else g.function? m :=
  function?_foldl_modify fun _ => rfl

/-- Two markings are the same if the same nodes are imprecise after them. -/
theorem markImprecise_congr {ns ms : List Node} (h : ∀ m,
    (g.markImprecise ns).isImprecise m = true ↔ (g.markImprecise ms).isImprecise m = true) :
    g.markImprecise ns = g.markImprecise ms := by
  have hfunction : ∀ m, (g.markImprecise ns).function? m = (g.markImprecise ms).function? m := by
    intro m
    have hm := h m
    rw [isImprecise_markImprecise, isImprecise_markImprecise, isImprecise, isLive] at hm
    rw [function?_markImprecise, function?_markImprecise]
    cases hf : g.function? m with
    | none => rw [Option.map_none, ite_self, ite_self]
    | some f =>
      cases hi : f.imprecise with
      | true =>
        have hself : ({ f with imprecise := true } : Function) = f := by rw [← hi]
        rw [Option.map_some, hself, ite_self, ite_self]
      | false =>
        simp only [hf, Option.map_some, hi, Option.getD_some, Option.isSome_some,
          Bool.false_eq_true, false_or, and_true] at hm
        simp only [hm]
  have hsize : (g.markImprecise ns).slots.size = (g.markImprecise ms).slots.size :=
    (size_markImprecise g ns).trans (size_markImprecise g ms).symm
  rw [markImprecise_eq g ns, markImprecise_eq g ms]
  refine congrArg (fun slots => { g with slots }) (Array.ext_getElem? fun m => ?_)
  by_cases hm : m < (g.markImprecise ns).slots.size
  · rw [getElem?_slots hm, getElem?_slots (hsize ▸ hm), hfunction]
  · rw [Array.getElem?_eq_none (Nat.le_of_not_lt hm),
      Array.getElem?_eq_none (hsize ▸ Nat.le_of_not_lt hm)]

/-! ## 5. Finishing a node -/

theorem agrees_finish (n : Node) : Agrees g (g.finish n) := by
  unfold finish
  split
  · exact agrees_modify fun _ => rfl
  · exact agrees_modify fun _ => rfl

theorem function?_finish_of_ne (hm : m ≠ n) : (g.finish n).function? m = g.function? m := by
  unfold finish
  split <;> rw [function?_modify, if_neg (Ne.symm hm)]

/-- What a function has once it is finished. -/
theorem function?_finish_self (hn : n ≠ pointer) :
    (g.finish n).function? n = (g.function? n).map fun f =>
      { f with
        visited := true
        total := f.size + g.deepestCallee n
        imprecise := f.imprecise || (g.calledFunctions n).any g.isImprecise } := by
  unfold finish
  rw [if_neg fun e => hn (beq_iff_eq.mp e), function?_modify, if_pos rfl]

theorem isVisited_finish_iff :
    (g.finish n).isVisited m = true ↔ g.isVisited m = true ∨ m = n := by
  by_cases e : m = n
  · rw [e]
    exact iff_of_true (isVisited_finish_self g n) (.inr rfl)
  · rw [isVisited, function?_finish_of_ne e, isVisited]
    exact (or_iff_left e).symm

theorem total_finish_of_ne (hm : m ≠ n) : (g.finish n).total m = g.total m := by
  rw [total, function?_finish_of_ne hm, total]

theorem total_finish_self (hn : n ≠ pointer) (hl : g.isLive n = true) :
    (g.finish n).total n = g.ownSize n + g.deepestCallee n := by
  obtain ⟨f, hf⟩ := isLive_iff.mp hl
  rw [total, function?_finish_self hn, ownSize, hf]
  rfl

theorem isCycle_finish : (g.finish n).isCycle m = g.isCycle m := by
  have hmap : ((g.finish n).function? m).map (·.cycle) = (g.function? m).map (·.cycle) := by
    unfold finish
    split <;> rw [function?_modify] <;> split
    · rw [Option.map_map]
      rfl
    · rfl
    · rw [Option.map_map]
      rfl
    · rfl
  exact congrArg (Option.getD · false) hmap

/-- A finished function is imprecise if it was or if one of its callees is. -/
theorem isImprecise_finish (hm : m ≠ pointer) :
    (g.finish n).isImprecise m = true ↔ g.isImprecise m = true ∨
      (m = n ∧ g.isLive n = true ∧ ∃ c ∈ g.calledFunctions n, g.isImprecise c = true) := by
  by_cases e : m = n
  · subst e
    rw [isImprecise, function?_finish_self hm, isImprecise, isLive]
    cases g.function? m with
    | none => simp
    | some f => simp
  · rw [isImprecise, function?_finish_of_ne e, isImprecise]
    exact (or_iff_left fun h => e h.1).symm

theorem mem_calledFunctions {c : Node} : c ∈ g.calledFunctions n ↔ g.Calls n c ∧ c ≠ pointer := by
  rw [calledFunctions, List.mem_filter, mem_callees, bne_iff_ne]

end CallGraph

end StackDepth

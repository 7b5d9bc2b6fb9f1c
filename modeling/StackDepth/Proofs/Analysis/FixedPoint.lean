import StackDepth.Proofs.Analysis.Imprecision
import StackDepth.Proofs.Analysis.Recursion
import StackDepth.Proofs.Analysis.Simulation
import StackDepth.Proofs.Analysis.Turns

/-!
# Analysing once more

The analysis works in passes: it walks, it marks the cycle groups, and it spreads what is imprecise
along the calls. Whatever marks and totals a graph has before, afterwards no pass has anything left
to do.

* `walkAll_of_visited`, `markCycle_of_marked`: when a walk and the marking change nothing;
* `AtRest`: the graphs on which none of them does; `analyse_of_atRest`: the analysis of such a graph
  gives the graph back and logs nothing;
* `atRest_analyse`: what an analysis leaves is such a graph;
* `analyse_analyse`: so a second analysis finds what the first one left.
-/

namespace StackDepth

/-! ## 1. Walks where all is visited -/

namespace Analysis

variable {p : Policy} {a : Analysis} {roots : List Node}

/-- Roots that are visited are passed over. -/
theorem walk_of_visited (h : ∀ r ∈ roots, a.graph.isVisited r = true) :
    walk p (Walk.start roots) a = a := by
  cases roots with
  | nil => exact walk_nil false
  | cons r rest =>
    have hr : a.graph.isVisited r = true := h r List.mem_cons_self
    have hdown : Walk.down a.graph (Walk.start (r :: rest)) = ⟨⟨r, rest⟩ :: [], false⟩ :=
      down_of_visited hr
    have hrest : rest.dropWhile a.graph.isVisited = [] :=
      List.dropWhile_eq_nil_iff.mpr fun m hm => h m (List.mem_cons_of_mem r hm)
    have hup : Walk.up a.graph ⟨⟨r, rest⟩ :: [], false⟩ = ⟨[], false⟩ := by
      simp only [Walk.up, hrest]
      rfl
    rw [walk_turn hdown, visit_of_visited List.not_mem_nil hr, hup, walk_nil]

/-- **Where every function is visited, no walk does anything.** -/
theorem walkAll_of_visited {g : CallGraph} (h : ∀ n ∈ g.functions, g.isVisited n = true) :
    walkAll p g = { graph := g } := by
  have hentrances : walk p (Walk.start g.entrances) { graph := g } = { graph := g } :=
    walk_of_visited fun r hr => h r (CallGraph.mem_entrances.mp hr).1
  have hrest : ∀ ns : List Node, (∀ n ∈ ns, g.isVisited n = true) →
      ns.foldl (fun a n => if a.graph.isVisited n then a else walk p (Walk.start [n]) a)
        ({ graph := g } : Analysis) = { graph := g } := by
    intro ns hns
    induction ns with
    | nil => rfl
    | cons n ns ih =>
      rw [List.foldl_cons, if_pos (hns n List.mem_cons_self)]
      exact ih fun m hm => hns m (List.mem_cons_of_mem n hm)
  rw [walkAll_eq, hentrances]
  exact hrest _ h

end Analysis

namespace CallGraph

variable {g : CallGraph} {n : Node} {ns : List Node}

/-! ## 2. Marks that are set -/

/-- A change that leaves the function of a node as it is. -/
theorem modify_eq_self {k : Function → Function} (h : ∀ f, g.function? n = some f → k f = f) :
    g.modify n k = g := by
  have hslots : g.slots.modify n (Option.map k) = g.slots := by
    refine Array.ext_getElem? fun m => ?_
    rw [Array.getElem?_modify]
    split
    · rename_i e
      subst e
      cases ho : g.slots[n]? with
      | none => rfl
      | some o =>
        cases o with
        | none => rfl
        | some f =>
          have hf : g.function? n = some f := by rw [function?, ho]; rfl
          rw [Option.map_some, Option.map_some, h f hf]
    · rfl
  rw [modify, hslots]

theorem foldl_modify_eq_self {k : Function → Function}
    (h : ∀ n ∈ ns, ∀ f, g.function? n = some f → k f = f) :
    ns.foldl (fun g n => g.modify n k) g = g := by
  induction ns with
  | nil => rfl
  | cons n ns ih =>
    rw [List.foldl_cons, modify_eq_self (h n List.mem_cons_self)]
    exact ih fun m hm => h m (List.mem_cons_of_mem n hm)

theorem markCycle_of_marked (h : ∀ n ∈ ns, g.isImprecise n = true ∧ g.isCycle n = true) :
    g.markCycle ns = g := by
  refine foldl_modify_eq_self fun n hn f hf => ?_
  obtain ⟨hi, hc⟩ := h n hn
  rw [isImprecise, hf] at hi
  rw [isCycle, hf] at hc
  show { f with imprecise := true, cycle := true } = f
  obtain ⟨_, _, _, _, _, _, _, imprecise, cycle, _⟩ := f
  have hi' : imprecise = true := hi
  have hc' : cycle = true := hc
  rw [hi', hc']

/-! ## 3. Graphs at rest -/

/-- No pass of an analysis has anything to do. -/
structure AtRest (g : CallGraph) : Prop where
  visited : ∀ n ∈ g.functions, g.isVisited n = true
  marked : ∀ n ∈ g.cycles.flatten, g.isImprecise n = true ∧ g.isCycle n = true
  spread : g.spreadImprecision = g

/-- **The analysis of a graph at rest gives it back and logs nothing.** Its verdict is read off what
    the graph has. -/
theorem analyse_of_atRest (hg : g.AtRest) (p : Policy) : g.analyse p =
    ({ precise := g.entrances.all fun n => !g.isImprecise n, limit := g.limit, cycles := g.cycles },
      g, []) := by
  unfold analyse
  rw [Analysis.walkAll_of_visited hg.visited]
  dsimp only
  rw [markCycle_of_marked hg.marked, hg.spread]

/-- **What an analysis leaves is at rest**, whatever marks and totals the graph had before. -/
theorem atRest_analyse (p : Policy) (g : CallGraph) : (g.analyse p).2.1.AtRest where
  visited n hn := by
    rw [(agrees_analyse p g).functions] at hn
    exact (isVisited_analyse p g n).trans ((Analysis.walkAll_run p g).2 n hn)
  marked n hn := by
    have hlive : (Analysis.walkAll p g).graph.isLive n = true := by
      rw [(Analysis.agrees_walkAll p g).isLive, ← (agrees_analyse p g).isLive]
      exact isLive_of_mem_cycles hn
    rw [(agrees_analyse p g).cycles, ← (Analysis.agrees_walkAll p g).cycles] at hn
    rw [analyse_graph, isCycle_spreadImprecision, walked]
    refine ⟨isImprecise_spreadFrom_of_isImprecise ?_, ?_⟩
    · rw [isImprecise_markCycle]
      exact .inr ⟨hn, hlive⟩
    · rw [isCycle_markCycle]
      exact .inr ⟨hn, hlive⟩
  spread := by
    rw [analyse_graph]
    exact spreadImprecision_spreadImprecision _

/-- **A second analysis finds what the first one left.** Whatever marks and totals a graph has, and
    under whatever policies the two are made: the second one leaves the graph exactly as it is,
    gives the verdict of the first, and logs nothing. -/
theorem analyse_analyse (p q : Policy) (g : CallGraph) :
    ((g.analyse p).2.1.analyse q).2.1 = (g.analyse p).2.1 ∧
      ((g.analyse p).2.1.analyse q).1 = (g.analyse p).1 ∧
      ((g.analyse p).2.1.analyse q).2.2 = [] := by
  have e := agrees_analyse p g
  have hcycles : (g.analyse p).1.cycles = (g.analyse p).2.1.cycles :=
    (Analysis.agrees_walkAll p g).cycles.trans e.cycles.symm
  have hentrances : (g.analyse p).2.1.entrances = g.entrances :=
    entrances_congr e.functions e.calls
  rw [analyse_of_atRest (atRest_analyse p g) q]
  refine ⟨rfl, ?_, rfl⟩
  dsimp only
  rw [hentrances, ← hcycles]
  rfl

end CallGraph

end StackDepth

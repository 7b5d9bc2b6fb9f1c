import StackDepth.Proofs.Analysis.Imprecision

/-!
# The cycles that are reported

The verdict lists the cycle groups of the graph, and a function is marked as lying on a cycle
exactly if it is in one of them.

* `IsCycleReport`: what a list of cycle groups has to be;
* `recursive_of_run`: the walk marks recursive functions only, since the part of the chain that it
  marks is closed by a call;
* `cycle_report_exact`: the verdict's list and the marks.
-/

namespace StackDepth

open Relation (ReflTransGen TransGen)

/-- The list of the largest sets of functions that all lead to each other, with a call inside. -/
structure CallGraph.IsCycleReport (g : CallGraph) (cycles : List (List Node)) : Prop where
  groups : ∀ ns, ns ∈ cycles ↔ Maximal g.MutuallyReachable {n | n ∈ ns} ∧
    (∃ a ∈ ns, ∃ b ∈ ns, g.Calls a b) ∧ ns.Pairwise fun a b => g.address a < g.address b
  /-- A call inside means two functions, or one that calls itself. -/
  groupsBySize : ∀ ns, ns ∈ cycles ↔ Maximal g.MutuallyReachable {n | n ∈ ns} ∧
    (2 ≤ ns.length ∨ ∃ n, ns = [n] ∧ g.Calls n n) ∧
      ns.Pairwise fun a b => g.address a < g.address b
  nodup : ∀ ns ∈ cycles, ns.Nodup
  disjoint : cycles.Pairwise List.Disjoint
  /-- The groups are ordered by their first function. -/
  sorted : cycles.Pairwise fun xs ys =>
    ∀ a ∈ xs.head?, ∀ b ∈ ys.head?, g.address a < g.address b

/-! ## 1. Marks along a run -/

namespace Analysis

variable {p : Policy} {g : CallGraph} {a : Analysis}

/-- **What a run marks as lying on a cycle is recursive.** -/
theorem recursive_of_run (hc : ∀ n ∈ g.functions, g.isCycle n = false)
    (h : ReflTransGen (Step p) { graph := g } a) :
    ∀ m ∈ g.functions, a.graph.isCycle m = true → g.Recursive m := by
  induction h with
  | refl =>
    intro m hm hcm
    rw [hc m hm] at hcm
    cases hcm
  | tail hrun hs ih =>
    intro m hm hcm
    have e := agrees_of_run hrun
    cases hs with
    | close before inner n hchain _ =>
      rw [e.calls_eq] at hchain
      rw [graph_foundCycle, CallGraph.isCycle_markCycle, CallGraph.isCycle_markImprecise] at hcm
      rcases hcm with h | ⟨h, _⟩
      · exact ih m hm h
      · exact CallGraph.recursive_of_closed hchain.right_of_append h
    | finish path n _ _ _ _ =>
      rw [graph_finished, CallGraph.isCycle_finish, isCycle_findings] at hcm
      exact ih m hm hcm

end Analysis

/-! ## 2. After the analysis -/

namespace CallGraph

variable {g : CallGraph} {f : Node}

theorem cycles_analyse (p : Policy) (g : CallGraph) : (g.analyse p).1.cycles = g.cycles :=
  (Analysis.agrees_walkAll p g).cycles

theorem isCycle_analyse (p : Policy) (hg : g.WellFormed)
    (hc : ∀ n ∈ g.functions, g.isCycle n = false) (hf : f ∈ g.functions) :
    (g.analyse p).2.1.isCycle f = true ↔ g.Recursive f := by
  have e := Analysis.agrees_walkAll p g
  rw [analyse_graph, isCycle_spreadImprecision, walked, isCycle_markCycle, e.cycles,
    hg.mem_flatten_cycles, e.isLive]
  constructor
  · intro h
    rcases h with h | h
    · exact Analysis.recursive_of_run hc (Analysis.walkAll_run p g).1 f hf h
    · exact h.1
  · intro h
    exact .inr ⟨h, (mem_functions.mp hf).2⟩

theorem WellFormed.isCycleReport (hg : g.WellFormed) (hp : ∀ b, ¬ g.Calls pointer b) :
    g.IsCycleReport g.cycles where
  groups _ := hg.mem_cycles_iff hp
  groupsBySize ns := by
    rw [hg.mem_cycles_iff hp]
    refine and_congr_right fun hmax => and_congr_left fun hsorted => ?_
    exact hg.call_inside_iff hp hmax (nodup_of_sorted hsorted)
  nodup ns hns := nodup_of_sorted ((hg.mem_cycles_iff hp).mp hns).2.2
  disjoint := hg.cycles_disjoint
  sorted := hg.cycles_sorted hp

/-- **The cycle report, exactly**: the verdict lists the largest sets of functions that all lead to
    each other and have a call inside, and a function is marked as lying on a cycle if and only if
    it is in one of them, if and only if one or more calls lead from it back to it. -/
theorem cycle_report_exact (p : Policy) (hg : g.WellFormed) (hp : ∀ b, ¬ g.Calls pointer b)
    (hc : ∀ n ∈ g.functions, g.isCycle n = false) :
    g.IsCycleReport (g.analyse p).1.cycles ∧
      ∀ f ∈ g.functions,
        ((g.analyse p).2.1.isCycle f = true ↔ ∃ ns ∈ (g.analyse p).1.cycles, f ∈ ns) ∧
          ((g.analyse p).2.1.isCycle f = true ↔ TransGen g.Calls f f) := by
  rw [cycles_analyse]
  refine ⟨hg.isCycleReport hp, fun f hf => ⟨?_, isCycle_analyse p hg hc hf⟩⟩
  rw [isCycle_analyse p hg hc hf, ← List.mem_flatten, hg.mem_flatten_cycles]

/-- `ping`, `pong` and `net` call each other in a circle, `again` calls itself, and `main` calls two
    of them. The slots are in another order than the addresses. -/
def circles : CallGraph where
  slots := #[some (Function.named 0 "Function Pointer"),
    some { address := 0x50, name := "main" },
    some { address := 0x40, name := "ping" },
    some { address := 0x20, name := "pong" },
    some { address := 0x30, name := "net" },
    some { address := 0x10, name := "again" }]
  calls := [⟨5, 5, 5⟩, ⟨4, 4, 2⟩, ⟨3, 3, 4⟩, ⟨2, 2, 3⟩, ⟨1, 1, 2⟩, ⟨0, 1, 5⟩]

/-- The circle and the self call are reported by address, and `main` lies on neither. -/
theorem cycle_report_exact_circles :
    circles.IsCycleReport [[5], [3, 4, 2]] ∧ TransGen circles.Calls 2 2 ∧
      ¬ TransGen circles.Calls 1 1 := by
  have hp : ∀ c ∈ circles.calls, c.caller ≠ pointer := by decide
  have hmarks : ∀ n ∈ circles.functionNodes, circles.isCycle n = false := by decide
  have hexact := cycle_report_exact (g := circles) {} (by decide) (fun b ⟨c, hc, e, _⟩ => hp c hc e)
    fun n hn => hmarks n (mem_functionNodes.mpr (mem_functions.mp hn))
  have hcycles : (circles.analyse {}).1.cycles = [[5], [3, 4, 2]] := by cbv
  have hping : (circles.analyse {}).2.1.isCycle 2 = true := by cbv
  have hmain : (circles.analyse {}).2.1.isCycle 1 = false := by cbv
  rw [hcycles] at hexact
  refine ⟨hexact.1, (hexact.2 2 (mem_functions.mpr (by decide))).2.mp hping, fun h => ?_⟩
  rw [← (hexact.2 1 (mem_functions.mpr (by decide))).2, hmain] at h
  cases h

end CallGraph

end StackDepth

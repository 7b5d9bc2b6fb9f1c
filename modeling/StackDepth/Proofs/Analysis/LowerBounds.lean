import StackDepth.Proofs.Analysis.Totals

/-!
# Totals where there is recursion

Somewhere on a circle of calls a function is finished before one of its callees, and its total then
leaves that callee out. Which function that is depends on where the walk came in. Whatever the walk
does, the total is no invention and forgets nothing outside of the circle.

* `Grounded`: the total of every visited function is what some chain of visited functions takes,
  none of them twice. A function that is finished is not visited before, so it is not on the chain
  of the callee that it goes on with;
* `Dominant`: the total of a visited function covers each callee that does not lead back to it,
  since such a callee is finished first;
* `total_analyse_realised`: so it is after the analysis.
-/

namespace StackDepth

open Relation (ReflTransGen TransGen)

namespace Analysis

variable {p : Policy} {g : CallGraph} {a b : Analysis}

/-! ## 1. No total is an invention -/

/-- A chain of calls from `f` that takes the total of `f`, through visited functions and through
    none of them twice. -/
structure Realises (g : CallGraph) (a : Analysis) (f : Node) (chain : List Node) : Prop where
  isCallChain : g.IsCallChain f chain
  nodup : chain.Nodup
  size : g.chainSize chain = a.graph.total f
  visited : ∀ n ∈ chain, a.graph.isVisited n = true

/-- A function that is not visited has no total yet, and one that is visited has that of a chain. -/
structure Grounded (g : CallGraph) (a : Analysis) : Prop where
  unvisited : ∀ n ∈ g.functions, a.graph.isVisited n = false → a.graph.total n = 0
  visited : ∀ f ∈ g.functions, a.graph.isVisited f = true → ∃ chain, Realises g a f chain

/-- A step keeps the total of a node that is not visited by it. -/
theorem Step.total_of_not_visited (hs : Step p a b) {m : Node} (hm : b.graph.isVisited m = false) :
    b.graph.total m = a.graph.total m := by
  cases hs with
  | close before inner n _ _ =>
    rw [graph_foundCycle, CallGraph.total_markCycle, CallGraph.total_markImprecise]
  | finish path n _ _ _ _ =>
    have hne : m ≠ n := by
      intro e
      rw [isVisited_finished.mpr (.inr e)] at hm
      cases hm
    rw [graph_finished, CallGraph.total_finish_of_ne hne, total_findings]

/-- A chain of visited functions stays what it is. -/
theorem Realises.step {f : Node} {chain : List Node} (h : Realises g a f chain) (hs : Step p a b) :
    Realises g b f chain where
  isCallChain := h.isCallChain
  nodup := h.nodup
  size := by
    have hf : f ∈ chain := List.mem_of_head? h.isCallChain.head
    rw [h.size, hs.total (h.visited f hf)]
  visited n hn := hs.isVisited (h.visited n hn)

/-- **A function that is finished goes on with the chain of its deepest callee**, or stands alone
    where no callee has a total. -/
theorem Grounded.finished (h : Grounded g a) (hg : g.WellFormed) (e : g.Agrees a.graph) {f : Node}
    {path : List Node} (hf : f ∈ g.functions) (hv : a.graph.isVisited f = false) :
    ∃ chain, Realises g (a.finished p path f) f chain := by
  have htotal : (a.finished p path f).graph.total f =
      g.ownSize f + ((g.calledFunctions f).map a.graph.total).foldr max 0 := total_finished e hf
  have hself : (a.finished p path f).graph.isVisited f = true := isVisited_finished.mpr (.inr rfl)
  -- where the callees add nothing, the chain is `f` alone
  have halone : ((g.calledFunctions f).map a.graph.total).foldr max 0 = 0 →
      Realises g (a.finished p path f) f [f] := by
    intro hzero
    refine ⟨CallGraph.isCallChain_singleton hf, List.nodup_singleton f, ?_, fun n hn => ?_⟩
    · rw [htotal, hzero]
      simp [CallGraph.chainSize]
    · rw [List.mem_singleton.mp hn]
      exact hself
  rcases foldr_max_mem ((g.calledFunctions f).map a.graph.total) with hzero | hmem
  · exact ⟨[f], halone hzero⟩
  · obtain ⟨c, hc, hmax⟩ := List.mem_map.mp hmem
    obtain ⟨hfc, hcp⟩ := CallGraph.mem_calledFunctions.mp hc
    have hcf : c ∈ g.functions := hg.callee_mem_functions hfc hcp
    cases hvc : a.graph.isVisited c with
    | false =>
      refine ⟨[f], halone ?_⟩
      rw [← hmax, h.unvisited c hcf hvc]
    | true =>
      obtain ⟨chain, hchain⟩ := h.visited c hcf hvc
      refine ⟨f :: chain, hchain.isCallChain.cons hf hfc, ?_, ?_, ?_⟩
      · refine List.nodup_cons.mpr ⟨fun hmem => ?_, hchain.nodup⟩
        rw [hchain.visited f hmem] at hv
        cases hv
      · rw [htotal, ← hmax, ← hchain.size]
        simp [CallGraph.chainSize]
      · intro n hn
        rcases List.mem_cons.mp hn with rfl | hn
        · exact hself
        · exact isVisited_finished.mpr (.inl (hchain.visited n hn))

theorem Grounded.step (h : Grounded g a) (hg : g.WellFormed) (e : g.Agrees a.graph)
    (hs : Step p a b) : Grounded g b where
  unvisited n hn hvn := by
    have hva : a.graph.isVisited n = false := by
      refine Bool.eq_false_iff.mpr fun hva => ?_
      rw [hs.isVisited hva] at hvn
      cases hvn
    rw [hs.total_of_not_visited hvn, h.unvisited n hn hva]
  visited f hf hvf := by
    rcases hs.visited_cases hvf with hva | ⟨path, rfl, _, hva, _⟩
    · obtain ⟨chain, hchain⟩ := h.visited f hf hva
      exact ⟨chain, hchain.step hs⟩
    · exact h.finished hg e hf hva

/-- **All along a run no total is an invention**, where none is there at the start. -/
theorem grounded_of_run (hg : g.WellFormed) (hv : ∀ n ∈ g.functions, g.isVisited n = false)
    (ht : ∀ n ∈ g.functions, g.total n = 0) (h : ReflTransGen (Step p) { graph := g } a) :
    Grounded g a := by
  induction h with
  | refl =>
    refine ⟨fun n hn _ => ht n hn, fun f hf hvf => ?_⟩
    rw [hv f hf] at hvf
    cases hvf
  | tail hrun hs ih => exact ih.step hg (agrees_of_run hrun) hs

/-! ## 2. No callee outside of the circle is forgotten -/

/-- The total of a visited function covers its size and each callee that does not lead back to
    it. -/
def Dominant (g : CallGraph) (a : Analysis) : Prop :=
  ∀ f ∈ g.functions, a.graph.isVisited f = true →
    ∀ c, g.Calls f c → c ≠ CallGraph.pointer → ¬ g.Reaches c f →
      a.graph.isVisited c = true ∧ g.ownSize f + a.graph.total c ≤ a.graph.total f

theorem Dominant.step (h : Dominant g a) (e : g.Agrees a.graph) (hs : Step p a b) :
    Dominant g b := by
  intro f hf hvf c hfc hcp hback
  rcases hs.visited_cases hvf with hva | ⟨path, rfl, hchain, _, hdone⟩
  · obtain ⟨hvc, hle⟩ := h f hf hva c hfc hcp hback
    rw [hs.total hvc, hs.total hva]
    exact ⟨hs.isVisited hvc, hle⟩
  · rw [e.calls_eq] at hchain hdone
    -- a callee on the chain would lead back to `f`
    have hvc : a.graph.isVisited c = true :=
      (hdone c hfc).resolve_right fun hmem => hback (CallGraph.reaches_of_chain hchain hmem)
    refine ⟨hs.isVisited hvc, ?_⟩
    rw [total_finished e hf, hs.total hvc]
    have hmem : c ∈ g.calledFunctions f := CallGraph.mem_calledFunctions.mpr ⟨hfc, hcp⟩
    exact Nat.add_le_add_left (le_foldr_max (List.mem_map_of_mem hmem)) _

/-- **All along a run no callee outside of the circle is forgotten.** -/
theorem dominant_of_run (hv : ∀ n ∈ g.functions, g.isVisited n = false)
    (h : ReflTransGen (Step p) { graph := g } a) : Dominant g a := by
  induction h with
  | refl =>
    intro f hf hvf
    rw [hv f hf] at hvf
    cases hvf
  | tail hrun hs ih => exact ih.step (agrees_of_run hrun) hs

end Analysis

/-! ## 3. After the analysis -/

namespace CallGraph

variable {g : CallGraph} {f : Node}

/-- **Totals are honest lower bounds, also where there is recursion**: whatever circles of calls a
    function leads to, its total is exactly what some chain of calls from it takes, no function of
    which comes twice; and it covers the function's own size together with the total of every callee
    that does not lead back. -/
theorem total_analyse_realised (p : Policy) (hg : g.WellFormed)
    (hv : ∀ n ∈ g.functions, g.isVisited n = false) (ht : ∀ n ∈ g.functions, g.total n = 0)
    (hf : f ∈ g.functions) :
    (∃ chain, g.IsCallChain f chain ∧ chain.Nodup ∧
        (chain.map g.ownSize).sum = (g.analyse p).2.1.total f) ∧
      ∀ c, g.Calls f c → c ≠ pointer → ¬ g.Reaches c f →
        g.ownSize f + (g.analyse p).2.1.total c ≤ (g.analyse p).2.1.total f := by
  obtain ⟨hrun, hvis⟩ := Analysis.walkAll_run p g
  simp only [total_analyse]
  constructor
  · obtain ⟨chain, hchain⟩ := (Analysis.grounded_of_run hg hv ht hrun).visited f hf (hvis f hf)
    exact ⟨chain, hchain.isCallChain, hchain.nodup, hchain.size⟩
  · intro c hfc hcp hback
    exact (Analysis.dominant_of_run hv hrun f hf (hvis f hf) c hfc hcp hback).2

/-- `main` calls `ping`, which calls `pong` and `leaf`. `pong` calls `ping` and itself. -/
def roundabout : CallGraph where
  slots := #[some (Function.named 0 "Function Pointer"),
    some { address := 0x10, name := "main", size := 16 },
    some { address := 0x20, name := "ping", size := 8 },
    some { address := 0x30, name := "pong", size := 2 },
    some { address := 0x40, name := "leaf", size := 4 }]
  calls := [⟨4, 3, 3⟩, ⟨3, 2, 4⟩, ⟨2, 3, 2⟩, ⟨1, 2, 3⟩, ⟨0, 1, 2⟩]

/-- `ping` is recursive. It has the total of the chain to `leaf`, which is deeper than that to
    `pong`, where `ping` is still on the way. -/
theorem total_analyse_realised_roundabout :
    TransGen roundabout.Calls 2 2 ∧ (roundabout.analyse {}).2.1.total 2 = 12 ∧
      (∃ chain, roundabout.IsCallChain 2 chain ∧ chain.Nodup ∧
        (chain.map roundabout.ownSize).sum = (roundabout.analyse {}).2.1.total 2) ∧
      ∀ c, roundabout.Calls 2 c → c ≠ pointer → ¬ roundabout.Reaches c 2 →
        roundabout.ownSize 2 + (roundabout.analyse {}).2.1.total c ≤
          (roundabout.analyse {}).2.1.total 2 := by
  have hzero : ∀ n ∈ roundabout.functionNodes,
      roundabout.isVisited n = false ∧ roundabout.total n = 0 := by decide
  have hnode : ∀ {n}, n ∈ roundabout.functions → n ∈ roundabout.functionNodes :=
    fun hn => mem_functionNodes.mpr (mem_functions.mp hn)
  have hping : roundabout.Calls 2 3 := by decide
  have hpong : roundabout.Calls 3 2 := by decide
  refine ⟨.tail (.single hping) hpong, by cbv, ?_⟩
  exact total_analyse_realised {} (by decide) (fun n hn => (hzero n (hnode hn)).1)
    (fun n hn => (hzero n (hnode hn)).2) (mem_functions.mpr (by decide))

end CallGraph

end StackDepth

import Mathlib.Algebra.Ring.Nat
import Mathlib.Order.Bounds.Defs
import StackDepth.Proofs.Analysis.Steps

/-!
# Totals are the deepest chains

Where no recursion can be reached, the total of a function is the most that any chain of calls from
it takes from the stack.

* `IsCallChain`, `chainSizes`: the chains of calls from a function, and what they take;
* `isGreatest_cons`: the deepest chain goes through the deepest callee;
* `isGreatest_total_of_run`: what is visited and leads to no recursion has its total, all along a
  run. The total is read when the walk comes back, and then every callee is visited: one on the
  chain would be recursion;
* `total_analyse_isGreatest`: so it is after the analysis.
-/

namespace StackDepth

open Relation (ReflTransGen TransGen)

/-! ## 1. The largest of a list -/

theorem le_foldr_max {xs : List Nat} {x : Nat} (hx : x ∈ xs) : x ≤ xs.foldr max 0 := by
  induction xs with
  | nil => cases hx
  | cons y ys ih =>
    rw [List.foldr_cons]
    rcases List.mem_cons.mp hx with rfl | hx
    · exact Nat.le_max_left _ _
    · exact Nat.le_trans (ih hx) (Nat.le_max_right _ _)

theorem foldr_max_mem (xs : List Nat) : xs.foldr max 0 = 0 ∨ xs.foldr max 0 ∈ xs := by
  induction xs with
  | nil => exact .inl rfl
  | cons y ys ih =>
    rw [List.foldr_cons]
    rcases Nat.le_total y (ys.foldr max 0) with h | h
    · rw [Nat.max_eq_right h]
      exact ih.imp_right (List.mem_cons_of_mem y)
    · rw [Nat.max_eq_left h]
      exact .inr List.mem_cons_self

namespace CallGraph

variable {g : CallGraph} {f n : Node}

/-! ## 2. Chains of calls -/

/-- A chain of calls between functions, from `f` on. -/
structure IsCallChain (g : CallGraph) (f : Node) (chain : List Node) : Prop where
  head : chain.head? = some f
  calls : chain.IsChain g.Calls
  functions : ∀ n ∈ chain, n ∈ g.functions

/-- The bytes that the functions of a chain take together. -/
def chainSize (g : CallGraph) (chain : List Node) : Nat := (chain.map g.ownSize).sum

/-- What the chains of calls from `f` take. -/
def chainSizes (g : CallGraph) (f : Node) : Set Nat :=
  {s | ∃ chain, g.IsCallChain f chain ∧ g.chainSize chain = s}

/-- No chain of calls from `f` leads to recursion. -/
def RecursionFree (g : CallGraph) (f : Node) : Prop := ∀ m, g.Reaches f m → ¬ g.Recursive m

theorem RecursionFree.callee (hf : g.RecursionFree f) (h : g.Calls f n) : g.RecursionFree n :=
  fun m hm => hf m (.head h hm)

/-- No recursion is reachable where every call leads down in rank. -/
theorem recursionFree_of_rank (ns : List Node) (rank : Node → Nat)
    (hdown : ∀ n ∈ ns, ∀ m ∈ g.callees n, m ∈ ns ∧ rank m < rank n) (hf : f ∈ ns) :
    g.RecursionFree f := by
  have hstep : ∀ {n m}, n ∈ ns → g.Calls n m → m ∈ ns ∧ rank m < rank n :=
    fun hn hc => hdown _ hn _ (mem_callees.mpr hc)
  have hreach : ∀ {m}, g.Reaches f m → m ∈ ns := by
    intro m hm
    induction hm with
    | refl => exact hf
    | tail _ hc ih => exact (hstep ih hc).1
  intro n hn hrec
  have hlower : ∀ {m}, TransGen g.Calls n m → m ∈ ns ∧ rank m < rank n := by
    intro m hm
    induction hm with
    | single hc => exact hstep (hreach hn) hc
    | tail _ hc ih => exact ⟨(hstep ih.1 hc).1, Nat.lt_trans (hstep ih.1 hc).2 ih.2⟩
  exact Nat.lt_irrefl _ (hlower hrec).2

/-- The chain that is `f` alone. -/
theorem isCallChain_singleton (hf : f ∈ g.functions) : g.IsCallChain f [f] :=
  ⟨rfl, .singleton f, fun _ hn => List.mem_singleton.mp hn ▸ hf⟩

theorem IsCallChain.cons (hf : f ∈ g.functions) (hc : g.Calls f n) {chain : List Node}
    (h : g.IsCallChain n chain) : g.IsCallChain f (f :: chain) where
  head := rfl
  calls := List.isChain_cons.mpr ⟨fun m hm => by rw [h.head] at hm; cases hm; exact hc, h.calls⟩
  functions m hm := by
    rcases List.mem_cons.mp hm with rfl | hm
    · exact hf
    · exact h.functions m hm

/-- A chain from `f` is `f` alone, or goes on from a callee. -/
theorem IsCallChain.cases {chain : List Node} (h : g.IsCallChain f chain) :
    chain = [f] ∨
      ∃ c rest, chain = f :: rest ∧ g.Calls f c ∧ c ≠ pointer ∧ g.IsCallChain c rest := by
  match chain, h with
  | [], h => cases h.head
  | [x], h =>
    cases h.head
    exact .inl rfl
  | x :: c :: rest, h =>
    cases h.head
    have hc : c ∈ g.functions := h.functions c (List.mem_cons_of_mem _ List.mem_cons_self)
    refine .inr ⟨c, c :: rest, rfl, (List.isChain_cons_cons.mp h.calls).1,
      (mem_functions.mp hc).1, rfl, (List.isChain_cons_cons.mp h.calls).2, fun m hm => ?_⟩
    exact h.functions m (List.mem_cons_of_mem _ hm)

/-- **The deepest chain goes through the deepest callee.** -/
theorem isGreatest_cons (hf : f ∈ g.functions) {total : Node → Nat}
    (h : ∀ c ∈ g.calledFunctions f, IsGreatest (g.chainSizes c) (total c)) :
    IsGreatest (g.chainSizes f)
      (g.ownSize f + ((g.calledFunctions f).map total).foldr max 0) := by
  constructor
  · rcases foldr_max_mem ((g.calledFunctions f).map total) with e | hmem
    · rw [e]
      refine ⟨[f], isCallChain_singleton hf, ?_⟩
      rw [chainSize, List.map_singleton, List.sum_singleton, Nat.add_zero]
    · obtain ⟨c, hc, e⟩ := List.mem_map.mp hmem
      obtain ⟨chain, hchain, hsize⟩ := (h c hc).1
      refine ⟨f :: chain, hchain.cons hf (mem_calledFunctions.mp hc).1, ?_⟩
      rw [← e, ← hsize, chainSize, List.map_cons, List.sum_cons, chainSize]
  · intro s hs
    obtain ⟨chain, hchain, hsize⟩ := hs
    rw [← hsize]
    rcases hchain.cases with e | ⟨c, rest, e, hfc, hcp, hrest⟩
    · rw [e, chainSize, List.map_singleton, List.sum_singleton]
      exact Nat.le_add_right _ _
    · have hc : c ∈ g.calledFunctions f := mem_calledFunctions.mpr ⟨hfc, hcp⟩
      have hle : g.chainSize rest ≤ total c := (h c hc).2 ⟨rest, hrest, rfl⟩
      rw [e, chainSize, List.map_cons, List.sum_cons]
      exact Nat.add_le_add_left
        (Nat.le_trans hle (le_foldr_max (List.mem_map_of_mem hc))) _

end CallGraph

/-! ## 3. Along a run -/

namespace Analysis

variable {p : Policy} {g : CallGraph} {a b : Analysis}

/-- A step keeps the total of a node that is visited. -/
theorem Step.total (hs : Step p a b) {m : Node} (hm : a.graph.isVisited m = true) :
    b.graph.total m = a.graph.total m := by
  cases hs with
  | close before inner n _ _ =>
    rw [graph_foundCycle, CallGraph.total_markCycle, CallGraph.total_markImprecise]
  | finish path n _ _ hv _ =>
    have hne : m ≠ n := by
      intro e
      rw [e, hv] at hm
      cases hm
    rw [graph_finished, CallGraph.total_finish_of_ne hne, total_findings]

/-- The total that finishing gives a function. -/
theorem total_finished (e : g.Agrees a.graph) {path : List Node} {n : Node}
    (hn : n ∈ g.functions) : (a.finished p path n).graph.total n =
      g.ownSize n + ((g.calledFunctions n).map a.graph.total).foldr max 0 := by
  have e' : g.Agrees (a.findings p path n).graph := e.trans agrees_findings
  obtain ⟨hp, hl⟩ := CallGraph.mem_functions.mp hn
  rw [graph_finished, CallGraph.total_finish_self hp (e'.isLive n ▸ hl), e'.ownSize,
    CallGraph.deepestCallee, CallGraph.calledFunctions, e'.callees]
  have htotal : (a.findings p path n).graph.total = a.graph.total := funext fun m => total_findings
  rw [htotal]
  rfl

/-- **What is visited and leads to no recursion has the size of its deepest chain**, all along a run
    that starts with no function visited. -/
theorem isGreatest_total_of_run (hg : g.WellFormed)
    (hv : ∀ n ∈ g.functions, g.isVisited n = false) (h : ReflTransGen (Step p) { graph := g } a) :
    ∀ f ∈ g.functions, a.graph.isVisited f = true → g.RecursionFree f →
      IsGreatest (g.chainSizes f) (a.graph.total f) := by
  induction h with
  | refl =>
    intro f hf hvis
    rw [hv f hf] at hvis
    cases hvis
  | tail hrun hs ih =>
    rename_i b c
    intro f hf hvis hfree
    have e : g.Agrees b.graph := agrees_of_run hrun
    cases hvb : b.graph.isVisited f with
    | true =>
      rw [hs.total hvb]
      exact ih f hf hvb hfree
    | false =>
      -- only finishing `f` itself makes it visited
      cases hs with
      | close before inner n _ _ =>
        rw [isVisited_foundCycle, hvb] at hvis
        cases hvis
      | finish path n hchain _ _ hdone =>
        obtain rfl : f = n := (isVisited_finished.mp hvis).resolve_left (by rw [hvb]; decide)
        rw [total_finished e hf]
        rw [e.calls_eq] at hchain hdone
        refine CallGraph.isGreatest_cons hf fun c hc => ?_
        obtain ⟨hfc, hcp⟩ := CallGraph.mem_calledFunctions.mp hc
        refine ih c (hg.callee_mem_functions hfc hcp) ?_ (hfree.callee hfc)
        -- a callee on the chain would make `f` recursive
        refine (hdone c hfc).resolve_right fun hmem => ?_
        exact hfree f .refl (CallGraph.recursive_of_call_back hchain hmem hfc)

end Analysis

/-! ## 4. After the analysis -/

namespace CallGraph

variable {g : CallGraph} {f : Node}

theorem total_analyse (p : Policy) (g : CallGraph) (n : Node) :
    (g.analyse p).2.1.total n = (Analysis.walkAll p g).graph.total n := by
  show (((Analysis.walkAll p g).graph.markCycle _).spreadImprecision).total n = _
  rw [total_spreadImprecision, total_markCycle]

theorem isGreatest_total_walkAll (p : Policy) (hg : g.WellFormed)
    (hv : ∀ n ∈ g.functions, g.isVisited n = false) (hf : f ∈ g.functions)
    (hfree : g.RecursionFree f) :
    IsGreatest (g.chainSizes f) ((Analysis.walkAll p g).graph.total f) := by
  obtain ⟨hrun, hvis⟩ := Analysis.walkAll_run p g
  exact Analysis.isGreatest_total_of_run hg hv hrun f hf (hvis f hf) hfree

/-- **Exact totals where no recursion is reachable**: the total of a function that leads to no
    recursion is the most that a chain of calls from it takes, whatever cycles there are elsewhere
    and whatever totals and marks the graph had. -/
theorem total_analyse_isGreatest (p : Policy) (hg : g.WellFormed)
    (hv : ∀ n ∈ g.functions, g.isVisited n = false) (hf : f ∈ g.functions)
    (hfree : ∀ m, g.Reaches f m → ¬ TransGen g.Calls m m) :
    IsGreatest {s | ∃ chain, g.IsCallChain f chain ∧ (chain.map g.ownSize).sum = s}
      ((g.analyse p).2.1.total f) := by
  rw [total_analyse]
  exact isGreatest_total_walkAll p hg hv hf hfree

/-- `main` calls `small` and `big`, and `small` calls `leaf`, as do `ping` and `pong`, which call
    each other. Totals and marks are left over from before. -/
def crossroads : CallGraph where
  slots := #[some (Function.named 0 "Function Pointer"),
    some { address := 0x10, name := "main", size := 16, total := 7 },
    some { address := 0x20, name := "small", size := 8 },
    some { address := 0x30, name := "big", size := 40, dynamic := true, total := 900 },
    some { address := 0x40, name := "leaf", size := 4 },
    some { address := 0x50, name := "ping", size := 1 },
    some { address := 0x60, name := "pong", size := 1 }]
  calls := [⟨5, 5, 4⟩, ⟨4, 6, 5⟩, ⟨3, 5, 6⟩, ⟨2, 2, 4⟩, ⟨1, 1, 3⟩, ⟨0, 1, 2⟩]

/-- The deepest chain from `main` goes to `big`. -/
theorem total_analyse_isGreatest_crossroads :
    (crossroads.analyse {}).2.1.total 1 = 56 ∧
      IsGreatest {s | ∃ chain, crossroads.IsCallChain 1 chain ∧
        (chain.map crossroads.ownSize).sum = s} ((crossroads.analyse {}).2.1.total 1) := by
  have hv : ∀ n ∈ crossroads.functionNodes, crossroads.isVisited n = false := by decide
  refine ⟨by cbv, total_analyse_isGreatest {} (by decide) (fun n hn => ?_) ?_ ?_⟩
  · exact hv n (mem_functionNodes.mpr (mem_functions.mp hn))
  · exact mem_functions.mpr (by decide)
  · exact recursionFree_of_rank [1, 2, 3, 4] (fun n => 9 - n) (by decide) (by decide)

end CallGraph

end StackDepth

import StackDepth.Proofs.Analysis.Steps

/-!
# What makes a function imprecise

A function ends up imprecise exactly if it leads to a doubtful one: a recursive function, or one
that the policy regards and that has a frame sized at run time or an indirect call.

* `doubted_of_run`: marks are sound, since the walk marks along real chains of calls;
* `isImprecise_of_run`: every doubtful function that is visited is marked itself;
* `isImprecise_analyse`: the cycle groups and the spreading bring in the rest;
* `imprecision_exact`: the marks and the verdict of the analysis.
-/

namespace StackDepth

open Relation (ReflTransGen TransGen)

namespace CallGraph

variable {p : Policy} {g : CallGraph} {a n m : Node}

/-! ## 1. Doubtful functions -/

/-- `n` is recursive, or it is regarded and takes an amount of the stack that is not known. -/
def IsDoubtful (p : Policy) (g : CallGraph) (n : Node) : Prop :=
  TransGen g.Calls n n ∨
    (g.isRegarded p n = true ∧ (g.isDynamic n = true ∨ g.Calls n pointer))

/-- Zero or more calls lead from `n` to a doubtful function. -/
def IsDoubted (p : Policy) (g : CallGraph) (n : Node) : Prop :=
  ∃ m ∈ g.functions, g.Reaches n m ∧ g.IsDoubtful p m

theorem IsDoubted.of_reaches (h : g.IsDoubted p n) (hr : g.Reaches a n) : g.IsDoubted p a := by
  obtain ⟨m, hm, hnm, hd⟩ := h
  exact ⟨m, hm, hr.trans hnm, hd⟩

theorem isUnsure_iff (hn : n ∈ g.functions) : g.isUnsure p n = true ↔
    g.isRegarded p n = true ∧ (g.isDynamic n = true ∨ g.Calls n pointer) := by
  have hp : (n != pointer) = true := bne_iff_ne.mpr (mem_functions.mp hn).1
  rw [isUnsure, hp, Bool.true_and, Bool.and_eq_true, Bool.or_eq_true, callsPointer_iff]

end CallGraph

/-! ## 2. Along a run -/

namespace Analysis

open CallGraph (pointer)

variable {p : Policy} {g : CallGraph} {a b : Analysis} {m : Node}

/-- A cycle makes doubted functions imprecise. -/
theorem doubted_foundCycle (hg : g.WellFormed) (hp : ∀ b, ¬ g.Calls pointer b)
    (ih : a.graph.isImprecise m = true → g.IsDoubted p m) {before inner : List Node} {n : Node}
    (hchain : (before ++ n :: (inner ++ [n])).IsChain g.Calls)
    (hm : (a.foundCycle p (before ++ n :: (inner ++ [n])) before.length).graph.isImprecise m =
      true) :
    g.IsDoubted p m := by
  have hround : (n :: (inner ++ [n])).IsChain g.Calls := hchain.right_of_append
  have hrec : g.Recursive n := CallGraph.recursive_of_closed hround List.mem_cons_self
  -- every node of the chain leads to `n`
  have hto : m ∈ before ++ n :: inner → g.IsDoubted p m := by
    intro hmem
    have hchain' : (before ++ n :: inner ++ [n]).IsChain g.Calls := by
      rw [List.append_assoc, List.cons_append]
      exact hchain
    exact ⟨n, hrec.mem_functions hg hp,
      CallGraph.reaches_of_chain hchain' (List.mem_append_left _ hmem), .inl hrec⟩
  rw [graph_foundCycle, CallGraph.isImprecise_markCycle, CallGraph.isImprecise_markImprecise] at hm
  rcases hm with (hm | ⟨hm, _⟩) | ⟨hm, _⟩
  · exact ih hm
  · exact hto (List.mem_append_left _ hm)
  · exact hto (List.mem_append_right _ hm)

/-- Finishing a node makes doubted functions imprecise. -/
theorem doubted_finished (hg : g.WellFormed) (e : g.Agrees a.graph)
    (ih : ∀ k ∈ g.functions, a.graph.isImprecise k = true → g.IsDoubted p k) {path : List Node}
    {n : Node} (hchain : (path ++ [n]).IsChain g.Calls) (hv : a.graph.isVisited n = false)
    (hm : m ∈ g.functions)
    (hi : (a.finished p (path ++ [n]) n).graph.isImprecise m = true) : g.IsDoubted p m := by
  have e' : g.Agrees (a.findings p (path ++ [n]) n).graph := e.trans agrees_findings
  -- what is found at `n` makes the chain imprecise, and the chain leads to `n`
  have hfound : ∀ k ∈ g.functions,
      (a.findings p (path ++ [n]) n).graph.isImprecise k = true → g.IsDoubted p k := by
    intro k hk hik
    rcases isImprecise_findings.mp hik with h | ⟨hu, hmem, _⟩
    · exact ih k hk h
    · rw [e.isUnsure] at hu
      have hnf : n ∈ g.functions := by
        have hne : n ≠ pointer := by
          rw [CallGraph.isUnsure, Bool.and_eq_true, Bool.and_eq_true, bne_iff_ne] at hu
          exact hu.1.1
        exact CallGraph.mem_functions.mpr ⟨hne, e.isLive n ▸ CallGraph.isLive_of_not_visited hv⟩
      exact ⟨n, hnf, CallGraph.reaches_of_chain hchain hmem,
        .inr ((CallGraph.isUnsure_iff hnf).mp hu)⟩
  rw [graph_finished, CallGraph.isImprecise_finish (CallGraph.mem_functions.mp hm).1] at hi
  rcases hi with hi | ⟨rfl, _, c, hc, hci⟩
  · exact hfound m hm hi
  · rw [CallGraph.mem_calledFunctions, e'.calls_eq] at hc
    exact (hfound c (hg.callee_mem_functions hc.1 hc.2) hci).of_reaches (.single hc.1)

/-- **What a run makes imprecise leads to a doubtful function.** -/
theorem doubted_of_run (hg : g.WellFormed) (hp : ∀ b, ¬ g.Calls pointer b)
    (hi : ∀ n ∈ g.functions, g.isImprecise n = false) (h : ReflTransGen (Step p) { graph := g } a) :
    ∀ m ∈ g.functions, a.graph.isImprecise m = true → g.IsDoubted p m := by
  induction h with
  | refl =>
    intro m hm him
    rw [hi m hm] at him
    cases him
  | tail hrun hs ih =>
    intro m hm him
    have e := agrees_of_run hrun
    cases hs with
    | close before inner n hchain _ =>
      rw [e.calls_eq] at hchain
      exact doubted_foundCycle hg hp (ih m hm) hchain him
    | finish path n hchain _ hv _ =>
      rw [e.calls_eq] at hchain
      exact doubted_finished hg e ih hchain hv hm him

/-- A step leaves what is imprecise as it is. -/
theorem Step.isImprecise (hs : Step p a b) (hm : m ≠ pointer)
    (h : a.graph.isImprecise m = true) : b.graph.isImprecise m = true := by
  cases hs with
  | close before inner n _ _ =>
    rw [graph_foundCycle, CallGraph.isImprecise_markCycle, CallGraph.isImprecise_markImprecise]
    exact .inl (.inl h)
  | finish path n _ _ _ _ =>
    rw [graph_finished, CallGraph.isImprecise_finish hm, isImprecise_findings]
    exact .inl (.inl h)

/-- **Every function with a finding is imprecise once it is visited**, all along a run that starts
    with no function visited. -/
theorem isImprecise_of_run (hv : ∀ n ∈ g.functions, g.isVisited n = false)
    (h : ReflTransGen (Step p) { graph := g } a) :
    ∀ m ∈ g.functions, a.graph.isVisited m = true → g.isUnsure p m = true →
      a.graph.isImprecise m = true := by
  induction h with
  | refl =>
    intro m hm hvm
    rw [hv m hm] at hvm
    cases hvm
  | tail hrun hs ih =>
    rename_i b c
    intro m hm hvm hu
    obtain ⟨hne, hl⟩ := CallGraph.mem_functions.mp hm
    have e := agrees_of_run hrun
    cases hvb : b.graph.isVisited m with
    | true => exact hs.isImprecise hne (ih m hm hvb hu)
    | false =>
      cases hs with
      | close before inner n _ _ =>
        rw [isVisited_foundCycle, hvb] at hvm
        cases hvm
      | finish path n _ _ _ _ =>
        obtain rfl : m = n := (isVisited_finished.mp hvm).resolve_left (by rw [hvb]; decide)
        rw [graph_finished, CallGraph.isImprecise_finish hne, isImprecise_findings]
        exact .inl (.inr ⟨(e.isUnsure p m).trans hu, List.mem_append_right _ List.mem_cons_self,
          (e.isLive m).trans hl⟩)

end Analysis

/-! ## 3. After the analysis -/

namespace CallGraph

variable {g : CallGraph} {f : Node}

/-- The graph once the walks are done and the cycle groups are marked. -/
def walked (p : Policy) (g : CallGraph) : CallGraph :=
  (Analysis.walkAll p g).graph.markCycle (Analysis.walkAll p g).graph.cycles.flatten

theorem analyse_graph (p : Policy) (g : CallGraph) :
    (g.analyse p).2.1 = (g.walked p).spreadImprecision := rfl

theorem agrees_walked (p : Policy) (g : CallGraph) : g.Agrees (g.walked p) :=
  (Analysis.agrees_walkAll p g).trans (agrees_markCycle _)

theorem agrees_analyse (p : Policy) (g : CallGraph) : g.Agrees (g.analyse p).2.1 :=
  (agrees_walked p g).trans (agrees_spreadImprecision _)

/-- What is imprecise before the spreading: what the walks marked, and the recursive functions. -/
theorem isImprecise_walked (p : Policy) (hg : g.WellFormed) {m : Node} (hm : m ∈ g.functions) :
    (g.walked p).isImprecise m = true ↔
      (Analysis.walkAll p g).graph.isImprecise m = true ∨ g.Recursive m := by
  have e := Analysis.agrees_walkAll p g
  rw [walked, isImprecise_markCycle, e.cycles, hg.mem_flatten_cycles, e.isLive]
  exact or_congr_right (and_iff_left (mem_functions.mp hm).2)

/-- A function is imprecise after the analysis exactly if it leads to a doubtful one. -/
theorem isImprecise_analyse (p : Policy) (hg : g.WellFormed) (hp : ∀ b, ¬ g.Calls pointer b)
    (hv : ∀ n ∈ g.functions, g.isVisited n = false)
    (hi : ∀ n ∈ g.functions, g.isImprecise n = false) (hf : f ∈ g.functions) :
    (g.analyse p).2.1.isImprecise f = true ↔ g.IsDoubted p f := by
  obtain ⟨hrun, hvis⟩ := Analysis.walkAll_run p g
  have e := agrees_walked p g
  rw [analyse_graph, (e.wellFormed hg).isImprecise_spreadImprecision (e.calls_eq ▸ hp)
    (e.functions ▸ hf), e.functions, e.reaches]
  constructor
  · intro ⟨r, hr, him, hfr⟩
    rcases (isImprecise_walked p hg hr).mp him with h | h
    · exact (Analysis.doubted_of_run hg hp hi hrun r hr h).of_reaches hfr
    · exact ⟨r, hr, hfr, .inl h⟩
  · intro ⟨m, hm, hfm, hd⟩
    refine ⟨m, hm, (isImprecise_walked p hg hm).mpr ?_, hfm⟩
    rcases hd with hrec | hu
    · exact .inr hrec
    · exact .inl (Analysis.isImprecise_of_run hv hrun m hm (hvis m hm) ((isUnsure_iff hm).mpr hu))

/-- The verdict is precise exactly if no entrance is imprecise. -/
theorem precise_analyse (p : Policy) (g : CallGraph) : (g.analyse p).1.precise = true ↔
    ∀ f ∈ g.functions, g.callers f = [] → ¬ (g.analyse p).2.1.isImprecise f = true := by
  have hdef : (g.analyse p).1.precise = g.entrances.all fun n => !(g.analyse p).2.1.isImprecise n :=
    rfl
  rw [hdef, List.all_eq_true]
  constructor
  · intro h f hf hc
    have hnot := h f (mem_entrances.mpr ⟨hf, hc⟩)
    rw [Bool.not_eq_true'] at hnot
    rw [hnot]
    decide
  · intro h f hf
    obtain ⟨hf, hc⟩ := mem_entrances.mp hf
    rw [Bool.not_eq_true']
    exact Bool.eq_false_iff.mpr (h f hf hc)

/-- **Imprecision, exactly**: a function is imprecise after the analysis if and only if it leads to
    a doubtful one, and the verdict is precise if and only if no function without callers does. -/
theorem imprecision_exact (p : Policy) (hg : g.WellFormed) (hp : ∀ b, ¬ g.Calls pointer b)
    (hv : ∀ n ∈ g.functions, g.isVisited n = false)
    (hi : ∀ n ∈ g.functions, g.isImprecise n = false) :
    (∀ f ∈ g.functions, (g.analyse p).2.1.isImprecise f = true ↔ g.IsDoubted p f) ∧
      ((g.analyse p).1.precise = true ↔
        ∀ f ∈ g.functions, g.callers f = [] → ¬ g.IsDoubted p f) := by
  have hexact := fun f (hf : f ∈ g.functions) => isImprecise_analyse p hg hp hv hi hf
  refine ⟨hexact, (precise_analyse p g).trans ?_⟩
  exact forall₂_congr fun f hf => imp_congr_right fun _ => not_congr (hexact f hf)

/-- `main` calls `dispatch`, which makes an indirect call, `loop` calls `again`, which calls itself,
    `fill` has a frame sized at run time, and `idle` calls `leaf`. -/
def mixed : CallGraph where
  slots := #[some (Function.named 0 "Function Pointer"),
    some { address := 0x10, name := "main" }, some { address := 0x20, name := "dispatch" },
    some { address := 0x30, name := "loop" }, some { address := 0x40, name := "again" },
    some { address := 0x50, name := "fill", dynamic := true },
    some { address := 0x60, name := "idle" }, some { address := 0x70, name := "leaf" }]
  calls := [⟨4, 6, 7⟩, ⟨3, 4, 4⟩, ⟨2, 3, 4⟩, ⟨1, 2, 0⟩, ⟨0, 1, 2⟩]

/-- All but `idle` and `leaf` lead to a doubtful function. -/
theorem imprecision_exact_mixed :
    (∀ f ∈ [1, 2, 3, 4, 5], mixed.IsDoubted {} f) ∧ (∀ f ∈ [6, 7], ¬ mixed.IsDoubted {} f) ∧
      ((mixed.analyse {}).1.precise = true ↔
        ∀ f ∈ mixed.functions, mixed.callers f = [] → ¬ mixed.IsDoubted {} f) := by
  have hp : ∀ c ∈ mixed.calls, c.caller ≠ pointer := by decide
  have hmarks : ∀ n ∈ mixed.functionNodes,
      mixed.isVisited n = false ∧ mixed.isImprecise n = false := by decide
  have hnode : ∀ {n}, n ∈ mixed.functions → n ∈ mixed.functionNodes :=
    fun hn => mem_functionNodes.mpr (mem_functions.mp hn)
  have hexact := imprecision_exact (g := mixed) {} (by decide) (fun b ⟨c, hc, e, _⟩ => hp c hc e)
    (fun n hn => (hmarks n (hnode hn)).1) (fun n hn => (hmarks n (hnode hn)).2)
  have hyes : [1, 2, 3, 4, 5].all (mixed.analyse {}).2.1.isImprecise = true := by cbv
  have hno : [6, 7].all (fun f => !(mixed.analyse {}).2.1.isImprecise f) = true := by cbv
  have hlive : ∀ f ∈ [1, 2, 3, 4, 5, 6, 7], f ≠ pointer ∧ mixed.isLive f = true := by decide
  refine ⟨fun f hf => ?_, fun f hf hd => ?_, hexact.2⟩
  · have hmem := mem_functions.mpr (hlive f (List.mem_append_left [6, 7] hf))
    exact (hexact.1 f hmem).mp (List.all_eq_true.mp hyes f hf)
  · have hmem := mem_functions.mpr (hlive f (List.mem_append_right [1, 2, 3, 4, 5] hf))
    have hnot := List.all_eq_true.mp hno f hf
    rw [(hexact.1 f hmem).mpr hd] at hnot
    cases hnot

end CallGraph

end StackDepth

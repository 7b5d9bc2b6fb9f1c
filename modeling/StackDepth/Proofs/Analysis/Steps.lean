import Mathlib.Data.List.Permutation
import StackDepth.Proofs.CallGraph.Spreading
import StackDepth.Proofs.Walk

/-!
# An analysis in steps

A walk does two things to an analysis: it reports a cycle of calls that the chain closes, and it
finishes a node whose callees are visited or on the chain. Everything known of the result follows
from what such a step keeps.

* `Step`: the two kinds of step, each along a real chain of calls;
* `walk_run`: a walk is a run of steps after which its roots are visited;
* `walkAll_run`: so are all walks of an analysis together, after which every function is visited.
-/

namespace StackDepth

open Relation (ReflTransGen)

/-- A finding at `n`: the policy regards it, and its frame or one of its callees is known only when
    it runs. -/
def CallGraph.isUnsure (p : Policy) (g : CallGraph) (n : Node) : Bool :=
  n != CallGraph.pointer && g.isRegarded p n && (g.isDynamic n || g.callsPointer n)

theorem CallGraph.Agrees.isUnsure {g h : CallGraph} (e : Agrees g h) (p : Policy) (n : Node) :
    h.isUnsure p n = g.isUnsure p n := by
  rw [CallGraph.isUnsure, CallGraph.isUnsure, e.isRegarded, e.isDynamic, callsPointer, callsPointer,
    hasCall, hasCall, e.calls]

namespace Analysis

variable {p : Policy} {a b : Analysis} {path : List Node} {n m : Node}

/-! ## 1. Findings -/

theorem graph_checkDynamic : (a.checkDynamic p path n).graph =
    if a.graph.isDynamic n then a.graph.markImprecise path else a.graph := by
  unfold checkDynamic CallGraph.isDynamic
  split <;> rfl

theorem graph_checkPointerCall : (a.checkPointerCall p path n).graph =
    if a.graph.callsPointer n then a.graph.markImprecise path else a.graph := by
  unfold checkPointerCall
  split <;> rfl

/-- What is found at a node changes nothing but whether the chain is imprecise. -/
theorem findings_induction {P : CallGraph → Prop} (h : P a.graph)
    (hm : ∀ g, P g → P (g.markImprecise path)) : P (a.findings p path n).graph := by
  have hd : P (a.checkDynamic p path n).graph := by
    rw [graph_checkDynamic]
    split
    · exact hm _ h
    · exact h
  unfold findings
  split
  · rw [graph_checkPointerCall]
    split
    · exact hm _ hd
    · exact hd
  · exact h

theorem agrees_findings : a.graph.Agrees (a.findings p path n).graph :=
  findings_induction (.refl _) fun _ h => h.trans (CallGraph.agrees_markImprecise path)

theorem total_findings : (a.findings p path n).graph.total m = a.graph.total m :=
  findings_induction (P := fun g => g.total m = a.graph.total m) rfl fun g h => by
    rw [CallGraph.total_markImprecise, h]

theorem isVisited_findings_eq : (a.findings p path n).graph.isVisited m = a.graph.isVisited m :=
  findings_induction (P := fun g => g.isVisited m = a.graph.isVisited m) rfl fun g h => by
    rw [CallGraph.isVisited_markImprecise_eq, h]

theorem isCycle_findings : (a.findings p path n).graph.isCycle m = a.graph.isCycle m :=
  findings_induction (P := fun g => g.isCycle m = a.graph.isCycle m) rfl fun g h => by
    rw [CallGraph.isCycle_markImprecise, h]

/-- The chain becomes imprecise if something is found at its end. -/
theorem isImprecise_findings : (a.findings p path n).graph.isImprecise m = true ↔
    a.graph.isImprecise m = true ∨
      (a.graph.isUnsure p n = true ∧ m ∈ path ∧ a.graph.isLive m = true) := by
  have hreg : a.regards p n = (n != CallGraph.pointer && a.graph.isRegarded p n) := rfl
  have hcalls : (a.checkDynamic p path n).graph.callsPointer n = a.graph.callsPointer n := by
    rw [CallGraph.callsPointer, CallGraph.callsPointer, CallGraph.hasCall, CallGraph.hasCall,
      calls_checkDynamic]
  have hlive : (a.graph.markImprecise path).isLive m = a.graph.isLive m :=
    (CallGraph.agrees_markImprecise path).isLive m
  unfold findings CallGraph.isUnsure
  rw [hreg]
  cases n != CallGraph.pointer && a.graph.isRegarded p n with
  | false => simp
  | true =>
    rw [if_pos rfl, graph_checkPointerCall, hcalls, graph_checkDynamic, Bool.true_and]
    cases a.graph.isDynamic n <;> cases a.graph.callsPointer n
    · simp
    · simp [CallGraph.isImprecise_markImprecise]
    · simp [CallGraph.isImprecise_markImprecise]
    · simp [CallGraph.isImprecise_markImprecise, hlive]

/-! ## 2. Steps -/

/-- What a visit does at the end of a chain: it reports what is found there and finishes the
    node. -/
def finished (p : Policy) (path : List Node) (n : Node) (a : Analysis) : Analysis :=
  { a.findings p path n with graph := (a.findings p path n).graph.finish n }

/-- One thing that a walk does to an analysis. -/
inductive Step (p : Policy) : Analysis → Analysis → Prop where
  /-- The chain comes back to `n`. -/
  | close (a : Analysis) (before inner : List Node) (n : Node)
      (hchain : (before ++ n :: (inner ++ [n])).IsChain a.graph.Calls)
      (hnodup : (before ++ n :: inner).Nodup) :
      Step p a (a.foundCycle p (before ++ n :: (inner ++ [n])) before.length)
  /-- The chain ends at `n`, and there is nothing left to do below. -/
  | finish (a : Analysis) (path : List Node) (n : Node)
      (hchain : (path ++ [n]).IsChain a.graph.Calls) (hnodup : (path ++ [n]).Nodup)
      (hv : a.graph.isVisited n = false)
      (hdone : ∀ m, a.graph.Calls n m → a.graph.isVisited m = true ∨ m ∈ path ++ [n]) :
      Step p a (a.finished p (path ++ [n]) n)

/-- A cycle marks what leads to it and what is on it. -/
theorem graph_foundCycle (before inner : List Node) :
    (a.foundCycle p (before ++ n :: (inner ++ [n])) before.length).graph =
      (a.graph.markImprecise before).markCycle (n :: inner) := by
  have htake : (before ++ n :: (inner ++ [n])).take before.length = before := List.take_left
  have hdrop : (before ++ n :: (inner ++ [n])).drop before.length = n :: inner ++ [n] :=
    List.drop_left
  unfold foundCycle
  simp only [htake, hdrop, List.dropLast_concat]

theorem graph_finished : (a.finished p path n).graph = (a.findings p path n).graph.finish n := rfl

theorem Step.agrees (h : Step p a b) : a.graph.Agrees b.graph := by
  cases h with
  | close before inner n _ _ =>
    rw [graph_foundCycle]
    exact (CallGraph.agrees_markImprecise before).trans (CallGraph.agrees_markCycle _)
  | finish path n _ _ _ _ =>
    exact agrees_findings.trans (CallGraph.agrees_finish n)

theorem isVisited_foundCycle (before inner : List Node) :
    (a.foundCycle p (before ++ n :: (inner ++ [n])) before.length).graph.isVisited m =
      a.graph.isVisited m := by
  rw [graph_foundCycle, CallGraph.isVisited_markCycle_eq, CallGraph.isVisited_markImprecise_eq]

theorem isVisited_finished :
    (a.finished p path n).graph.isVisited m = true ↔ a.graph.isVisited m = true ∨ m = n := by
  rw [graph_finished, CallGraph.isVisited_finish_iff, isVisited_findings_eq]

theorem Step.isVisited (h : Step p a b) (hm : a.graph.isVisited m = true) :
    b.graph.isVisited m = true := by
  cases h with
  | close before inner n _ _ => rw [isVisited_foundCycle, hm]
  | finish path n _ _ _ _ => exact isVisited_finished.mpr (.inl hm)

/-- What becomes visited by a step is what the step finishes. -/
theorem Step.visited_cases (h : Step p a b) (hm : b.graph.isVisited m = true) :
    a.graph.isVisited m = true ∨
      ∃ path, b = a.finished p (path ++ [m]) m ∧ (path ++ [m]).IsChain a.graph.Calls ∧
        a.graph.isVisited m = false ∧
        ∀ k, a.graph.Calls m k → a.graph.isVisited k = true ∨ k ∈ path ++ [m] := by
  cases h with
  | close before inner n _ _ =>
    rw [isVisited_foundCycle] at hm
    exact .inl hm
  | finish path n hchain _ hv hdone =>
    rcases isVisited_finished.mp hm with hm | rfl
    · exact .inl hm
    · exact .inr ⟨path, rfl, hchain, hv, hdone⟩

/-- What holds of the graph apart from totals and marks does so through a run. -/
theorem agrees_of_run (h : ReflTransGen (Step p) a b) : a.graph.Agrees b.graph := by
  induction h with
  | refl => exact .refl _
  | tail _ hs ih => exact ih.trans hs.agrees

theorem isVisited_of_run (h : ReflTransGen (Step p) a b) (hm : a.graph.isVisited m = true) :
    b.graph.isVisited m = true := by
  induction h with
  | refl => exact hm
  | tail _ hs ih => exact hs.isVisited ih

/-! ## 3. Visits -/

section Visit

variable {roots : List Node} {t : Tier} {outer : List Tier}

theorem isClosing_iff (r : Bool) :
    Walk.isClosing ⟨t :: outer, r⟩ = true ↔ t.node ∈ outer.map (·.node) := Walk.any_node_iff

/-- The first position of a node, where it is known what stands before it. -/
theorem idxOf?_append_cons {before after : List Node} (hn : n ∉ before) :
    (before ++ n :: after).idxOf? n = some before.length := by
  induction before with
  | nil => rw [List.nil_append, List.idxOf?_cons, if_pos BEq.rfl]; rfl
  | cons c before ih =>
    rw [List.mem_cons, not_or] at hn
    rw [List.cons_append, List.idxOf?_cons, if_neg fun e => hn.1 (beq_iff_eq.mp e).symm, ih hn.2]
    rfl

theorem idxOf_append_cons {before after : List Node} (hn : n ∉ before) :
    (before ++ n :: after).idxOf n = before.length := by
  rw [List.idxOf_append_of_notMem hn, List.idxOf_cons_self, Nat.add_zero]

theorem cycleStart?_of_mem {r : Bool} (hc : t.node ∈ outer.map (·.node)) :
    Walk.cycleStart? ⟨t :: outer, r⟩ = some ((outer.map (·.node)).reverse.idxOf t.node) := by
  obtain ⟨before, inner, e, hfirst⟩ := List.eq_append_cons_of_mem (List.mem_reverse.mpr hc)
  rw [Walk.cycleStart?, if_pos ((isClosing_iff r).mpr hc)]
  show Walk.position? ⟨t :: outer, r⟩ t.node = _
  rw [Walk.position?, Walk.path_cons, e, idxOf_append_cons hfirst, List.append_assoc,
    List.cons_append, idxOf?_append_cons hfirst]

/-- Where the innermost tier closes a cycle, the cycle is reported from its first node on. -/
theorem visit_of_mem {r : Bool} (hc : t.node ∈ outer.map (·.node)) : a.visit p ⟨t :: outer, r⟩ =
    a.foundCycle p ((outer.map (·.node)).reverse ++ [t.node])
      ((outer.map (·.node)).reverse.idxOf t.node) := by
  unfold visit
  rw [cycleStart?_of_mem hc, Walk.path_cons]
  rfl

theorem cycleStart?_of_not_mem {r : Bool} (hc : t.node ∉ outer.map (·.node)) :
    Walk.cycleStart? ⟨t :: outer, r⟩ = none := if_neg fun h => hc ((isClosing_iff r).mp h)

/-- Where the walk stands at a node that is visited, nothing is done. -/
theorem visit_of_visited {r : Bool} (hc : t.node ∉ outer.map (·.node))
    (hv : a.graph.isVisited t.node = true) : a.visit p ⟨t :: outer, r⟩ = a := by
  unfold visit
  rw [cycleStart?_of_not_mem hc]
  show (if a.graph.isVisited t.node then a else _) = a
  rw [if_pos hv]

/-- Any other node is finished. -/
theorem visit_of_not_visited {r : Bool} (hc : t.node ∉ outer.map (·.node))
    (hv : a.graph.isVisited t.node = false) : a.visit p ⟨t :: outer, r⟩ =
      a.finished p ((outer.map (·.node)).reverse ++ [t.node]) t.node := by
  unfold visit
  rw [cycleStart?_of_not_mem hc, Walk.path_cons]
  show (if a.graph.isVisited t.node then a else _) = _
  rw [if_neg (Bool.eq_false_iff.mp hv)]
  rfl

/-- Where the innermost tier closes a cycle, the chain is what leads to the first occurrence of its
    node, then the way round. -/
theorem exists_split_of_mem {g : CallGraph} (hs : Walk.Standing g roots t outer)
    (hc : t.node ∈ outer.map (·.node)) :
    ∃ before inner, (outer.map (·.node)).reverse = before ++ t.node :: inner ∧ t.node ∉ before ∧
      (before ++ t.node :: (inner ++ [t.node])).IsChain g.Calls ∧
      (before ++ t.node :: inner).Nodup := by
  have hchain := hs.linked.isChain
  have hnodup := List.nodup_reverse.mpr hs.nodup
  rw [List.map_cons, List.reverse_cons] at hchain
  obtain ⟨before, inner, e, hfirst⟩ := List.eq_append_cons_of_mem (List.mem_reverse.mpr hc)
  rw [e] at hnodup
  rw [e, List.append_assoc, List.cons_append] at hchain
  exact ⟨before, inner, e, hfirst, hchain, hnodup⟩

/-- A visit where the innermost tier closes a cycle. -/
theorem visit_closing (hs : Walk.Standing a.graph roots t outer)
    (hc : t.node ∈ outer.map (·.node)) : Step p a (a.visit p ⟨t :: outer, false⟩) := by
  obtain ⟨before, inner, e, hfirst, hchain, hnodup⟩ := exists_split_of_mem hs hc
  have hvisit : a.visit p ⟨t :: outer, false⟩ =
      a.foundCycle p (before ++ t.node :: (inner ++ [t.node])) before.length := by
    rw [visit_of_mem hc, e, idxOf_append_cons hfirst, List.append_assoc, List.cons_append]
  rw [hvisit]
  exact .close a before inner t.node hchain hnodup

/-- **A visit is a step, or changes nothing where the walk stands at a node that is visited.** -/
theorem visit_step (hs : Walk.Standing a.graph roots t outer)
    (hset : Walk.Settled a.graph t outer) :
    a.visit p ⟨t :: outer, false⟩ = a ∨ Step p a (a.visit p ⟨t :: outer, false⟩) := by
  by_cases hc : t.node ∈ outer.map (·.node)
  · exact .inr (visit_closing hs hc)
  cases hv : a.graph.isVisited t.node with
  | true => exact .inl (visit_of_visited hc hv)
  | false =>
    right
    rw [visit_of_not_visited hc hv]
    have hchain := hs.linked.isChain
    rw [List.map_cons, List.reverse_cons] at hchain
    have hmem : ∀ m, m ∈ (outer.map (·.node)).reverse ++ [t.node] ↔
        m ∈ (t :: outer).map (·.node) := fun m => by
      rw [← List.reverse_cons, List.mem_reverse, List.map_cons]
    refine .finish a _ t.node hchain ?_ hv fun m hm => ?_
    · rw [← List.reverse_cons]
      exact List.nodup_reverse.mpr (List.nodup_cons.mpr ⟨hc, hs.nodup⟩)
    · rw [hmem]
      rcases hset with h | h | h
      · rw [hv] at h
        cases h
      · exact absurd h hc
      · exact h m hm

end Visit

/-! ## 4. Runs -/

/-- **A walk is a run of steps, and then every root is visited.** -/
theorem walk_run {roots : List Node} {w : Walk} (hw : w.Proper a.graph roots) :
    ReflTransGen (Step p) a (walk p w a) ∧
      ∀ r ∈ roots, (walk p w a).graph.isVisited r = true := by
  fun_induction walk p w a with
  | case1 w a he =>
    exact ⟨.refl, hw.roots_visited (Walk.eq_nil_of_down he)⟩
  | case2 w a hne ih =>
    obtain ⟨t, outer, e, hs, hset⟩ := hw.down hne
    rw [e] at ih ⊢
    have hstep := visit_step (p := p) hs hset
    have hrun : ReflTransGen (Step p) a (a.visit p ⟨t :: outer, false⟩) := by
      rcases hstep with h | h
      · rw [h]
      · exact .single h
    have hup := hs.up (h := (a.visit p ⟨t :: outer, false⟩).graph) (calls_visit _ _ _)
      (fun m hm => isVisited_visit _ _ _ _ hm)
      ((isVisited_visit_tail p t outer false a).imp_right Walk.any_node_iff.mp)
    obtain ⟨h1, h2⟩ := ih hup
    exact ⟨hrun.trans h1, h2⟩

/-- The walks from functions that are left over. -/
theorem foldl_walk_run (ns : List Node) :
    let b := ns.foldl (fun a n => if a.graph.isVisited n then a else walk p (Walk.start [n]) a) a
    ReflTransGen (Step p) a b ∧ ∀ n ∈ ns, b.graph.isVisited n = true := by
  induction ns generalizing a with
  | nil => exact ⟨.refl, fun n hn => absurd hn List.not_mem_nil⟩
  | cons n ns ih =>
    have hwalk := walk_run (p := p) (Walk.proper_start a.graph [n])
    have hfirst : ReflTransGen (Step p) a
        (if a.graph.isVisited n then a else walk p (Walk.start [n]) a) := by
      split
      · exact .refl
      · exact hwalk.1
    have hn : (if a.graph.isVisited n then a else walk p (Walk.start [n]) a).graph.isVisited n
        = true := by
      split
      · assumption
      · exact hwalk.2 n List.mem_cons_self
    obtain ⟨hrun, hvis⟩ := ih (a := if a.graph.isVisited n then a else walk p (Walk.start [n]) a)
    refine ⟨hfirst.trans hrun, fun m hm => ?_⟩
    rcases List.mem_cons.mp hm with rfl | hm
    · exact isVisited_of_run hrun hn
    · exact hvis m hm

/-- **An analysis is a run of steps, and then every function is visited.** -/
theorem walkAll_run (p : Policy) (g : CallGraph) :
    ReflTransGen (Step p) { graph := g } (walkAll p g) ∧
      ∀ n ∈ g.functions, (walkAll p g).graph.isVisited n = true := by
  have hwalk := (walk_run (p := p) (a := { graph := g }) (Walk.proper_start g g.entrances)).1
  obtain ⟨hrun, hvis⟩ := foldl_walk_run (p := p)
    (a := walk p (Walk.start g.entrances) { graph := g })
    (walk p (Walk.start g.entrances) { graph := g }).graph.functions
  rw [walkAll_eq]
  refine ⟨hwalk.trans hrun, fun n hn => hvis n ?_⟩
  rw [(agrees_of_run hwalk).functions]
  exact hn

theorem agrees_walkAll (p : Policy) (g : CallGraph) : g.Agrees (walkAll p g).graph :=
  agrees_of_run (walkAll_run p g).1

end Analysis

end StackDepth

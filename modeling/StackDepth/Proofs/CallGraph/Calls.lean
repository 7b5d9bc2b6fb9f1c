import Mathlib.Data.List.Chain
import Mathlib.Logic.Relation
import StackDepth.CallGraph.Basic

/-!
# The call relation

A call graph as a relation between its nodes, and what chains of calls lead to.

* `Calls`, `Reaches`, `Recursive`: one call, any number of calls, and one or more calls back to
  where they start;
* `mem_callees`, `mem_callers`, `hasCall_iff`: the lists of the graph hold exactly its calls;
* `mem_functions`, `mem_entrances`: the functions are the nodes in use other than the function
  pointer, the entrances those that nothing calls;
* `reaches_of_chain`, `recursive_of_closed`: a chain leads from each of its nodes to its last, and
  one that ends where it starts makes each of its nodes recursive.
-/

namespace StackDepth

open Relation (ReflTransGen TransGen)

namespace CallGraph

variable {g : CallGraph} {a b n : Node}

/-! ## 1. Calls -/

/-- `a` calls `b`. -/
def Calls (g : CallGraph) (a b : Node) : Prop := ∃ c ∈ g.calls, c.caller = a ∧ c.callee = b

/-- Some chain of calls, possibly empty, leads from one node to the other. -/
abbrev Reaches (g : CallGraph) : Node → Node → Prop := ReflTransGen g.Calls

/-- One or more calls lead from `n` back to `n`. -/
def Recursive (g : CallGraph) (n : Node) : Prop := TransGen g.Calls n n

theorem hasCall_iff : g.hasCall a b = true ↔ g.Calls a b := by
  simp only [hasCall, Calls, List.any_eq_true, Bool.and_eq_true, beq_iff_eq]

instance : DecidableRel g.Calls := fun _ _ => decidable_of_iff _ hasCall_iff

theorem callsPointer_iff : g.callsPointer n = true ↔ g.Calls n pointer := hasCall_iff

theorem mem_recentCallees : b ∈ g.recentCallees a ↔ g.Calls a b := by
  simp only [recentCallees, Calls, List.mem_map, List.mem_filter, beq_iff_eq, and_assoc]

theorem mem_callees : b ∈ g.callees a ↔ g.Calls a b := by
  rw [callees, List.mem_reverse, mem_recentCallees]

theorem mem_callers : a ∈ g.callers b ↔ g.Calls a b := by
  simp only [callers, Calls, List.mem_reverse, List.mem_map, List.mem_filter, beq_iff_eq]
  constructor
  · intro ⟨c, ⟨hc, hb⟩, ha⟩
    exact ⟨c, hc, ha, hb⟩
  · intro ⟨c, hc, ha, hb⟩
    exact ⟨c, ⟨hc, hb⟩, ha⟩

theorem callers_eq_nil_iff : g.callers n = [] ↔ ∀ a, ¬ g.Calls a n := by
  rw [List.eq_nil_iff_forall_not_mem]
  exact forall_congr' fun a => not_congr mem_callers

/-! ## 2. Functions -/

theorem isLive_iff : g.isLive n = true ↔ ∃ f, g.function? n = some f := Option.isSome_iff_exists

theorem lt_size_of_isLive {n : Nat} (h : g.isLive n = true) : n < g.slots.size := by
  obtain ⟨f, hf⟩ := isLive_iff.mp h
  refine Classical.byContradiction fun hn => ?_
  rw [function?, Array.getElem?_eq_none (Nat.le_of_not_lt hn)] at hf
  cases hf

theorem mem_nodes : n ∈ g.nodes ↔ g.isLive n = true := by
  rw [nodes, List.mem_filter, List.mem_range]
  exact ⟨And.right, fun h => ⟨lt_size_of_isLive h, h⟩⟩

theorem mem_functionNodes {n : Nat} : n ∈ g.functionNodes ↔ n ≠ pointer ∧ g.isLive n = true := by
  rw [functionNodes, List.mem_filter, List.mem_range'_1]
  constructor
  · intro ⟨⟨h1, _⟩, hl⟩
    exact ⟨Nat.pos_iff_ne_zero.mp h1, hl⟩
  · intro ⟨h0, hl⟩
    have h1 : 1 ≤ n := Nat.pos_iff_ne_zero.mpr h0
    have hn := lt_size_of_isLive hl
    exact ⟨⟨h1, by omega⟩, hl⟩

theorem mem_functions : n ∈ g.functions ↔ n ≠ pointer ∧ g.isLive n = true := by
  rw [functions, List.mem_mergeSort, mem_functionNodes]

theorem mem_entrances : n ∈ g.entrances ↔ n ∈ g.functions ∧ g.callers n = [] := by
  rw [entrances, List.mem_filter, callers_eq_nil_iff]
  refine and_congr_right fun hn => ?_
  simp only [isEntrance, Bool.and_eq_true, bne_iff_ne, List.all_eq_true, Calls]
  constructor
  · intro ⟨_, h⟩ a ⟨c, hc, _, e⟩
    exact h c hc e
  · intro h
    exact ⟨(mem_functions.mp hn).1, fun c hc e => h c.caller ⟨c, hc, rfl, e⟩⟩

/-! ## 3. Chains -/

/-- A chain leads from its first node to each of its nodes. -/
theorem reaches_of_chain_cons {path : List Node} (h : (n :: path).IsChain g.Calls) {m : Node}
    (hm : m ∈ n :: path) : g.Reaches n m := by
  induction path generalizing n with
  | nil => exact List.mem_singleton.mp hm ▸ .refl
  | cons b path ih =>
    rw [List.isChain_cons_cons] at h
    rcases List.mem_cons.mp hm with rfl | hm
    · exact .refl
    · exact .head h.1 (ih h.2 hm)

/-- A chain leads from each of its nodes to its last. -/
theorem reaches_of_chain {path : List Node} (h : (path ++ [n]).IsChain g.Calls) {m : Node}
    (hm : m ∈ path ++ [n]) : g.Reaches m n := by
  obtain ⟨before, after, e⟩ := List.append_of_mem hm
  rw [e] at h
  refine reaches_of_chain_cons h.right_of_append ?_
  have hlast : (m :: after).getLast? = some n := by
    have h' := congrArg List.getLast? e
    rw [List.getLast?_concat, List.getLast?_append_of_ne_nil _ (List.cons_ne_nil _ _)] at h'
    exact h'.symm
  exact List.mem_of_getLast? hlast

/-- Where the last node of a chain calls one of its nodes, the last node is recursive. -/
theorem recursive_of_call_back {path : List Node} (h : (path ++ [n]).IsChain g.Calls) {m : Node}
    (hm : m ∈ path ++ [n]) (hc : g.Calls n m) : g.Recursive n :=
  TransGen.head' hc (reaches_of_chain h hm)

/-- Every node of a chain that ends where it starts is recursive. -/
theorem recursive_of_closed {inner : List Node} (h : (n :: (inner ++ [n])).IsChain g.Calls)
    {m : Node} (hm : m ∈ n :: inner) : g.Recursive m := by
  have hm' : m ∈ n :: (inner ++ [n]) := List.mem_append_left [n] hm
  have hto : g.Reaches n m := reaches_of_chain_cons h hm'
  have hchain : (n :: inner ++ [n]).IsChain g.Calls := h
  have hback : g.Reaches m n := reaches_of_chain hchain hm'
  -- the first call of the chain makes the way round proper
  obtain ⟨b, rest, hb⟩ := List.exists_cons_of_ne_nil (List.append_ne_nil_of_right_ne_nil inner
    (List.cons_ne_nil n []))
  have hn : g.Recursive n := by
    have hcall : g.Calls n b := by
      rw [hb, List.isChain_cons_cons] at h
      exact h.1
    refine TransGen.head' hcall (reaches_of_chain h.of_cons ?_)
    rw [hb]
    exact List.mem_cons_self
  exact (TransGen.trans_right hback hn).trans_left hto

end CallGraph

end StackDepth

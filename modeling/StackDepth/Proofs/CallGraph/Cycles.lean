import Mathlib.Order.Minimal
import StackDepth.CallGraph.Reach
import StackDepth.Proofs.CallGraph.WellFormed

/-!
# Search and cycle groups

The search over a table of neighbours finds exactly what steps lead to, and the cycle groups of a
graph are exactly its circles of calls.

* `contains_explore`: the search from a list of nodes;
* `mem_groupOf`: the group of `n` has the nodes that `n` leads to and that lead to `n`;
* `mem_flatten_cycles`, `cycles_disjoint`: the groups hold every recursive node, and none shares a
  node with another;
* `cycles_eq_functionCycles`: where the function pointer calls nothing, the groups are found among
  the functions alone;
* `mem_cycles_iff`, `cycles_sorted`: they are then the largest sets of functions that all lead to
  each other, with a call inside, each and all of them in order of address.
-/

namespace StackDepth

open Relation (ReflTransGen TransGen)
open Std (HashSet)

/-! ## 1. Search -/

section Search

variable {size : Nat} {next : Node → List Node}

theorem explore_sound {todo : List Node} {seen : HashSet Node} {m : Node}
    (h : (explore size next todo seen).contains m = true) :
    seen.contains m = true ∨ ∃ r ∈ todo, ReflTransGen (fun a b => b ∈ next a) r m := by
  fun_induction explore size next todo seen with
  | case1 seen => exact .inl h
  | case2 n todo seen _ _ ih =>
    rcases ih h with h | ⟨r, hr, hrm⟩
    · exact .inl h
    · exact .inr ⟨r, List.mem_cons_of_mem n hr, hrm⟩
  | case3 n todo seen _ _ ih =>
    rcases ih h with h | ⟨r, hr, hrm⟩
    · rw [HashSet.contains_insert, Bool.or_eq_true, beq_iff_eq] at h
      rcases h with rfl | h
      · exact .inr ⟨n, List.mem_cons_self, .refl⟩
      · exact .inl h
    · rcases List.mem_append.mp hr with hr | hr
      · exact .inr ⟨n, List.mem_cons_self, .head hr hrm⟩
      · exact .inr ⟨r, List.mem_cons_of_mem n hr, hrm⟩
  | case4 n todo seen _ ih =>
    rcases ih h with h | ⟨r, hr, hrm⟩
    · exact .inl h
    · exact .inr ⟨r, List.mem_cons_of_mem n hr, hrm⟩

/-- `found` has the nodes of `todo` and, with a node, the nodes one step from it. -/
structure Explored (size : Nat) (next : Node → List Node) (todo : List Node)
    (seen found : HashSet Node) : Prop where
  seen : ∀ m, seen.contains m = true → found.contains m = true
  todo : ∀ m ∈ todo, m < size → found.contains m = true
  step : ∀ a, found.contains a = true → ∀ b ∈ next a, b < size → found.contains b = true

/-- A search is closed under steps if those from what it has seen are seen or still to do. -/
theorem explored_explore {todo : List Node} {seen : HashSet Node}
    (h : ∀ a, seen.contains a = true → ∀ b ∈ next a, b < size → seen.contains b = true ∨ b ∈ todo) :
    Explored size next todo seen (explore size next todo seen) := by
  fun_induction explore size next todo seen with
  | case1 seen =>
    refine ⟨fun _ hm => hm, fun m hm => absurd hm List.not_mem_nil, fun a ha b hb hs => ?_⟩
    exact (h a ha b hb hs).resolve_right List.not_mem_nil
  | case2 n todo seen hn hseen ih =>
    have e := ih fun a ha b hb hs => (h a ha b hb hs).elim .inl fun hmem => by
      rcases List.mem_cons.mp hmem with rfl | hmem
      · exact .inl hseen
      · exact .inr hmem
    refine ⟨e.seen, fun m hm hs => ?_, e.step⟩
    rcases List.mem_cons.mp hm with rfl | hm
    · exact e.seen _ hseen
    · exact e.todo m hm hs
  | case3 n todo seen hn hseen ih =>
    have hin : ∀ m, seen.contains m = true → (seen.insert n).contains m = true := fun m hm => by
      rw [HashSet.contains_insert, hm, Bool.or_true]
    have e := ih fun a ha b hb hs => by
      rw [HashSet.contains_insert, Bool.or_eq_true, beq_iff_eq] at ha
      rcases ha with rfl | ha
      · exact .inr (List.mem_append_left _ hb)
      · rcases h a ha b hb hs with h' | h'
        · exact .inl (hin b h')
        · rcases List.mem_cons.mp h' with rfl | h'
          · exact .inl HashSet.contains_insert_self
          · exact .inr (List.mem_append_right _ h')
    refine ⟨fun m hm => e.seen m (hin m hm), fun m hm hs => ?_, e.step⟩
    rcases List.mem_cons.mp hm with rfl | hm
    · exact e.seen m HashSet.contains_insert_self
    · exact e.todo m (List.mem_append_right _ hm) hs
  | case4 n todo seen hn ih =>
    have e := ih fun a ha b hb hs => (h a ha b hb hs).elim .inl fun hmem => by
      rcases List.mem_cons.mp hmem with rfl | hmem
      · exact absurd hs hn
      · exact .inr hmem
    refine ⟨e.seen, fun m hm hs => ?_, e.step⟩
    rcases List.mem_cons.mp hm with rfl | hm
    · exact absurd hs hn
    · exact e.todo m hm hs

/-- **A search finds exactly what steps lead to**, where no step leaves the nodes below `size`. -/
theorem contains_explore {todo : List Node} {m : Node} (htodo : ∀ r ∈ todo, r < size)
    (hnext : ∀ a, ∀ b ∈ next a, b < size) :
    (explore size next todo ∅).contains m = true ↔
      ∃ r ∈ todo, ReflTransGen (fun a b => b ∈ next a) r m := by
  constructor
  · intro h
    refine (explore_sound h).resolve_left fun h => ?_
    rw [HashSet.contains_empty] at h
    cases h
  · intro ⟨r, hr, hrm⟩
    have e : Explored size next todo ∅ (explore size next todo ∅) :=
      explored_explore fun a ha => by
        rw [HashSet.contains_empty] at ha
        cases ha
    induction hrm with
    | refl => exact e.todo r hr (htodo r hr)
    | tail _ hbc ih => exact e.step _ ih _ hbc (hnext _ _ hbc)

end Search

namespace CallGraph

variable {g : CallGraph} {a b n m : Node}

/-! ## 2. Tables -/

/-- A table of what each slot has, looked up at any node. -/
theorem getD_table {f : Node → List Node} (hf : ∀ m, g.slots.size ≤ m → f m = []) (m : Node) :
    (((List.range g.slots.size).map f).toArray[m]?).getD [] = f m := by
  rw [List.getElem?_toArray, List.getElem?_map]
  by_cases h : m < g.slots.size
  · rw [List.getElem?_range h]
    rfl
  · rw [List.getElem?_eq_none (by rw [List.length_range]; exact Nat.le_of_not_lt h)]
    exact (hf m (Nat.le_of_not_lt h)).symm

theorem WellFormed.lt_size (hg : g.WellFormed) (h : g.Calls a b) :
    a < g.slots.size ∧ b < g.slots.size :=
  ⟨lt_size_of_isLive (hg.callsLive h).1, lt_size_of_isLive (hg.callsLive h).2⟩

theorem WellFormed.getD_calleeTable (hg : g.WellFormed) (m : Node) :
    g.calleeTable[m]?.getD [] = g.callees m := by
  refine getD_table (fun m hm => List.eq_nil_iff_forall_not_mem.mpr fun b hb => ?_) m
  exact Nat.not_lt.mpr hm (hg.lt_size (mem_callees.mp hb)).1

theorem WellFormed.getD_callerTable (hg : g.WellFormed) (m : Node) :
    g.callerTable[m]?.getD [] = g.callers m := by
  refine getD_table (fun m hm => List.eq_nil_iff_forall_not_mem.mpr fun b hb => ?_) m
  exact Nat.not_lt.mpr hm (hg.lt_size (mem_callers.mp hb)).2

theorem size_calleeTable : g.calleeTable.size = g.slots.size := by
  rw [calleeTable, List.size_toArray, List.length_map, List.length_range]

theorem size_callerTable : g.callerTable.size = g.slots.size := by
  rw [callerTable, List.size_toArray, List.length_map, List.length_range]

/-- The search along calls finds what one or more calls lead to. -/
theorem WellFormed.contains_reachedBy_callees (hg : g.WellFormed) :
    (reachedBy g.calleeTable n).contains m = true ↔ TransGen g.Calls n m := by
  have hlt : ∀ a, ∀ b ∈ g.callees a, b < g.calleeTable.size := fun a b hb => by
    rw [size_calleeTable]
    exact (hg.lt_size (mem_callees.mp hb)).2
  simp only [reachedBy, hg.getD_calleeTable]
  rw [contains_explore (hlt n) hlt, TransGen.head'_iff]
  simp only [mem_callees]

/-- The search against calls finds what leads to a node by one or more calls. -/
theorem WellFormed.contains_reachedBy_callers (hg : g.WellFormed) :
    (reachedBy g.callerTable n).contains m = true ↔ TransGen g.Calls m n := by
  have hlt : ∀ a, ∀ b ∈ g.callers a, b < g.callerTable.size := fun a b hb => by
    rw [size_callerTable]
    exact (hg.lt_size (mem_callers.mp hb)).1
  simp only [reachedBy, hg.getD_callerTable]
  rw [contains_explore (hlt n) hlt, ← Relation.transGen_swap, TransGen.head'_iff]
  simp only [mem_callers]

/-! ## 3. One group -/

theorem mem_ranked {ahead : Node → Bool} : n ∈ g.ranked ahead ↔ g.isLive n = true := by
  have hpointer : n ∈ (if g.isLive pointer then [pointer] else []) ↔
      n = pointer ∧ g.isLive pointer = true := by
    split <;> simp [*]
  rw [ranked, List.mem_append, List.mem_append, hpointer, List.mem_filter, List.mem_filter,
    mem_functions]
  by_cases hn : n = pointer
  · simp [hn]
  · cases ahead n <;> simp [hn]

theorem nodup_ranked (g : CallGraph) (ahead : Node → Bool) : (g.ranked ahead).Nodup := by
  have hpointer : ∀ n ∈ (if g.isLive pointer then [pointer] else []), n = pointer := by
    intro n hn
    split at hn
    · exact List.mem_singleton.mp hn
    · cases hn
  have hne : ∀ {q : Node → Bool}, ∀ n ∈ g.functions.filter q, n ≠ pointer := by
    intro q n hn
    exact (mem_functions.mp (List.mem_filter.mp hn).1).1
  refine List.nodup_append.mpr ⟨List.nodup_append.mpr ⟨functions_nodup.filter _, ?_, ?_⟩,
    functions_nodup.filter _, ?_⟩
  · split <;> simp
  · intro n hn m hm e
    exact hne n hn (e.trans (hpointer m hm))
  · intro n hn m hm e
    rcases List.mem_append.mp hn with hn | hn
    · have hahead := (List.mem_filter.mp hm).2
      rw [← e, (List.mem_filter.mp hn).2] at hahead
      cases hahead
    · exact hne m hm (e.symm.trans (hpointer n hn))

/-- The cycle group of `n`, as the graph lists it. -/
def groupOf (g : CallGraph) (n : Node) : List Node :=
  cycleGroup (g.ranked g.belowPointer) g.calleeTable g.callerTable n

/-- A group taken out of any list of nodes. -/
theorem WellFormed.mem_cycleGroup (hg : g.WellFormed) {nodes : List Node} :
    m ∈ cycleGroup nodes g.calleeTable g.callerTable n ↔
      m ∈ nodes ∧ TransGen g.Calls n m ∧ TransGen g.Calls m n := by
  unfold cycleGroup
  by_cases hn : (reachedBy g.calleeTable n).contains n = true
  · simp only [hn, if_true]
    rw [List.mem_filter, Bool.and_eq_true, hg.contains_reachedBy_callees,
      hg.contains_reachedBy_callers]
  · simp only [hn, Bool.false_eq_true, if_false, List.not_mem_nil, false_iff]
    intro ⟨_, h1, h2⟩
    exact hn (hg.contains_reachedBy_callees.mpr (h1.trans h2))

/-- **The group of `n` has the nodes that `n` leads to and that lead to `n`.** -/
theorem WellFormed.mem_groupOf (hg : g.WellFormed) :
    m ∈ g.groupOf n ↔ TransGen g.Calls n m ∧ TransGen g.Calls m n := by
  rw [groupOf, hg.mem_cycleGroup, mem_ranked]
  refine and_iff_right_of_imp fun h => ?_
  obtain ⟨_, hmc, _⟩ := TransGen.head'_iff.mp h.2
  exact (hg.callsLive hmc).1

theorem cycleGroup_sublist {nodes : List Node} {callees callers : Array (List Node)} :
    (cycleGroup nodes callees callers n).Sublist nodes := by
  unfold cycleGroup
  dsimp only
  split
  · exact List.filter_sublist
  · exact List.nil_sublist _

/-- Two nodes of one circle have the same group. -/
theorem WellFormed.groupOf_eq (hg : g.WellFormed) (h : m ∈ g.groupOf n) :
    g.groupOf m = g.groupOf n := by
  obtain ⟨hnm, hmn⟩ := hg.mem_groupOf.mp h
  have hm : (reachedBy g.calleeTable m).contains m = true :=
    hg.contains_reachedBy_callees.mpr (hmn.trans hnm)
  have hn : (reachedBy g.calleeTable n).contains n = true :=
    hg.contains_reachedBy_callees.mpr (hnm.trans hmn)
  rw [groupOf, groupOf, cycleGroup, cycleGroup]
  dsimp only
  rw [if_pos hm, if_pos hn]
  refine List.filter_congr fun k _ => ?_
  rw [Bool.eq_iff_iff, Bool.and_eq_true, Bool.and_eq_true, hg.contains_reachedBy_callees,
    hg.contains_reachedBy_callees, hg.contains_reachedBy_callers, hg.contains_reachedBy_callers]
  constructor
  · intro ⟨h1, h2⟩
    exact ⟨hnm.trans h1, h2.trans hmn⟩
  · intro ⟨h1, h2⟩
    exact ⟨hmn.trans h1, h2.trans hnm⟩

/-! ## 4. All groups -/

theorem mem_groupsFrom {firsts nodes : List Node} {callees callers : Array (List Node)}
    {ns : List Node} : ns ∈ groupsFrom firsts nodes callees callers ↔
      ∃ n ∈ firsts, ns.head? = some n ∧ ns = cycleGroup nodes callees callers n := by
  unfold groupsFrom
  simp only [List.mem_filterMap]
  refine exists_congr fun n => and_congr_right fun _ => ?_
  constructor
  · intro h
    split at h
    · rename_i hh
      cases h
      exact ⟨hh, rfl⟩
    · cases h
  · intro ⟨hh, e⟩
    rw [← e]
    exact if_pos hh

/-- What holds of two nodes where one comes first holds of the first nodes of two groups. -/
theorem pairwise_groupsFrom {firsts nodes : List Node} {callees callers : Array (List Node)}
    {R : Node → Node → Prop} (h : firsts.Pairwise R) :
    (groupsFrom firsts nodes callees callers).Pairwise fun xs ys =>
      ∀ a ∈ xs.head?, ∀ b ∈ ys.head?, R a b := by
  unfold groupsFrom
  refine List.pairwise_filterMap.mpr (h.imp fun {k l} hkl xs hx ys hy a ha b hb => ?_)
  obtain ⟨hxk, hyl⟩ : xs.head? = some k ∧ ys.head? = some l := by
    simp only at hx hy
    split at hx
    · split at hy
      · rename_i h1 h2
        cases hx
        cases hy
        exact ⟨h1, h2⟩
      · cases hy
    · cases hx
  rw [hxk] at ha
  rw [hyl] at hb
  cases ha
  cases hb
  exact hkl

theorem mem_cycles {ns : List Node} :
    ns ∈ g.cycles ↔ ∃ n, g.isLive n = true ∧ ns.head? = some n ∧ ns = g.groupOf n := by
  refine mem_groupsFrom.trans (exists_congr fun n => ?_)
  rw [mem_ranked, groupOf]

/-- The nodes of a group are in use, in any graph. -/
theorem isLive_of_mem_cycles (hn : n ∈ g.cycles.flatten) : g.isLive n = true := by
  obtain ⟨ns, hns, hn⟩ := List.mem_flatten.mp hn
  obtain ⟨r, _, _, rfl⟩ := mem_cycles.mp hns
  exact mem_ranked.mp (cycleGroup_sublist.subset hn)

/-- The groups are those of the recursive nodes. -/
theorem WellFormed.mem_cycles_iff_groupOf (hg : g.WellFormed) {ns : List Node} :
    ns ∈ g.cycles ↔ ∃ n, g.Recursive n ∧ g.groupOf n = ns := by
  rw [mem_cycles]
  constructor
  · intro ⟨n, _, hh, e⟩
    have hn : n ∈ g.groupOf n := e ▸ List.mem_of_head? hh
    exact ⟨n, (hg.mem_groupOf.mp hn).1, e.symm⟩
  · intro ⟨n, hr, e⟩
    have hmem : n ∈ g.groupOf n := hg.mem_groupOf.mpr ⟨hr, hr⟩
    -- the first node of the group stands for it
    obtain ⟨k, hk⟩ : ∃ k, (g.groupOf n).head? = some k := by
      cases hgr : g.groupOf n with
      | nil => rw [hgr] at hmem; cases hmem
      | cons k rest => exact ⟨k, rfl⟩
    have hkn := List.mem_of_head? hk
    refine ⟨k, mem_ranked.mp (cycleGroup_sublist.subset hkn), e ▸ hk, ?_⟩
    rw [hg.groupOf_eq hkn, e]

/-- **The groups hold exactly the recursive nodes.** -/
theorem WellFormed.mem_flatten_cycles (hg : g.WellFormed) :
    n ∈ g.cycles.flatten ↔ g.Recursive n := by
  rw [List.mem_flatten]
  constructor
  · intro ⟨ns, hns, hn⟩
    obtain ⟨k, _, rfl⟩ := hg.mem_cycles_iff_groupOf.mp hns
    obtain ⟨h1, h2⟩ := hg.mem_groupOf.mp hn
    exact h2.trans h1
  · intro hr
    exact ⟨g.groupOf n, hg.mem_cycles_iff_groupOf.mpr ⟨n, hr, rfl⟩,
      hg.mem_groupOf.mpr ⟨hr, hr⟩⟩

/-- **No node is in two groups.** -/
theorem WellFormed.cycles_disjoint (hg : g.WellFormed) : g.cycles.Pairwise List.Disjoint := by
  refine (pairwise_groupsFrom (nodup_ranked g _)).imp_of_mem fun {xs ys} hx hy h m hmx hmy => ?_
  obtain ⟨k, _, hk, rfl⟩ := mem_cycles.mp hx
  obtain ⟨l, _, hl, rfl⟩ := mem_cycles.mp hy
  have e : g.groupOf k = g.groupOf l := (hg.groupOf_eq hmx).symm.trans (hg.groupOf_eq hmy)
  exact h k hk l hl (Option.some.inj (hk.symm.trans ((congrArg List.head? e).trans hl)))

/-! ## 5. Groups of functions -/

/-- The groups, looked for among the functions alone. -/
def functionCycles (g : CallGraph) : List (List Node) :=
  groupsFrom g.functions g.functions g.calleeTable g.callerTable

/-- Where the function pointer calls nothing, nothing but itself is reached from it. -/
theorem ne_pointer_of_reaches (hp : ∀ b, ¬ g.Calls pointer b) (hb : b ≠ pointer)
    (h : g.Reaches a b) : a ≠ pointer := by
  intro e
  rw [e] at h
  exact hb ((Relation.reflTransGen_iff_eq hp).mp h)

theorem not_transGen_pointer (hp : ∀ b, ¬ g.Calls pointer b) : ¬ TransGen g.Calls pointer b := by
  intro h
  obtain ⟨c, hc, _⟩ := TransGen.head'_iff.mp h
  exact hp c hc

/-- A node that calls something is a function, where the function pointer calls nothing. -/
theorem WellFormed.caller_mem_functions (hg : g.WellFormed) (hp : ∀ b, ¬ g.Calls pointer b)
    (h : g.Calls n m) : n ∈ g.functions :=
  mem_functions.mpr ⟨fun e => hp m (e ▸ h), (hg.callsLive h).1⟩

theorem Recursive.mem_functions (hg : g.WellFormed) (hp : ∀ b, ¬ g.Calls pointer b)
    (h : g.Recursive n) : n ∈ g.functions := by
  obtain ⟨b, hb, _⟩ := TransGen.head'_iff.mp h
  exact hg.caller_mem_functions hp hb

/-- What a condition puts in front is in front of the rest already. -/
theorem filter_append_filter_not {l : List Node} {p : Node → Bool}
    (h : l.Pairwise fun a b => p b = true → p a = true) :
    l.filter p ++ l.filter (fun n => !p n) = l := by
  induction l with
  | nil => rfl
  | cons n l ih =>
    obtain ⟨hn, hl⟩ := List.pairwise_cons.mp h
    cases hpn : p n with
    | true => simp [hpn, ih hl]
    | false =>
      have hnone : ∀ m ∈ l, p m = false := by
        intro m hm
        cases hpm : p m with
        | false => rfl
        | true => rw [hn m hm hpm] at hpn; cases hpn
      have hfront : l.filter p = [] :=
        List.filter_eq_nil_iff.mpr fun m hm h => Bool.false_ne_true ((hnone m hm).symm.trans h)
      have hrest : l.filter (fun n => !p n) = l :=
        List.filter_eq_self.mpr fun m hm => by rw [hnone m hm, Bool.not_false]
      simp [hpn, hfront, hrest]

/-- Passing over the function pointer, the nodes by address are the functions. -/
theorem filterMap_ranked {α : Type} {f : Node → Option α} {ahead : Node → Bool}
    (hahead : g.functions.Pairwise fun a b => ahead b = true → ahead a = true)
    (hf : f pointer = none) : (g.ranked ahead).filterMap f = g.functions.filterMap f := by
  have hpointer : (if g.isLive pointer then [pointer] else []).filterMap f = [] := by
    split <;> simp [hf]
  rw [ranked, List.filterMap_append, List.filterMap_append, hpointer, List.append_nil,
    ← List.filterMap_append, filter_append_filter_not hahead]

theorem pairwise_belowPointer (g : CallGraph) :
    g.functions.Pairwise fun a b => g.belowPointer b = true → g.belowPointer a = true := by
  refine functions_pairwise_address.imp fun {a b} hab h => ?_
  exact decide_eq_true (Nat.lt_of_le_of_lt hab (of_decide_eq_true h))

theorem WellFormed.pairwise_beforePointer (hg : g.WellFormed) (toPointer : HashSet Node) :
    g.functions.Pairwise fun a b =>
      g.beforePointer toPointer b = true → g.beforePointer toPointer a = true := by
  refine hg.functions_sorted.imp fun {a b} hab h => ?_
  have hle : g.address b ≤ g.address pointer := by
    rw [beforePointer, Bool.or_eq_true, Bool.and_eq_true, beq_iff_eq] at h
    rcases h with h | ⟨h, _⟩
    · exact Nat.le_of_lt (of_decide_eq_true h)
    · exact Nat.le_of_eq h
  have hbelow : g.belowPointer a = true := decide_eq_true (Nat.lt_of_lt_of_le hab hle)
  rw [beforePointer, hbelow, Bool.true_or]

section PointerCallsNothing

variable (hg : g.WellFormed) (hp : ∀ b, ¬ g.Calls pointer b)
include hg hp

/-- Where the function pointer calls nothing, a group has no room for it. -/
theorem WellFormed.groupOf_eq_functions (n : Node) :
    g.groupOf n = cycleGroup g.functions g.calleeTable g.callerTable n := by
  have hpointer : (reachedBy g.callerTable n).contains pointer = false := by
    refine Bool.eq_false_iff.mpr fun h => ?_
    exact not_transGen_pointer hp (hg.contains_reachedBy_callers.mp h)
  unfold groupOf cycleGroup
  dsimp only
  split
  · rw [← List.filterMap_eq_filter, filterMap_ranked g.pairwise_belowPointer,
      List.filterMap_eq_filter]
    rw [Option.guard, hpointer, Bool.and_false, if_neg Bool.false_ne_true]
  · rfl

/-- **Where the function pointer calls nothing, the groups are found among the functions alone.** -/
theorem WellFormed.cycles_eq_functionCycles : g.cycles = g.functionCycles := by
  have hgroups : ∀ n, cycleGroup (g.ranked g.belowPointer) g.calleeTable g.callerTable n =
      cycleGroup g.functions g.calleeTable g.callerTable n := hg.groupOf_eq_functions hp
  have hpointer : (cycleGroup g.functions g.calleeTable g.callerTable pointer).head? ≠
      some pointer := by
    intro h
    exact not_transGen_pointer hp (hg.mem_cycleGroup.mp (List.mem_of_head? h)).2.1
  unfold cycles functionCycles groupsFrom
  simp only [hgroups]
  exact filterMap_ranked (hg.pairwise_beforePointer _) (if_neg hpointer)

theorem WellFormed.groupOf_sorted :
    (g.groupOf n).Pairwise fun a b => g.address a < g.address b := by
  rw [hg.groupOf_eq_functions hp]
  exact hg.functions_sorted.sublist cycleGroup_sublist

/-- **The groups come in strict order of the address of their first function.** -/
theorem WellFormed.cycles_sorted :
    g.cycles.Pairwise fun xs ys =>
      ∀ a ∈ xs.head?, ∀ b ∈ ys.head?, g.address a < g.address b := by
  rw [hg.cycles_eq_functionCycles hp]
  exact pairwise_groupsFrom hg.functions_sorted

end PointerCallsNothing

theorem nodup_of_sorted {xs : List Node} (hx : xs.Pairwise fun a b => g.address a < g.address b) :
    xs.Nodup := by
  refine hx.imp fun {a b} hab e => ?_
  rw [e] at hab
  exact Nat.lt_irrefl _ hab

/-- Lists in order of address that have the same functions are the same. -/
theorem eq_of_sorted {xs ys : List Node} (hx : xs.Pairwise fun a b => g.address a < g.address b)
    (hy : ys.Pairwise fun a b => g.address a < g.address b) (h : ∀ m, m ∈ xs ↔ m ∈ ys) :
    xs = ys := by
  refine List.Perm.eq_of_pairwise (fun a b _ _ hab hba => ?_) hx hy
    ((List.perm_ext_iff_of_nodup (nodup_of_sorted hx) (nodup_of_sorted hy)).mpr h)
  exact absurd (Nat.lt_trans hab hba) (Nat.lt_irrefl _)

/-! ## 6. The groups as largest sets -/

/-- All in `S` are functions, and all lead to each other. -/
def MutuallyReachable (g : CallGraph) (S : Set Node) : Prop :=
  (∀ n ∈ S, n ∈ g.functions) ∧ ∀ a ∈ S, ∀ b ∈ S, g.Reaches a b

/-- A function that a largest set leads to, and that leads back, is in the set. -/
theorem mem_of_maximal {S : Set Node} (h : Maximal g.MutuallyReachable S) (ha : a ∈ S)
    (hm : m ∈ g.functions) (ham : g.Reaches a m) (hma : g.Reaches m a) : m ∈ S := by
  obtain ⟨hf, hr⟩ := h.prop
  refine h.le_of_ge (y := Insert.insert m S) ⟨?_, ?_⟩ (Set.subset_insert m S) (Set.mem_insert m S)
  · intro n hn
    rcases Set.mem_insert_iff.mp hn with rfl | hn
    · exact hm
    · exact hf n hn
  · intro x hx y hy
    -- every member reaches `a` and is reached from it
    have hxa : g.Reaches x a := by
      rcases Set.mem_insert_iff.mp hx with rfl | hx
      · exact hma
      · exact hr x hx a ha
    have hay : g.Reaches a y := by
      rcases Set.mem_insert_iff.mp hy with rfl | hy
      · exact ham
      · exact hr a ha y hy
    exact hxa.trans hay

theorem WellFormed.callee_mem_functions (hg : g.WellFormed) (hab : g.Calls a b)
    (hb : b ≠ pointer) : b ∈ g.functions :=
  mem_functions.mpr ⟨hb, (hg.callsLive hab).2⟩

/-- The call by which a way out of a function begins, where the way comes back to it. -/
theorem WellFormed.call_of_circle (hg : g.WellFormed) (hp : ∀ b, ¬ g.Calls pointer b)
    (ha : a ∈ g.functions) (h : TransGen g.Calls a b) (hba : g.Reaches b a) :
    ∃ c ∈ g.functions, g.Calls a c ∧ g.Reaches c a := by
  obtain ⟨c, hac, hcb⟩ := TransGen.head'_iff.mp h
  have hca : g.Reaches c a := hcb.trans hba
  have hc := ne_pointer_of_reaches hp (mem_functions.mp ha).1 hca
  exact ⟨c, hg.callee_mem_functions hac hc, hac, hca⟩

/-- **The cycle groups are the largest sets of functions that all lead to each other, with a call
    inside, each in order of address.** -/
theorem WellFormed.mem_cycles_iff (hg : g.WellFormed) (hp : ∀ b, ¬ g.Calls pointer b)
    {ns : List Node} :
    ns ∈ g.cycles ↔ Maximal g.MutuallyReachable {n | n ∈ ns} ∧
      (∃ a ∈ ns, ∃ b ∈ ns, g.Calls a b) ∧ ns.Pairwise fun a b => g.address a < g.address b := by
  rw [hg.mem_cycles_iff_groupOf]
  constructor
  · intro ⟨n, hr, e⟩
    subst e
    have hn := Recursive.mem_functions hg hp hr
    refine ⟨⟨⟨?_, ?_⟩, ?_⟩, ?_, hg.groupOf_sorted hp⟩
    · intro m hm
      obtain ⟨h1, h2⟩ := hg.mem_groupOf.mp hm
      exact Recursive.mem_functions hg hp (h2.trans h1)
    · intro a ha b hb
      exact (((hg.mem_groupOf.mp ha).2).trans (hg.mem_groupOf.mp hb).1).to_reflTransGen
    · intro S hS hle m hm
      have hnS : n ∈ S := hle (hg.mem_groupOf.mpr ⟨hr, hr⟩)
      have hnm := hS.2 n hnS m hm
      have hmn := hS.2 m hm n hnS
      exact hg.mem_groupOf.mpr ⟨TransGen.trans_left hr hnm, TransGen.trans_right hmn hr⟩
    · obtain ⟨c, _, hnc, hcn⟩ := hg.call_of_circle hp hn hr .refl
      refine ⟨n, hg.mem_groupOf.mpr ⟨hr, hr⟩, c, hg.mem_groupOf.mpr ⟨.single hnc, ?_⟩, hnc⟩
      exact TransGen.trans_right hcn hr
  · intro ⟨hmax, ⟨a, ha, b, hb, hab⟩, hsorted⟩
    have hr : g.Recursive a := TransGen.head' hab (hmax.prop.2 b hb a ha)
    refine ⟨a, hr, eq_of_sorted (hg.groupOf_sorted hp) hsorted fun m => ?_⟩
    rw [hg.mem_groupOf]
    constructor
    · intro ⟨h1, h2⟩
      exact mem_of_maximal hmax ha (Recursive.mem_functions hg hp (h2.trans h1))
        h1.to_reflTransGen h2.to_reflTransGen
    · intro hm
      exact ⟨TransGen.trans_left hr (hmax.prop.2 a ha m hm),
        TransGen.trans_right (hmax.prop.2 m hm a ha) hr⟩

/-- A largest set has a call inside if it has two functions, or one that calls itself. -/
theorem WellFormed.call_inside_iff (hg : g.WellFormed) (hp : ∀ b, ¬ g.Calls pointer b)
    {ns : List Node} (h : Maximal g.MutuallyReachable {n | n ∈ ns}) (hnd : ns.Nodup) :
    (∃ a ∈ ns, ∃ b ∈ ns, g.Calls a b) ↔ 2 ≤ ns.length ∨ ∃ n, ns = [n] ∧ g.Calls n n := by
  match ns, hnd, h with
  | [], _, _ =>
    refine iff_of_false (fun ⟨a, ha, _⟩ => absurd ha List.not_mem_nil) fun h => ?_
    rcases h with h | ⟨n, h, _⟩
    · exact absurd h (by decide)
    · cases h
  | [n], _, _ =>
    constructor
    · intro ⟨a, ha, b, hb, hab⟩
      rw [List.mem_singleton] at ha hb
      rw [ha, hb] at hab
      exact .inr ⟨n, rfl, hab⟩
    · intro h
      rcases h with h | ⟨k, e, hk⟩
      · exact absurd h (Nat.not_succ_le_self 1)
      · cases e
        exact ⟨n, List.mem_cons_self, n, List.mem_cons_self, hk⟩
  | n :: k :: rest, hnd, h =>
    refine iff_of_true ?_ (.inl (Nat.le_add_left 2 rest.length))
    have hn : n ∈ n :: k :: rest := List.mem_cons_self
    have hk : k ∈ n :: k :: rest := List.mem_cons_of_mem n List.mem_cons_self
    have hne : k ≠ n := fun e => (List.nodup_cons.mp hnd).1 (e ▸ List.mem_cons_self)
    -- the first call on the way from one function to another stays in the set
    have hnk : TransGen g.Calls n k :=
      (Relation.reflTransGen_iff_eq_or_transGen.mp (h.prop.2 n hn k hk)).resolve_left hne
    obtain ⟨c, hc, hnc, hcn⟩ :=
      hg.call_of_circle hp (h.prop.1 n hn) hnk (h.prop.2 k hk n hn)
    exact ⟨n, hn, c, mem_of_maximal h hn hc (.single hnc) hcn, hnc⟩

end CallGraph

end StackDepth

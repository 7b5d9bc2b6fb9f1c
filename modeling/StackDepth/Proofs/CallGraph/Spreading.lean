import StackDepth.Proofs.CallGraph.Marks

/-!
# Spreading imprecision

A queue of imprecise nodes is worked off: what calls one of them becomes imprecise and, if it was
not so before, is put at the end of the queue.

* `agrees_spreadImprecision`: marks are all that spreading writes;
* `isImprecise_of_spreadFrom`: what it marks leads to a node of the queue;
* `Spread`, `spread_spreadFrom`: in the end what calls an imprecise function is imprecise;
* `spreadImprecision_spreadImprecision`: so spreading again marks nothing;
* `isImprecise_spreadImprecision`: where the function pointer calls nothing, exactly those functions
  are marked that lead to an imprecise one;
* `spreadAtOnce`, `spreadImprecision_eq_spreadAtOnce`: they might then be found by one search and
  marked at once.

The function pointer is not put into the queue where it is imprecise before, so what calls it need
not be imprecise afterwards.
-/

namespace StackDepth

namespace CallGraph

open Relation (ReflTransGen)

variable {g : CallGraph} {a n m : Node} {callers : Array (List Node)} {queue : List Node}

/-! ## 1. What spreading writes -/

theorem isPrecise_eq (g : CallGraph) (n : Node) :
    g.isPrecise n = (g.isLive n && !g.isImprecise n) := by
  unfold isPrecise isLive isImprecise
  cases g.function? n with
  | none => rfl
  | some f => rfl

theorem isLive_of_isImprecise (h : g.isImprecise n = true) : g.isLive n = true := by
  rw [isImprecise] at h
  rw [isLive]
  cases hf : g.function? n with
  | none =>
    rw [hf] at h
    cases h
  | some f => rfl

/-- Spreading marks some nodes. -/
theorem exists_spreadFrom_eq (callers : Array (List Node)) (queue : List Node) (g : CallGraph) :
    ∃ ns, spreadFrom callers queue g = g.markImprecise ns := by
  fun_induction spreadFrom callers queue g with
  | case1 g => exact ⟨[], rfl⟩
  | case2 n queue g found ih =>
    obtain ⟨ns, hns⟩ := ih
    refine ⟨found ++ ns, ?_⟩
    rw [hns, markImprecise, markImprecise, markImprecise, List.foldl_append]

theorem exists_spreadImprecision_eq (g : CallGraph) :
    ∃ ns, g.spreadImprecision = g.markImprecise ns :=
  exists_spreadFrom_eq g.callerTable (g.functions.filter g.isImprecise) g

theorem agrees_spreadImprecision (g : CallGraph) : Agrees g g.spreadImprecision := by
  obtain ⟨ns, hns⟩ := g.exists_spreadImprecision_eq
  rw [hns]
  exact agrees_markImprecise ns

@[simp] theorem total_spreadImprecision (g : CallGraph) (m : Node) :
    g.spreadImprecision.total m = g.total m := by
  obtain ⟨ns, hns⟩ := g.exists_spreadImprecision_eq
  rw [hns, total_markImprecise]

@[simp] theorem isCycle_spreadImprecision (g : CallGraph) (m : Node) :
    g.spreadImprecision.isCycle m = g.isCycle m := by
  obtain ⟨ns, hns⟩ := g.exists_spreadImprecision_eq
  rw [hns, isCycle_markImprecise]

@[simp] theorem isVisited_spreadImprecision (g : CallGraph) (m : Node) :
    g.spreadImprecision.isVisited m = g.isVisited m := by
  obtain ⟨ns, hns⟩ := g.exists_spreadImprecision_eq
  rw [hns, isVisited_markImprecise_eq]

/-- A mark that is set stays. -/
theorem isImprecise_spreadFrom_of_isImprecise (h : g.isImprecise m = true) :
    (spreadFrom callers queue g).isImprecise m = true := by
  obtain ⟨ns, hns⟩ := exists_spreadFrom_eq callers queue g
  rw [hns, isImprecise_markImprecise]
  exact .inl h

/-! ## 2. What spreading reaches -/

/-- What one turn marks: callers of the node whose turn it is. -/
theorem isImprecise_mark_found {found : List Node}
    (hfound : found = (callers[n]?.getD []).filter g.isPrecise) :
    (g.markImprecise found).isImprecise m = true ↔
      g.isImprecise m = true ∨ (m ∈ callers[n]?.getD [] ∧ g.isLive m = true) := by
  rw [isImprecise_markImprecise, hfound, List.mem_filter, isPrecise_eq]
  cases g.isLive m <;> cases g.isImprecise m <;> simp

/-- **What is marked leads to a node of the queue.** -/
theorem isImprecise_of_spreadFrom (h : (spreadFrom callers queue g).isImprecise m = true) :
    g.isImprecise m = true ∨
      ∃ r ∈ queue, ReflTransGen (fun a b => b ∈ callers[a]?.getD []) r m := by
  fun_induction spreadFrom callers queue g with
  | case1 g => exact .inl h
  | case2 n queue g found ih =>
    rcases ih h with h | ⟨r, hr, hrm⟩
    · rcases (isImprecise_mark_found rfl).mp h with h | ⟨hm, _⟩
      · exact .inl h
      · exact .inr ⟨n, List.mem_cons_self, .single hm⟩
    · rcases List.mem_append.mp hr with hr | hr
      · exact .inr ⟨r, List.mem_cons_of_mem n hr, hrm⟩
      · exact .inr ⟨n, List.mem_cons_self, .head (List.mem_filter.mp hr).1 hrm⟩

/-- What calls an imprecise function is imprecise, but for the functions that still wait. -/
def Spread (callers : Array (List Node)) (queue : List Node) (g : CallGraph) : Prop :=
  ∀ a, a ≠ pointer → g.isImprecise a = true → a ∉ queue →
    ∀ c ∈ callers[a]?.getD [], g.isLive c = true → g.isImprecise c = true

/-- One turn: the callers of its node are imprecise after it, and whatever it marks waits. -/
theorem Spread.turn {found : List Node} (hs : Spread callers (n :: queue) g)
    (hfound : found = (callers[n]?.getD []).filter g.isPrecise) :
    Spread callers (queue ++ found) (g.markImprecise found) := by
  intro a ha hi hwait c hc hl
  rw [(agrees_markImprecise found).isLive] at hl
  refine (isImprecise_mark_found hfound).mpr ?_
  by_cases han : a = n
  · exact .inr ⟨han ▸ hc, hl⟩
  rw [List.mem_append, not_or] at hwait
  have hold : g.isImprecise a = true :=
    ((isImprecise_markImprecise g found a).mp hi).resolve_right fun h => hwait.2 h.1
  exact .inl (hs a ha hold (fun h => (List.mem_cons.mp h).elim han hwait.1) c hc hl)

/-- **Once no function waits, what calls an imprecise function is imprecise.** -/
theorem spread_spreadFrom (hs : Spread callers queue g) :
    Spread callers [] (spreadFrom callers queue g) := by
  fun_induction spreadFrom callers queue g with
  | case1 g => exact hs
  | case2 n queue g found ih => exact ih (hs.turn rfl)

/-- At the start every imprecise function waits. -/
theorem spread_start (g : CallGraph) :
    Spread g.callerTable (g.functions.filter g.isImprecise) g := by
  intro a ha hi hwait
  have hmem : a ∈ g.functions := mem_functions.mpr ⟨ha, isLive_of_isImprecise hi⟩
  exact absurd (List.mem_filter.mpr ⟨hmem, hi⟩) hwait

theorem spread_spreadImprecision (g : CallGraph) : Spread g.callerTable [] g.spreadImprecision :=
  spread_spreadFrom g.spread_start

/-! ## 3. Spreading again -/

/-- Where no caller is precise, nothing is marked. -/
theorem spreadFrom_eq_self
    (h : ∀ n ∈ queue, ∀ c ∈ callers[n]?.getD [], g.isPrecise c = false) :
    spreadFrom callers queue g = g := by
  induction queue with
  | nil => rw [spreadFrom]
  | cons n queue ih =>
    have hfound : (callers[n]?.getD []).filter g.isPrecise = [] :=
      List.filter_eq_nil_iff.mpr fun c hc hprecise =>
        Bool.false_ne_true ((h n List.mem_cons_self c hc).symm.trans hprecise)
    rw [spreadFrom, hfound, List.append_nil]
    exact ih fun m hm => h m (List.mem_cons_of_mem n hm)

/-- **Spreading again marks nothing.** -/
theorem spreadImprecision_spreadImprecision (g : CallGraph) :
    g.spreadImprecision.spreadImprecision = g.spreadImprecision := by
  have e := agrees_spreadImprecision g
  refine spreadFrom_eq_self fun n hn c hc => ?_
  rw [e.callerTable] at hc
  obtain ⟨hf, hi⟩ := List.mem_filter.mp hn
  rw [isPrecise_eq]
  cases hl : g.spreadImprecision.isLive c with
  | false => rfl
  | true =>
    rw [spread_spreadImprecision g n (mem_functions.mp hf).1 hi List.not_mem_nil c hc hl]
    rfl

/-! ## 4. Where the function pointer calls nothing -/

/-- From callee to caller, steps lead from the queue to what leads to an imprecise function. -/
theorem WellFormed.exists_waiting_iff (hg : g.WellFormed) :
    (∃ r ∈ g.functions.filter g.isImprecise,
      ReflTransGen (fun a b => b ∈ g.callerTable[a]?.getD []) r m) ↔
      ∃ r ∈ g.functions, g.isImprecise r = true ∧ g.Reaches m r := by
  simp only [List.mem_filter, hg.getD_callerTable, mem_callers, and_assoc]
  refine exists_congr fun r => and_congr_right fun _ => and_congr_right fun _ => ?_
  exact Relation.reflTransGen_swap

/-- **Spreading makes exactly those functions imprecise that lead to an imprecise one.** -/
theorem WellFormed.isImprecise_spreadImprecision (hg : g.WellFormed)
    (hp : ∀ b, ¬ g.Calls pointer b) (hm : m ∈ g.functions) :
    g.spreadImprecision.isImprecise m = true ↔
      ∃ r ∈ g.functions, g.isImprecise r = true ∧ g.Reaches m r := by
  constructor
  · intro h
    rcases isImprecise_of_spreadFrom h with h | h
    · exact ⟨m, hm, h, .refl⟩
    · exact hg.exists_waiting_iff.mp h
  · intro ⟨r, hr, hi, hmr⟩
    have e := agrees_spreadImprecision g
    -- from the imprecise function back along the calls, none of which the function pointer makes
    induction hmr using ReflTransGen.head_induction_on with
    | refl => exact isImprecise_spreadFrom_of_isImprecise hi
    | @head a c hac hcr ih =>
      have hc : c ∈ g.functions :=
        hg.callee_mem_functions hac (ne_pointer_of_reaches hp (mem_functions.mp hr).1 hcr)
      refine spread_spreadImprecision g c (mem_functions.mp hc).1 (ih hc) List.not_mem_nil a ?_ ?_
      · rw [hg.getD_callerTable, mem_callers]
        exact hac
      · rw [e.isLive]
        exact (mem_functions.mp hm).2

/-- What leads to an imprecise function is searched for first, and then marked. -/
def spreadAtOnce (g : CallGraph) : CallGraph :=
  let callers := g.callerTable
  let found := explore callers.size (fun m => callers[m]?.getD [])
    (g.functions.filter g.isImprecise) ∅
  g.markImprecise (g.nodes.filter found.contains)

/-- **Where the function pointer calls nothing, one search finds what is marked.** -/
theorem WellFormed.spreadImprecision_eq_spreadAtOnce (hg : g.WellFormed)
    (hp : ∀ b, ¬ g.Calls pointer b) : g.spreadImprecision = g.spreadAtOnce := by
  have hqueue : ∀ r ∈ g.functions.filter g.isImprecise, r < g.callerTable.size := by
    intro r hr
    rw [size_callerTable]
    exact lt_size_of_isLive (mem_functions.mp (List.mem_filter.mp hr).1).2
  have hcallers : ∀ a : Node, ∀ b ∈ g.callerTable[a]?.getD [], b < g.callerTable.size := by
    intro a b hb
    rw [hg.getD_callerTable, mem_callers] at hb
    rw [size_callerTable]
    exact (hg.lt_size hb).1
  obtain ⟨ns, hns⟩ := g.exists_spreadImprecision_eq
  rw [hns, spreadAtOnce]
  refine markImprecise_congr fun m => ?_
  rw [← hns, isImprecise_markImprecise, List.mem_filter, mem_nodes,
    contains_explore hqueue hcallers, hg.exists_waiting_iff]
  constructor
  · intro h
    have hl : g.isLive m = true := (agrees_spreadImprecision g).isLive m ▸ isLive_of_isImprecise h
    refine (isImprecise_of_spreadFrom h).imp_right fun h => ?_
    exact ⟨⟨hl, hg.exists_waiting_iff.mp h⟩, hl⟩
  · intro h
    rcases h with h | ⟨⟨hl, r, hr, hi, hmr⟩, _⟩
    · exact isImprecise_spreadFrom_of_isImprecise h
    · have hm := ne_pointer_of_reaches hp (mem_functions.mp hr).1 hmr
      exact (hg.isImprecise_spreadImprecision hp (mem_functions.mpr ⟨hm, hl⟩)).mpr ⟨r, hr, hi, hmr⟩

end CallGraph

end StackDepth

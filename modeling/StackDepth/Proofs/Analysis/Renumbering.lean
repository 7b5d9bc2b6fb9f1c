import Mathlib.Data.List.ReduceOption
import StackDepth.Proofs.Analysis.CycleReport
import StackDepth.Proofs.Analysis.Totals
import StackDepth.Proofs.CallGraph.Table

/-!
# Graphs with the same table

Two graphs can hold the same functions at the same addresses and the same calls between them in
other slots and in another order. An analysis then walks another way, and yet says the same of every
address, but for the totals of functions that lead to recursion.

* `SameTable`, `Twins`: such graphs, and the nodes of one address in both;
* `SameTable.calls`, `SameTable.reaches`, `SameTable.recursive_iff`: twins call, reach and recur
  alike;
* `SameTable.map_cycles`: the cycle groups have the same addresses, in the same order;
* `SameTable.chainSizes`: the chains from twins take the same bytes;
* `SameTable.alike_analyse`, `SameTable.precise_analyse`, `SameTable.map_cycles_analyse`: what the
  two analyses say.
-/

namespace StackDepth

open Relation (ReflTransGen TransGen)

namespace CallGraph

variable {g h : CallGraph} {a a' b b' n m : Node} {p : Policy}

/-! ## 1. Twins -/

/-- The same sizes and frames at the same addresses, and the same calls between them, in whatever
    slots and order. -/
structure SameTable (g h : CallGraph) : Prop where
  left : g.WellFormed
  right : h.WellFormed
  size : ∀ x, (h.at? x).map (·.size) = (g.at? x).map (·.size)
  dynamic : ∀ x, (h.at? x).map (·.dynamic) = (g.at? x).map (·.dynamic)
  pairs : ∀ q, q ∈ h.pairs ↔ q ∈ g.pairs

theorem SameTable.symm (e : SameTable g h) : SameTable h g :=
  ⟨e.right, e.left, fun x => (e.size x).symm, fun x => (e.dynamic x).symm,
    fun q => (e.pairs q).symm⟩

/-- Nodes of the two graphs that are in use at the same place. -/
structure Twins (g h : CallGraph) (a b : Node) : Prop where
  left : g.isLive a = true
  right : h.isLive b = true
  place : h.place b = g.place a

theorem Twins.symm (t : Twins g h a b) : Twins h g b a := ⟨t.right, t.left, t.place.symm⟩

theorem twins_of_address (ha : a ∈ g.functions) (hb : b ∈ h.functions)
    (hab : h.address b = g.address a) : Twins g h a b where
  left := (mem_functions.mp ha).2
  right := (mem_functions.mp hb).2
  place := by rw [place_of_mem ha, place_of_mem hb, hab]

/-- The twin of a function is a function at the same address. -/
theorem Twins.mem_functions (t : Twins g h a b) (ha : a ∈ g.functions) :
    b ∈ h.functions ∧ h.address b = g.address a := by
  have hplace := t.place.trans (place_of_mem ha)
  have hb : b ∈ h.functions := by
    refine CallGraph.mem_functions.mpr ⟨fun hb => ?_, t.right⟩
    rw [hb, place_pointer] at hplace
    cases hplace
  rw [place_of_mem hb] at hplace
  exact ⟨hb, Option.some.inj hplace⟩

namespace SameTable

theorem twins_pointer (e : SameTable g h) : Twins g h pointer pointer :=
  ⟨e.left.pointerLive, e.right.pointerLive, by rw [place_pointer, place_pointer]⟩

/-- Every node in use has a twin. -/
theorem exists_twin (e : SameTable g h) (ha : g.isLive a = true) : ∃ b, Twins g h a b := by
  by_cases hp : a = pointer
  · exact ⟨pointer, hp ▸ e.twins_pointer⟩
  · have hmem : a ∈ g.functions := mem_functions.mpr ⟨hp, ha⟩
    obtain ⟨f, hf⟩ := isLive_iff.mp ha
    have hsize := e.size (g.address a)
    rw [e.left.at?_address hmem, hf] at hsize
    obtain ⟨f', hf', _⟩ := Option.map_eq_some_iff.mp hsize
    obtain ⟨b, _, hb, hab, _⟩ := e.right.find?_of_at? hf'
    exact ⟨b, twins_of_address hmem hb hab⟩

theorem twin_unique (e : SameTable g h) (t : Twins g h a b) (t' : Twins g h a b') : b = b' :=
  e.right.place_inj t.right t'.right (t.place.trans t'.place.symm)

theorem ownSize (e : SameTable g h) (t : Twins g h a b) (ha : a ∈ g.functions) :
    h.ownSize b = g.ownSize a := by
  obtain ⟨hb, hab⟩ := t.mem_functions ha
  have hsize := e.size (g.address a)
  rw [e.left.at?_address ha, ← hab, e.right.at?_address hb] at hsize
  exact congrArg (Option.getD · 0) hsize

theorem isDynamic (e : SameTable g h) (t : Twins g h a b) (ha : a ∈ g.functions) :
    h.isDynamic b = g.isDynamic a := by
  obtain ⟨hb, hab⟩ := t.mem_functions ha
  have hdynamic := e.dynamic (g.address a)
  rw [e.left.at?_address ha, ← hab, e.right.at?_address hb] at hdynamic
  exact congrArg (Option.getD · false) hdynamic

/-- The functions are listed alike. -/
theorem map_address_functions (e : SameTable g h) :
    h.functions.map h.address = g.functions.map g.address := by
  have hsame : ∀ x, (∃ f, h.at? x = some f) ↔ x ∈ (g.functions.map g.address).toFinset := by
    intro x
    rw [List.mem_toFinset, List.mem_map]
    constructor
    · rintro ⟨f, hf⟩
      obtain ⟨b, _, hb, rfl, _⟩ := e.right.find?_of_at? hf
      obtain ⟨a, t⟩ := e.symm.exists_twin (CallGraph.mem_functions.mp hb).2
      exact ⟨a, t.mem_functions hb⟩
    · rintro ⟨a, ha, rfl⟩
      obtain ⟨b, t⟩ := e.exists_twin (CallGraph.mem_functions.mp ha).2
      obtain ⟨hb, hab⟩ := t.mem_functions ha
      obtain ⟨f, hf⟩ := isLive_iff.mp t.right
      rw [← hab, e.right.at?_address hb]
      exact ⟨f, hf⟩
  have hsorted : (g.functions.map g.address).Pairwise (· < ·) :=
    List.pairwise_map.mpr e.left.functions_sorted
  rw [e.right.map_address_functions hsame]
  exact (List.toFinset_sort _ (hsorted.imp fun h => Nat.ne_of_lt h)).mpr
    (hsorted.imp fun h => Nat.le_of_lt h)

end SameTable

/-- What is the same for twins is listed alike where the addresses are. -/
theorem map_eq_of_map_address {β : Type} {r r' : Node → β} {xs ys : List Node}
    (hr : ∀ {a b}, Twins g h a b → a ∈ g.functions → r' b = r a)
    (hx : ∀ a ∈ xs, a ∈ g.functions) (hy : ∀ b ∈ ys, b ∈ h.functions)
    (hmap : ys.map h.address = xs.map g.address) : ys.map r' = xs.map r := by
  induction xs generalizing ys with
  | nil =>
    rw [List.map_eq_nil_iff.mp hmap]
    rfl
  | cons a xs ih =>
    obtain ⟨b, ys, rfl, hab, hrest⟩ := List.map_eq_cons_iff.mp hmap
    have ha := hx a List.mem_cons_self
    have t := twins_of_address ha (hy b List.mem_cons_self) hab
    rw [List.map_cons, List.map_cons, hr t ha, ih (fun c hc => hx c (List.mem_cons_of_mem a hc))
      (fun c hc => hy c (List.mem_cons_of_mem b hc)) hrest]

namespace SameTable

theorem map_functions (e : SameTable g h) {β : Type} {r r' : Node → β}
    (hr : ∀ {a b}, Twins g h a b → a ∈ g.functions → r' b = r a) :
    h.functions.map r' = g.functions.map r :=
  map_eq_of_map_address hr (fun _ ha => ha) (fun _ hb => hb) e.map_address_functions

/-! ## 2. Calls -/

theorem calls (e : SameTable g h) (t : Twins g h a b) (t' : Twins g h a' b') (hc : g.Calls a a') :
    h.Calls b b' := by
  rw [← e.right.mem_pairs t.right t'.right, t.place, t'.place, e.pairs,
    e.left.mem_pairs t.left t'.left]
  exact hc

/-- **A chain of calls has a twin**, node by node. -/
theorem transGen (e : SameTable g h) (t : Twins g h a b) (t' : Twins g h a' b')
    (hr : TransGen g.Calls a a') : TransGen h.Calls b b' := by
  induction hr generalizing b' with
  | single hc => exact .single (e.calls t t' hc)
  | tail _ hc ih =>
    obtain ⟨c, tc⟩ := e.exists_twin (e.left.callsLive hc).1
    exact (ih tc).tail (e.calls tc t' hc)

theorem reaches (e : SameTable g h) (t : Twins g h a b) (t' : Twins g h a' b')
    (hr : g.Reaches a a') : h.Reaches b b' := by
  rcases Relation.reflTransGen_iff_eq_or_transGen.mp hr with rfl | hr
  · rw [e.twin_unique t t']
  · exact (e.transGen t t' hr).to_reflTransGen

theorem recursive_iff (e : SameTable g h) (t : Twins g h a b) : h.Recursive b ↔ g.Recursive a :=
  ⟨e.symm.transGen t.symm t.symm, e.transGen t t⟩

theorem callers_eq_nil (e : SameTable g h) (t : Twins g h a b) (hn : g.callers a = []) :
    h.callers b = [] := by
  refine callers_eq_nil_iff.mpr fun c hc => ?_
  obtain ⟨d, td⟩ := e.symm.exists_twin (e.right.callsLive hc).1
  exact callers_eq_nil_iff.mp hn d (e.symm.calls td t.symm hc)

/-- Twins call the same places. -/
theorem mem_map_place_callees (e : SameTable g h) (t : Twins g h a b) (y : Option Nat) :
    y ∈ (h.callees b).map h.place ↔ y ∈ (g.callees a).map g.place := by
  rw [e.right.map_place_callees t.right, e.left.map_place_callees t.left, t.place, List.mem_map,
    List.mem_map]
  refine exists_congr fun q => and_congr_left fun _ => ?_
  rw [List.mem_filter, List.mem_filter, e.pairs]

/-! ## 3. Cycle groups -/

theorem mem_map_groupOf (e : SameTable g h) (hp : ∀ b, ¬ g.Calls pointer b) (t : Twins g h a b)
    {x : Nat} (hx : x ∈ (g.groupOf a).map g.address) : x ∈ (h.groupOf b).map h.address := by
  obtain ⟨m, hm, rfl⟩ := List.mem_map.mp hx
  obtain ⟨hto, hback⟩ := e.left.mem_groupOf.mp hm
  have hmf := Recursive.mem_functions e.left hp (hback.trans hto)
  obtain ⟨m', tm⟩ := e.exists_twin (CallGraph.mem_functions.mp hmf).2
  exact List.mem_map.mpr ⟨m', e.right.mem_groupOf.mpr
    ⟨e.transGen t tm hto, e.transGen tm t hback⟩, (tm.mem_functions hmf).2⟩

/-- Twins have groups with the same addresses. -/
theorem map_groupOf (e : SameTable g h) (hp : ∀ b, ¬ g.Calls pointer b)
    (hp' : ∀ b, ¬ h.Calls pointer b) (t : Twins g h a b) :
    (h.groupOf b).map h.address = (g.groupOf a).map g.address := by
  have hright : ((h.groupOf b).map h.address).Pairwise (· < ·) :=
    List.pairwise_map.mpr (e.right.groupOf_sorted hp')
  have hleft : ((g.groupOf a).map g.address).Pairwise (· < ·) :=
    List.pairwise_map.mpr (e.left.groupOf_sorted hp)
  refine List.Perm.eq_of_pairwise (fun x y _ _ hxy hyx => ?_) hright hleft
    ((List.perm_ext_iff_of_nodup (hright.imp Nat.ne_of_lt) (hleft.imp Nat.ne_of_lt)).mpr fun x =>
      ⟨e.symm.mem_map_groupOf hp' t.symm, e.mem_map_groupOf hp t⟩)
  exact absurd (Nat.lt_trans hxy hyx) (Nat.lt_irrefl _)

end SameTable

/-- The cycle groups by address: of each function its group, if it is the first of it. -/
theorem WellFormed.map_cycles (hg : g.WellFormed) (hp : ∀ b, ¬ g.Calls pointer b) :
    g.cycles.map (·.map g.address) =
      (g.functions.map fun n =>
        if ((g.groupOf n).map g.address).head? = some (g.address n)
        then some ((g.groupOf n).map g.address) else none).reduceOption := by
  have hcycles : g.cycles = g.functions.filterMap fun n =>
      if (g.groupOf n).head? = some n then some (g.groupOf n) else none := by
    simp only [hg.groupOf_eq_functions hp]
    exact hg.cycles_eq_functionCycles hp
  rw [hcycles, List.map_filterMap, List.reduceOption, List.filterMap_map]
  refine List.filterMap_congr fun n hn => ?_
  have hhead : ((g.groupOf n).map g.address).head? = some (g.address n) ↔
      (g.groupOf n).head? = some n := by
    rw [List.head?_map, Option.map_eq_some_iff]
    constructor
    · rintro ⟨m, hm, hmn⟩
      obtain ⟨hnm, hmn'⟩ := hg.mem_groupOf.mp (List.mem_of_head? hm)
      rw [hm, hg.addressInj (Recursive.mem_functions hg hp (hmn'.trans hnm)) hn hmn]
    · exact fun hm => ⟨n, hm, rfl⟩
  simp only [Function.comp, id, hhead]
  split
  · rfl
  · rfl

/-- **The cycle groups have the same addresses**, in the same order. -/
theorem SameTable.map_cycles (e : SameTable g h) (hp : ∀ b, ¬ g.Calls pointer b)
    (hp' : ∀ b, ¬ h.Calls pointer b) :
    h.cycles.map (·.map h.address) = g.cycles.map (·.map g.address) := by
  rw [e.right.map_cycles hp', e.left.map_cycles hp]
  refine congrArg List.reduceOption (e.map_functions fun {a b} t ha => ?_)
  rw [e.map_groupOf hp hp' t, (t.mem_functions ha).2]

/-! ## 4. Chains -/

namespace SameTable

theorem recursionFree (e : SameTable g h) (t : Twins g h a b) (hfree : g.RecursionFree a) :
    h.RecursionFree b := by
  intro m hm hrec
  have hlive : h.isLive m = true := by
    cases hm with
    | refl => exact t.right
    | tail _ hc => exact (e.right.callsLive hc).2
  obtain ⟨m', tm⟩ := e.symm.exists_twin hlive
  exact hfree m' (e.symm.reaches t.symm tm hm) ((e.symm.recursive_iff tm).mpr hrec)

/-- **A chain from one twin has one from the other that takes the same bytes.** -/
theorem exists_chain (e : SameTable g h) {chain : List Node} (t : Twins g h a b)
    (hc : g.IsCallChain a chain) :
    ∃ chain', h.IsCallChain b chain' ∧ h.chainSize chain' = g.chainSize chain := by
  induction chain generalizing a b with
  | nil => cases hc.head
  | cons x rest ih =>
    have ha : a ∈ g.functions := hc.functions a (List.mem_of_head? hc.head)
    have hb := (t.mem_functions ha).1
    have hsize := e.ownSize t ha
    rcases hc.cases with hone | ⟨c, rest', hcons, hcall, hp, hrest⟩
    · refine ⟨[b], isCallChain_singleton hb, ?_⟩
      rw [hone, chainSize, chainSize, List.map_singleton, List.map_singleton, hsize]
    · obtain ⟨rfl, rfl⟩ := List.cons.inj hcons
      obtain ⟨c', tc⟩ := e.exists_twin (e.left.callsLive hcall).2
      obtain ⟨chain', hchain', hsum⟩ := ih tc hrest
      refine ⟨b :: chain', hchain'.cons hb (e.calls t tc hcall), ?_⟩
      rw [chainSize, chainSize, List.map_cons, List.map_cons, List.sum_cons, List.sum_cons, hsize]
      exact congrArg (g.ownSize _ + ·) hsum

theorem chainSizes (e : SameTable g h) (t : Twins g h a b) : h.chainSizes b = g.chainSizes a := by
  have hsub : ∀ {g h : CallGraph} {a b : Node}, SameTable g h → Twins g h a b →
      g.chainSizes a ⊆ h.chainSizes b := by
    rintro g h a b e t s ⟨chain, hchain, rfl⟩
    exact e.exists_chain t hchain
  exact Set.Subset.antisymm (hsub e.symm t.symm) (hsub e t)

/-! ## 5. Doubts -/

theorem isDoubted (e : SameTable g h) (hregard : p.regardStartup = true) (t : Twins g h a b)
    (hd : g.IsDoubted p a) : h.IsDoubted p b := by
  obtain ⟨m, hm, hreach, hdoubt⟩ := hd
  obtain ⟨m', tm⟩ := e.exists_twin (CallGraph.mem_functions.mp hm).2
  refine ⟨m', (tm.mem_functions hm).1, e.reaches t tm hreach, ?_⟩
  have hregarded : h.isRegarded p m' = true := by
    obtain ⟨f, hf⟩ := isLive_iff.mp tm.right
    rw [isRegarded, hf]
    show p.regards f = true
    rw [Policy.regards, hregard, Bool.true_or]
  rcases hdoubt with hrec | ⟨_, hdynamic | hpointer⟩
  · exact .inl ((e.recursive_iff tm).mpr hrec)
  · exact .inr ⟨hregarded, .inl ((e.isDynamic tm hm).trans hdynamic)⟩
  · exact .inr ⟨hregarded, .inr (e.calls tm e.twins_pointer hpointer)⟩

end SameTable

/-! ## 6. After the analysis -/

/-- A graph that no analysis has marked, and whose function pointer calls nothing. -/
structure Fresh (g : CallGraph) : Prop where
  pointer : ∀ b, ¬ g.Calls pointer b
  isVisited : ∀ n ∈ g.functions, g.isVisited n = false
  isImprecise : ∀ n ∈ g.functions, g.isImprecise n = false
  isCycle : ∀ n ∈ g.functions, g.isCycle n = false

namespace SameTable

theorem isImprecise_analyse (e : SameTable g h) (hg : Fresh g) (hh : Fresh h)
    (hregard : p.regardStartup = true) (t : Twins g h a b) (ha : a ∈ g.functions) :
    (h.analyse p).2.1.isImprecise b = (g.analyse p).2.1.isImprecise a := by
  rw [Bool.eq_iff_iff,
    CallGraph.isImprecise_analyse p e.left hg.pointer hg.isVisited hg.isImprecise ha,
    CallGraph.isImprecise_analyse p e.right hh.pointer hh.isVisited hh.isImprecise
      (t.mem_functions ha).1]
  exact ⟨e.symm.isDoubted hregard t.symm, e.isDoubted hregard t⟩

theorem isCycle_analyse (e : SameTable g h) (hg : Fresh g) (hh : Fresh h) (t : Twins g h a b)
    (ha : a ∈ g.functions) :
    (h.analyse p).2.1.isCycle b = (g.analyse p).2.1.isCycle a := by
  rw [Bool.eq_iff_iff, CallGraph.isCycle_analyse p e.left hg.isCycle ha,
    CallGraph.isCycle_analyse p e.right hh.isCycle (t.mem_functions ha).1]
  exact e.recursive_iff t

theorem precise_of_precise (e : SameTable g h) (hg : Fresh g) (hh : Fresh h)
    (hregard : p.regardStartup = true) (hprecise : (g.analyse p).1.precise = true) :
    (h.analyse p).1.precise = true := by
  rw [CallGraph.precise_analyse] at hprecise ⊢
  intro b hb hcallers
  obtain ⟨a, t⟩ := e.symm.exists_twin (CallGraph.mem_functions.mp hb).2
  have ha := (t.mem_functions hb).1
  rw [e.isImprecise_analyse hg hh hregard t.symm ha]
  exact hprecise a ha (e.symm.callers_eq_nil t hcallers)

theorem precise_analyse (e : SameTable g h) (hg : Fresh g) (hh : Fresh h)
    (hregard : p.regardStartup = true) : (h.analyse p).1.precise = (g.analyse p).1.precise :=
  Bool.eq_iff_iff.mpr ⟨e.symm.precise_of_precise hh hg hregard, e.precise_of_precise hg hh hregard⟩

/-- **The total of a function that leads to no recursion** is the most that a chain of calls takes,
    and the chains of twins take the same. -/
theorem total_analyse (e : SameTable g h) (hg : Fresh g) (hh : Fresh h) (t : Twins g h a b)
    (ha : a ∈ g.functions) (hfree : g.RecursionFree a) :
    (h.analyse p).2.1.total b = (g.analyse p).2.1.total a := by
  have hleft := isGreatest_total_walkAll p e.left hg.isVisited ha hfree
  have hright := isGreatest_total_walkAll p e.right hh.isVisited (t.mem_functions ha).1
    (e.recursionFree t hfree)
  rw [e.chainSizes t] at hright
  rw [CallGraph.total_analyse, CallGraph.total_analyse]
  exact hright.unique hleft

end SameTable

/-- What two graphs have in common at each address, in whatever slots and order. -/
structure AlikeByAddress (g h : CallGraph) : Prop where
  addresses : h.functions.map h.address = g.functions.map g.address
  /-- The functions at one address have the same size and the same marks. -/
  marks : ∀ a ∈ g.functions, ∀ b ∈ h.functions, h.address b = g.address a →
    h.ownSize b = g.ownSize a ∧ h.isDynamic b = g.isDynamic a ∧
      h.isImprecise b = g.isImprecise a ∧ h.isCycle b = g.isCycle a
  /-- They call the same addresses, and the function pointer alike. -/
  callees : ∀ a ∈ g.functions, ∀ b ∈ h.functions, h.address b = g.address a →
    ∀ y, y ∈ (h.callees b).map h.place ↔ y ∈ (g.callees a).map g.place
  /-- They have the same total if no chain of calls from there leads to recursion. -/
  total : ∀ a ∈ g.functions, ∀ b ∈ h.functions, h.address b = g.address a → g.RecursionFree a →
    h.total b = g.total a

theorem Agrees.place {g' : CallGraph} (e : Agrees g g') : g'.place = g.place := by
  funext n
  rw [CallGraph.place, CallGraph.place, e.address]

theorem Agrees.recursionFree {g' : CallGraph} (e : Agrees g g') (hfree : g'.RecursionFree n) :
    g.RecursionFree n := by
  unfold RecursionFree Recursive at hfree ⊢
  rw [e.reaches, e.calls_eq] at hfree
  exact hfree

/-- **Analyses of graphs with the same table say the same of every address.** -/
theorem SameTable.alike_analyse (e : SameTable g h) (hg : Fresh g) (hh : Fresh h)
    (hregard : p.regardStartup = true) :
    (g.analyse p).2.1.AlikeByAddress (h.analyse p).2.1 := by
  have left := agrees_analyse p g
  have right := agrees_analyse p h
  refine ⟨?_, ?_, ?_, ?_⟩ <;> rw [left.functions, left.address, right.functions, right.address]
  · exact e.map_address_functions
  · intro a ha b hb hab
    have t := twins_of_address ha hb hab
    rw [left.ownSize, left.isDynamic, right.ownSize, right.isDynamic]
    exact ⟨e.ownSize t ha, e.isDynamic t ha, e.isImprecise_analyse hg hh hregard t ha,
      e.isCycle_analyse hg hh t ha⟩
  · intro a ha b hb hab
    rw [left.callees, left.place, right.callees, right.place]
    exact e.mem_map_place_callees (twins_of_address ha hb hab)
  · intro a ha b hb hab hfree
    exact e.total_analyse hg hh (twins_of_address ha hb hab) ha (left.recursionFree hfree)

/-- The verdicts list the same cycle groups, by address. -/
theorem SameTable.map_cycles_analyse (e : SameTable g h) (hg : Fresh g) (hh : Fresh h) :
    (h.analyse p).1.cycles.map (·.map (h.analyse p).2.1.address) =
      (g.analyse p).1.cycles.map (·.map (g.analyse p).2.1.address) := by
  rw [cycles_analyse, cycles_analyse, (agrees_analyse p g).address, (agrees_analyse p h).address]
  exact e.map_cycles hg.pointer hh.pointer

end CallGraph

end StackDepth

import Mathlib.Data.Finset.Sort
import StackDepth.Proofs.CallGraph.Marks

/-!
# A call graph as a table

What a call graph says without its slots: the function at each address, and the calls as pairs of
addresses in the order in which they were found. A change of the graph is a change of the table.

* `at?`, `place`, `pairs`: the table;
* `map_address_functions`: the list of functions is that of the addresses, in order;
* `at?_modify`, `at?_insert`, `at?_remove` and `pairs_addCall`, `pairs_remove`: what the operations
  do to it; what is not listed they leave alone;
* `mem_pairs`: a pair is a call between the nodes that stand at its places;
* `map_place_callees`, `map_place_callers`: the pairs of a node are its calls, in their order.
-/

namespace StackDepth

namespace CallGraph

variable {g : CallGraph} {a b n m : Node} {f : Function} {x : Nat}

/-! ## 1. The table -/

/-- The function that starts at an address. -/
def at? (g : CallGraph) (x : Nat) : Option Function := (g.find? x).bind g.function?

/-- Where a node stands: at an address, or nowhere if it is the function pointer. -/
def place (g : CallGraph) (n : Node) : Option Nat :=
  if n = pointer then none else some (g.address n)

/-- The calls by the places of caller and callee, in the order in which they were found. -/
def pairs (g : CallGraph) : List (Option Nat × Option Nat) :=
  (g.calls.map fun c => (g.place c.caller, g.place c.callee)).reverse

theorem place_pointer : g.place pointer = none := if_pos rfl

theorem place_of_mem (hn : n ∈ g.functions) : g.place n = some (g.address n) :=
  if_neg (mem_functions.mp hn).1

theorem WellFormed.at?_eq_some (hg : g.WellFormed) :
    g.at? x = some f ↔ ∃ n, n ≠ pointer ∧ g.function? n = some f ∧ f.address = x := by
  rw [at?, Option.bind_eq_some_iff]
  constructor
  · intro ⟨n, hx, hf⟩
    obtain ⟨hn, hax⟩ := hg.find?_iff.mp hx
    exact ⟨n, (mem_functions.mp hn).1, hf, (address_of_function? hf).symm.trans hax⟩
  · intro ⟨n, hp, hf, hax⟩
    refine ⟨n, hg.find?_iff.mpr ⟨mem_functions.mpr ⟨hp, isLive_iff.mpr ⟨f, hf⟩⟩, ?_⟩, hf⟩
    rw [address_of_function? hf, hax]

/-- The function of a node is the one at its address. -/
theorem WellFormed.at?_address (hg : g.WellFormed) (hn : n ∈ g.functions) :
    g.at? (g.address n) = g.function? n := by
  rw [at?, hg.find?_iff.mpr ⟨hn, rfl⟩]
  rfl

theorem WellFormed.find?_of_at? (hg : g.WellFormed) (h : g.at? x = some f) :
    ∃ n, g.find? x = some n ∧ n ∈ g.functions ∧ g.address n = x ∧ g.function? n = some f := by
  obtain ⟨n, hx, hf⟩ := Option.bind_eq_some_iff.mp h
  obtain ⟨hn, hax⟩ := hg.find?_iff.mp hx
  exact ⟨n, hx, hn, hax, hf⟩

/-- The functions are listed by their addresses, ascending and each once. -/
theorem WellFormed.map_address_functions (hg : g.WellFormed) {addresses : Finset Nat}
    (h : ∀ x, (∃ f, g.at? x = some f) ↔ x ∈ addresses) :
    g.functions.map g.address = addresses.sort (· ≤ ·) := by
  have hsorted : (g.functions.map g.address).Pairwise (· < ·) :=
    List.pairwise_map.mpr hg.functions_sorted
  have hmem : addresses = (g.functions.map g.address).toFinset := by
    ext x
    rw [← h, List.mem_toFinset, List.mem_map]
    constructor
    · rintro ⟨f, hf⟩
      obtain ⟨n, _, hn, hax, _⟩ := hg.find?_of_at? hf
      exact ⟨n, hn, hax⟩
    · rintro ⟨n, hn, rfl⟩
      obtain ⟨f, hf⟩ := isLive_iff.mp (mem_functions.mp hn).2
      exact ⟨f, (hg.at?_address hn).trans hf⟩
  rw [hmem]
  exact ((List.toFinset_sort _ (hsorted.imp fun h => Nat.ne_of_lt h)).mpr
    (hsorted.imp fun h => Nat.le_of_lt h)).symm

/-- Two nodes in use that stand at one place are the same. -/
theorem WellFormed.place_inj (hg : g.WellFormed) (ha : g.isLive a = true) (hb : g.isLive b = true)
    (h : g.place a = g.place b) : a = b := by
  by_cases hpa : a = pointer <;> by_cases hpb : b = pointer
  · rw [hpa, hpb]
  · rw [place, place, if_pos hpa, if_neg hpb] at h
    cases h
  · rw [place, place, if_neg hpa, if_pos hpb] at h
    cases h
  · rw [place, place, if_neg hpa, if_neg hpb] at h
    exact hg.addressInj (mem_functions.mpr ⟨hpa, ha⟩) (mem_functions.mpr ⟨hpb, hb⟩)
      (Option.some.inj h)

/-- **A pair of places is a call between the nodes that stand there.** -/
theorem WellFormed.mem_pairs (hg : g.WellFormed) (ha : g.isLive a = true) (hb : g.isLive b = true) :
    (g.place a, g.place b) ∈ g.pairs ↔ g.Calls a b := by
  rw [pairs, List.mem_reverse, List.mem_map]
  constructor
  · intro ⟨c, hc, e⟩
    obtain ⟨e1, e2⟩ := Prod.mk.inj e
    have hlive := hg.callsLive ⟨c, hc, rfl, rfl⟩
    exact ⟨c, hc, hg.place_inj hlive.1 ha e1, hg.place_inj hlive.2 hb e2⟩
  · intro ⟨c, hc, e1, e2⟩
    exact ⟨c, hc, by rw [e1, e2]⟩

/-- Where a call comes from and where it goes to there are functions. -/
theorem WellFormed.exists_at?_of_mem_pairs (hg : g.WellFormed) {q : Option Nat × Option Nat}
    (hq : q ∈ g.pairs) (hx : q.1 = some x ∨ q.2 = some x) : ∃ f, g.at? x = some f := by
  have hplace : ∀ n, g.isLive n = true → g.place n = some x → ∃ f, g.at? x = some f := by
    intro n hl hn
    have hne : n ≠ pointer := by
      intro e
      rw [e, place_pointer] at hn
      cases hn
    have hmem := mem_functions.mpr ⟨hne, hl⟩
    obtain ⟨f, hf⟩ := isLive_iff.mp hl
    rw [place_of_mem hmem] at hn
    cases hn
    exact ⟨f, (hg.at?_address hmem).trans hf⟩
  obtain ⟨c, hc, rfl⟩ := List.mem_map.mp (List.mem_reverse.mp hq)
  have hlive := hg.callsLive ⟨c, hc, rfl, rfl⟩
  exact hx.elim (hplace _ hlive.1) (hplace _ hlive.2)

/-- Where the nodes of a graph stand tells them apart. -/
theorem WellFormed.place_beq (hg : g.WellFormed) (ha : g.isLive a = true) (hb : g.isLive b = true) :
    (g.place a == g.place b) = (a == b) := by
  rw [Bool.eq_iff_iff, beq_iff_eq, beq_iff_eq]
  exact ⟨hg.place_inj ha hb, congrArg g.place⟩

/-- The callees of a node are in the pairs that start with it. -/
theorem WellFormed.map_place_callees (hg : g.WellFormed) (hn : g.isLive n = true) :
    (g.callees n).map g.place = (g.pairs.filter (·.1 == g.place n)).map (·.2) := by
  have hfilter : g.calls.filter (·.caller == n) =
      g.calls.filter ((·.1 == g.place n) ∘ fun c => (g.place c.caller, g.place c.callee)) :=
    List.filter_congr fun c hc => (hg.place_beq (hg.callsLive ⟨c, hc, rfl, rfl⟩).1 hn).symm
  rw [callees, recentCallees, pairs, List.filter_reverse, List.filter_map, ← hfilter,
    List.map_reverse, List.map_reverse, List.map_map, List.map_map]
  rfl

/-- The callers of a node are in the pairs that end with it. -/
theorem WellFormed.map_place_callers (hg : g.WellFormed) (hn : g.isLive n = true) :
    (g.callers n).map g.place = (g.pairs.filter (·.2 == g.place n)).map (·.1) := by
  have hfilter : g.calls.filter (·.callee == n) =
      g.calls.filter ((·.2 == g.place n) ∘ fun c => (g.place c.caller, g.place c.callee)) :=
    List.filter_congr fun c hc => (hg.place_beq (hg.callsLive ⟨c, hc, rfl, rfl⟩).2 hn).symm
  rw [callers, pairs, List.filter_reverse, List.filter_map, ← hfilter, List.map_reverse,
    List.map_reverse, List.map_map, List.map_map]
  rfl

/-! ## 2. What the operations do to it -/

theorem find?_modify {k : Function → Function} (hk : ∀ y, (k y).address = y.address) :
    (g.modify n k).find? x = g.find? x := by
  have hpred : ∀ m, ((g.modify n k).function? m).map (·.address) =
      (g.function? m).map (·.address) := by
    intro m
    rw [function?_modify]
    split
    · rw [Option.map_map]
      exact congrArg (Option.map · (g.function? m)) (funext hk)
    · rfl
  unfold find?
  rw [show (g.modify n k).slots.size = g.slots.size from Array.size_modify ..]
  exact congrArg (List.find? · _) (funext fun m => congrArg (· == some x) (hpred m))

theorem WellFormed.at?_modify (hg : g.WellFormed) (hn : n ∈ g.functions)
    {k : Function → Function} (hk : ∀ y, (k y).address = y.address) :
    (g.modify n k).at? x = if x = g.address n then (g.at? x).map k else g.at? x := by
  rw [at?, at?, find?_modify hk]
  cases hx : g.find? x with
  | none => split <;> rfl
  | some m =>
    obtain ⟨hm, hax⟩ := hg.find?_iff.mp hx
    show (g.modify n k).function? m =
      if x = g.address n then (g.function? m).map k else g.function? m
    rw [function?_modify]
    by_cases e : n = m
    · rw [if_pos e, if_pos (e ▸ hax.symm)]
    · rw [if_neg e, if_neg fun e' => e (hg.addressInj hn hm (e'.symm.trans hax.symm))]

theorem place_modify {k : Function → Function} (hk : ∀ y, (k y).address = y.address) :
    (g.modify n k).place m = g.place m := by
  rw [place, place, address_modify hk]

theorem pairs_modify {k : Function → Function} (hk : ∀ y, (k y).address = y.address) :
    (g.modify n k).pairs = g.pairs := by
  simp only [pairs, place_modify hk, calls_modify]

theorem address_addCall : (g.addCall a b).2.address m = g.address m := by
  rw [address, address, function?_addCall]

theorem place_addCall : (g.addCall a b).2.place m = g.place m := by
  rw [place, place, address_addCall]

theorem find?_addCall : (g.addCall a b).2.find? x = g.find? x := by
  simp only [find?, function?_addCall, slots_addCall]

theorem at?_addCall : (g.addCall a b).2.at? x = g.at? x := by
  rw [at?, at?, find?_addCall]
  exact congrArg (Option.bind _) (funext fun m => function?_addCall)

/-- A call is added at the end, unless it is there. -/
theorem WellFormed.pairs_addCall (hg : g.WellFormed) (ha : g.isLive a = true)
    (hb : g.isLive b = true) : (g.addCall a b).2.pairs =
      if (g.place a, g.place b) ∈ g.pairs then g.pairs
      else g.pairs ++ [(g.place a, g.place b)] := by
  by_cases h : g.hasCall a b = true
  · rw [if_pos ((hg.mem_pairs ha hb).mpr (hasCall_iff.mp h)), CallGraph.addCall, if_pos h]
  · rw [if_neg fun hm => h (hasCall_iff.mpr ((hg.mem_pairs ha hb).mp hm))]
    simp only [pairs, place_addCall]
    rw [CallGraph.addCall, if_neg h]
    cases g.vacantCalls with
    | nil => rw [List.map_cons, List.reverse_cons]
    | cons slot rest => rw [List.map_cons, List.reverse_cons]

theorem WellFormed.at?_insert (hg : g.WellFormed) (f : Function) :
    (g.insert f).2.at? x = if x = f.address then some ((g.at? x).getD f) else g.at? x := by
  rcases hg.insert_cases f with ⟨n, hx, e⟩ | ⟨hx, n, h, e, hadd⟩
  · -- there is a function at the address
    rw [e]
    by_cases hxf : x = f.address
    · obtain ⟨hn, _⟩ := hg.find?_iff.mp hx
      obtain ⟨f', hf'⟩ := isLive_iff.mp (mem_functions.mp hn).2
      have hat : g.at? x = some f' := by rw [at?, hxf, hx]; exact hf'
      rw [if_pos hxf, hat]
      rfl
    · rw [if_neg hxf]
  · rw [e]
    have hh := hadd.wellFormed hg hx
    by_cases hxf : x = f.address
    · have hnone : g.at? x = none := by rw [at?, hxf, hx]; rfl
      rw [if_pos hxf, hnone]
      refine hh.at?_eq_some.mpr ⟨n, hadd.ne_pointer, ?_, hxf.symm⟩
      rw [hadd.function?, if_pos rfl]
      rfl
    · rw [if_neg hxf]
      refine Option.ext fun k => ?_
      rw [hh.at?_eq_some, hg.at?_eq_some]
      refine exists_congr fun m => and_congr_right fun _ => ?_
      rw [hadd.function?]
      by_cases hm : m = n
      · -- the new slot is free before, and has another address after
        have hfree : g.function? m = none := by
          rw [hm]
          exact Option.not_isSome_iff_eq_none.mp (Bool.eq_false_iff.mp hadd.fresh)
        rw [if_pos hm, hfree]
        constructor
        · intro ⟨h1, h2⟩
          cases h1
          exact absurd h2.symm hxf
        · intro ⟨h1, _⟩
          cases h1
      · rw [if_neg hm]

/-- What is inserted is found where it was put. -/
theorem WellFormed.find?_insert (hg : g.WellFormed) (f : Function) :
    (g.insert f).2.find? f.address = some (g.insert f).1 := by
  rcases hg.insert_cases f with ⟨n, hx, e⟩ | ⟨hx, n, h, e, hadd⟩
  · rw [e]
    exact hx
  · rw [e]
    have hh := hadd.wellFormed hg hx
    have hmem := mem_functions.mpr ⟨hadd.ne_pointer, (hadd.isLive n).mpr (.inl rfl)⟩
    refine hh.find?_iff.mpr ⟨hmem, ?_⟩
    rw [hadd.address, if_pos rfl]

/-- What is found before an insertion is found after it. -/
theorem WellFormed.find?_insert_of_some (hg : g.WellFormed) (f : Function)
    (hx : g.find? x = some n) : (g.insert f).2.find? x = some n := by
  rcases hg.insert_cases f with ⟨m, _, e⟩ | ⟨hf, m, h, e, hadd⟩
  · rw [e]
    exact hx
  · rw [e]
    obtain ⟨hn, hax⟩ := hg.find?_iff.mp hx
    obtain ⟨hp, hl⟩ := mem_functions.mp hn
    have hne : n ≠ m := by
      intro e'
      rw [e', hadd.fresh] at hl
      cases hl
    refine (hadd.wellFormed hg hf).find?_iff.mpr
      ⟨mem_functions.mpr ⟨hp, (hadd.isLive n).mpr (.inr hl)⟩, ?_⟩
    rw [hadd.address, if_neg hne, hax]

/-- Inserting leaves what is known of a node in use. -/
theorem WellFormed.place_insert (hg : g.WellFormed) (f : Function) (hm : g.isLive m = true) :
    (g.insert f).2.place m = g.place m := by
  rcases hg.insert_cases f with ⟨n, hx, e⟩ | ⟨hx, n, h, e, hadd⟩
  · rw [e]
  · have hne : m ≠ n := by
      intro e'
      rw [e', hadd.fresh] at hm
      cases hm
    rw [e, place, place, hadd.address, if_neg hne]

theorem WellFormed.pairs_insert (hg : g.WellFormed) (f : Function) :
    (g.insert f).2.pairs = g.pairs := by
  have hcalls : (g.insert f).2.calls = g.calls := by
    rcases hg.insert_cases f with ⟨n, hx, e⟩ | ⟨hx, n, h, e, hadd⟩
    · rw [e]
    · rw [e]
      exact hadd.calls
  rw [pairs, pairs, hcalls]
  refine congrArg List.reverse (List.map_congr_left fun c hc => ?_)
  have hlive := hg.callsLive ⟨c, hc, rfl, rfl⟩
  rw [hg.place_insert f hlive.1, hg.place_insert f hlive.2]

theorem WellFormed.at?_remove (hg : g.WellFormed) (hn : n ∈ g.functions) :
    (g.remove n).2.at? x = if x = g.address n then none else g.at? x := by
  have hp := (mem_functions.mp hn).1
  refine Option.ext fun k => ?_
  rw [(hg.remove n).at?_eq_some]
  by_cases hx : x = g.address n
  · rw [if_pos hx]
    refine iff_of_false (fun ⟨m, hm, hf, ha⟩ => ?_) fun h => by cases h
    rw [function?_remove hp] at hf
    split at hf
    · cases hf
    · rename_i hne
      have hmf : m ∈ g.functions := mem_functions.mpr ⟨hm, isLive_iff.mpr ⟨k, hf⟩⟩
      exact hne (hg.addressInj hmf hn ((address_of_function? hf).trans (ha.trans hx)))
  · rw [if_neg hx, hg.at?_eq_some]
    refine exists_congr fun m => and_congr_right fun _ => ?_
    rw [function?_remove hp]
    by_cases hm : m = n
    · rw [if_pos hm]
      constructor
      · intro ⟨h1, _⟩
        cases h1
      · intro ⟨h1, h2⟩
        exact absurd (h2.symm.trans ((address_of_function? h1).symm.trans (hm ▸ rfl))) hx
    · rw [if_neg hm]

/-- Removing a function removes the pairs that name it. -/
theorem WellFormed.pairs_remove (hg : g.WellFormed) (hn : n ∈ g.functions) :
    (g.remove n).2.pairs =
      g.pairs.filter fun q => q.1 != some (g.address n) && q.2 != some (g.address n) := by
  obtain ⟨hp, hl⟩ := mem_functions.mp hn
  have hplace : ∀ {m}, g.isLive m = true → (g.place m = some (g.address n) ↔ m = n) := by
    intro m hm
    rw [← place_of_mem hn]
    exact ⟨hg.place_inj hm hl, fun e => by rw [e]⟩
  rw [pairs, pairs, calls_remove hp hl, List.filter_reverse, List.filter_map]
  refine congrArg List.reverse ?_
  have hfilter : g.calls.filter (fun c => c.caller != n && c.callee != n) =
      g.calls.filter ((fun q => q.1 != some (g.address n) && q.2 != some (g.address n)) ∘
        fun c => (g.place c.caller, g.place c.callee)) := by
    refine List.filter_congr fun c hc => ?_
    have hlive := hg.callsLive ⟨c, hc, rfl, rfl⟩
    rw [Bool.eq_iff_iff]
    simp only [Function.comp, Bool.and_eq_true, bne_iff_ne, ne_eq, hplace hlive.1, hplace hlive.2]
  rw [← hfilter]
  refine List.map_congr_left fun c hc => ?_
  have hne := (List.mem_filter.mp hc).2
  rw [Bool.and_eq_true, bne_iff_ne, bne_iff_ne] at hne
  rw [place, place, place, place, address_remove hp hne.1, address_remove hp hne.2]

/-! ## 3. Many changes of one kind -/

section Many

variable {ns : List Node} {k : Function → Function}

theorem WellFormed.foldl_modify (hg : g.WellFormed) (hk : ∀ y, (k y).address = y.address) :
    (ns.foldl (fun g n => g.modify n k) g).WellFormed := by
  induction ns generalizing g with
  | nil => exact hg
  | cons n ns ih => exact ih (hg.modify n hk)

theorem find?_foldl_modify (hk : ∀ y, (k y).address = y.address) :
    (ns.foldl (fun g n => g.modify n k) g).find? x = g.find? x := by
  induction ns generalizing g with
  | nil => rfl
  | cons n ns ih => rw [List.foldl_cons, ih, find?_modify hk]

theorem pairs_foldl_modify (hk : ∀ y, (k y).address = y.address) :
    (ns.foldl (fun g n => g.modify n k) g).pairs = g.pairs := by
  induction ns generalizing g with
  | nil => rfl
  | cons n ns ih => rw [List.foldl_cons, ih, pairs_modify hk]

/-- A change of every node is a change of the whole table. -/
theorem WellFormed.at?_foldl_modify_nodes (hg : g.WellFormed) (hk : ∀ y, (k y).address = y.address)
    (hkk : ∀ y, k (k y) = k y) :
    (g.nodes.foldl (fun g n => g.modify n k) g).at? x = (g.at? x).map k := by
  rw [at?, at?, find?_foldl_modify hk]
  cases hx : g.find? x with
  | none => rfl
  | some n =>
    obtain ⟨hn, _⟩ := hg.find?_iff.mp hx
    show (g.nodes.foldl (fun g n => g.modify n k) g).function? n = (g.function? n).map k
    rw [function?_foldl_modify hkk, if_pos (mem_nodes.mpr (mem_functions.mp hn).2)]

/-- What is still to be removed stays in use, where it was. -/
theorem rest_of_remove (hns : ∀ m ∈ n :: ns, m ∈ g.functions) (hnd : (n :: ns).Nodup) :
    (∀ m ∈ ns, m ∈ (g.remove n).2.functions) ∧
      ∀ m ∈ ns, (g.remove n).2.address m = g.address m := by
  have hp := (mem_functions.mp (hns n List.mem_cons_self)).1
  have hne : ∀ m ∈ ns, m ≠ n := fun m hm e => (List.nodup_cons.mp hnd).1 (e ▸ hm)
  refine ⟨fun m hm => ?_, fun m hm => address_remove hp (hne m hm)⟩
  obtain ⟨hmp, hl⟩ := mem_functions.mp (hns m (List.mem_cons_of_mem n hm))
  exact mem_functions.mpr ⟨hmp, (isLive_remove hp).mpr ⟨hne m hm, hl⟩⟩

theorem WellFormed.foldl_remove (hg : g.WellFormed) :
    (ns.foldl (fun g n => (g.remove n).2) g).WellFormed := by
  induction ns generalizing g with
  | nil => exact hg
  | cons n ns ih => exact ih (hg.remove n)

theorem WellFormed.at?_foldl_remove (hg : g.WellFormed) (hns : ∀ n ∈ ns, n ∈ g.functions)
    (hnd : ns.Nodup) : (ns.foldl (fun g n => (g.remove n).2) g).at? x =
      if ∃ n ∈ ns, x = g.address n then none else g.at? x := by
  induction ns generalizing g with
  | nil => rw [List.foldl_nil, if_neg fun ⟨_, h, _⟩ => List.not_mem_nil h]
  | cons n ns ih =>
    obtain ⟨hrest, haddr⟩ := rest_of_remove hns hnd
    rw [List.foldl_cons, ih (hg.remove n) hrest (List.nodup_cons.mp hnd).2,
      hg.at?_remove (hns n List.mem_cons_self)]
    by_cases hx : ∃ m ∈ ns, x = g.address m
    · obtain ⟨m, hm, e⟩ := hx
      rw [if_pos ⟨m, hm, (haddr m hm).symm ▸ e⟩, if_pos ⟨m, List.mem_cons_of_mem n hm, e⟩]
    · rw [if_neg fun ⟨m, hm, e⟩ => hx ⟨m, hm, haddr m hm ▸ e⟩]
      by_cases hxn : x = g.address n
      · rw [if_pos hxn, if_pos ⟨n, List.mem_cons_self, hxn⟩]
      · have hnot : ¬ ∃ m ∈ n :: ns, x = g.address m := by
          intro ⟨m, hm, e⟩
          rcases List.mem_cons.mp hm with rfl | hm
          · exact hxn e
          · exact hx ⟨m, hm, e⟩
        rw [if_neg hxn, if_neg hnot]

/-- The pairs that name a removed function go, and the others stay in their order. -/
theorem WellFormed.pairs_foldl_remove (hg : g.WellFormed) (hns : ∀ n ∈ ns, n ∈ g.functions)
    (hnd : ns.Nodup) : (ns.foldl (fun g n => (g.remove n).2) g).pairs =
      g.pairs.filter fun q =>
        ns.all fun n => q.1 != some (g.address n) && q.2 != some (g.address n) := by
  induction ns generalizing g with
  | nil => exact (List.filter_eq_self.mpr fun _ _ => rfl).symm
  | cons n ns ih =>
    obtain ⟨hrest, haddr⟩ := rest_of_remove hns hnd
    rw [List.foldl_cons, ih (hg.remove n) hrest (List.nodup_cons.mp hnd).2,
      hg.pairs_remove (hns n List.mem_cons_self), List.filter_filter]
    refine List.filter_congr fun q _ => ?_
    have hall : (ns.all fun m => q.1 != some ((g.remove n).2.address m) &&
        q.2 != some ((g.remove n).2.address m)) =
        ns.all fun m => q.1 != some (g.address m) && q.2 != some (g.address m) := by
      rw [Bool.eq_iff_iff, List.all_eq_true, List.all_eq_true]
      exact forall₂_congr fun m hm => by rw [haddr m hm]
    rw [hall, List.all_cons, Bool.and_comm]

/-- The pairs that name a removed function go, and the others stay. -/
theorem WellFormed.mem_pairs_foldl_remove (hg : g.WellFormed) (hns : ∀ n ∈ ns, n ∈ g.functions)
    (hnd : ns.Nodup) {q : Option Nat × Option Nat} :
    q ∈ (ns.foldl (fun g n => (g.remove n).2) g).pairs ↔
      q ∈ g.pairs ∧ ∀ n ∈ ns, q.1 ≠ some (g.address n) ∧ q.2 ≠ some (g.address n) := by
  rw [hg.pairs_foldl_remove hns hnd, List.mem_filter]
  simp only [List.all_eq_true, Bool.and_eq_true, bne_iff_ne]

end Many

end CallGraph

end StackDepth

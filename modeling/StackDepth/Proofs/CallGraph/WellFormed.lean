import StackDepth.Proofs.CallGraph.Calls

/-!
# Well-formed call graphs

What the operations on a call graph keep true of it: calls join nodes in use, an address has one
function, and a free slot is free once.

* `insert_cases`, `calls_addCall`, `function?_remove`: what each operation does;
* `WellFormed` is kept by every operation (`WellFormed.modify`, `WellFormed.insert`,
  `WellFormed.addCall`, `WellFormed.remove`), so it holds of every graph that they make
  (`Built.wellFormed`).
-/

namespace StackDepth

namespace CallGraph

variable {g : CallGraph} {a b n m : Node}

structure WellFormed (g : CallGraph) : Prop where
  pointerLive : g.isLive pointer = true
  callsLive : ∀ {a b : Node}, g.Calls a b → g.isLive a = true ∧ g.isLive b = true
  addressInj : ∀ {a b : Node}, a ∈ g.functions → b ∈ g.functions → g.address a = g.address b → a = b
  vacantFree : ∀ n ∈ g.vacant, n < g.slots.size ∧ g.isLive n = false
  vacantNodup : g.vacant.Nodup

/-- A graph is checked by going through its calls, its functions and its free slots. -/
theorem wellFormed_iff : g.WellFormed ↔
    g.isLive pointer = true ∧ (∀ c ∈ g.calls, g.isLive c.caller = true ∧ g.isLive c.callee = true) ∧
      (∀ a ∈ g.functionNodes, ∀ b ∈ g.functionNodes, g.address a = g.address b → a = b) ∧
      (∀ n ∈ g.vacant, n < g.slots.size ∧ g.isLive n = false) ∧ g.vacant.Nodup := by
  have hmem : ∀ {n : Node}, n ∈ g.functions ↔ n ∈ g.functionNodes := List.mem_mergeSort
  constructor
  · intro hg
    refine ⟨hg.pointerLive, fun c hc => hg.callsLive ⟨c, hc, rfl, rfl⟩, fun a ha b hb => ?_,
      hg.vacantFree, hg.vacantNodup⟩
    exact hg.addressInj (hmem.mpr ha) (hmem.mpr hb)
  · intro ⟨hp, hc, ha, hv, hn⟩
    refine ⟨hp, fun ⟨c, hcm, e1, e2⟩ => ?_, fun hx hy => ?_, hv, hn⟩
    · rw [← e1, ← e2]
      exact hc c hcm
    · exact ha _ (hmem.mp hx) _ (hmem.mp hy)

instance : Decidable g.WellFormed := decidable_of_iff _ wellFormed_iff.symm

/-! ## 1. Look-up -/

theorem address_of_function? {f : Function} (h : g.function? n = some f) :
    g.address n = f.address := by
  rw [address, h]
  rfl

theorem find?_some {x : Nat} (h : g.find? x = some n) : n ∈ g.functions ∧ g.address n = x := by
  unfold find? at h
  have hx := List.find?_some h
  have hn := List.mem_of_find?_eq_some h
  rw [beq_iff_eq, Option.map_eq_some_iff] at hx
  obtain ⟨f, hf, rfl⟩ := hx
  refine ⟨mem_functions.mpr ⟨?_, isLive_iff.mpr ⟨f, hf⟩⟩, address_of_function? hf⟩
  exact Nat.pos_iff_ne_zero.mp (List.mem_range'_1.mp hn).1

theorem find?_none {x : Nat} (h : g.find? x = none) : ∀ n ∈ g.functions, g.address n ≠ x := by
  intro n hn e
  obtain ⟨hp, hl⟩ := mem_functions.mp hn
  have hmem := (List.mem_filter.mp (mem_functionNodes.mpr ⟨hp, hl⟩)).1
  obtain ⟨f, hf⟩ := isLive_iff.mp hl
  refine List.find?_eq_none.mp h n hmem ?_
  rw [address_of_function? hf] at e
  rw [hf, beq_iff_eq, ← e]
  rfl

/-- **The function found at an address is the one that has it.** -/
theorem WellFormed.find?_iff (hg : g.WellFormed) {x : Nat} :
    g.find? x = some n ↔ n ∈ g.functions ∧ g.address n = x := by
  refine ⟨find?_some, fun ⟨hn, hx⟩ => ?_⟩
  cases h : g.find? x with
  | none => exact absurd hx (find?_none h n hn)
  | some m =>
    obtain ⟨hm, hx'⟩ := find?_some h
    rw [hg.addressInj hn hm (hx.trans hx'.symm)]

theorem functions_nodup : g.functions.Nodup :=
  (List.mergeSort_perm _ _).nodup_iff.mpr (List.Pairwise.filter _ List.nodup_range')

theorem functions_pairwise_address : g.functions.Pairwise fun a b => g.address a ≤ g.address b := by
  have hle : g.functions.Pairwise fun a b => decide (g.address a ≤ g.address b) = true := by
    refine List.pairwise_mergeSort ?_ ?_ _
    · intro a b c hab hbc
      exact decide_eq_true (Nat.le_trans (of_decide_eq_true hab) (of_decide_eq_true hbc))
    · intro a b
      rcases Nat.le_total (g.address a) (g.address b) with h | h
      · rw [decide_eq_true h, Bool.true_or]
      · rw [decide_eq_true h, Bool.or_true]
  exact hle.imp of_decide_eq_true

/-- **No two functions have one address, so the functions are in strict order.** -/
theorem WellFormed.functions_sorted (hg : g.WellFormed) :
    g.functions.Pairwise fun a b => g.address a < g.address b := by
  refine (functions_pairwise_address.and functions_nodup).imp_of_mem fun ha hb h => ?_
  exact Nat.lt_of_le_of_ne h.1 fun e => h.2 (hg.addressInj ha hb e)

/-! ## 2. What the operations do -/

theorem isLive_modify (f : Function → Function) :
    (g.modify n f).isLive m = g.isLive m := by
  rw [isLive, isLive, function?_modify]
  split
  · exact Option.isSome_map
  · rfl

theorem address_modify {f : Function → Function} (hf : ∀ x, (f x).address = x.address) :
    (g.modify n f).address m = g.address m := by
  rw [address, address, function?_modify]
  split
  · rw [Option.map_map]
    exact congrArg (fun k => (Option.map k (g.function? m)).getD 0) (funext hf)
  · rfl

/-- A new function: it takes a free slot and leaves all else alone. -/
structure Adds (g : CallGraph) (f : Function) (n : Node) (h : CallGraph) : Prop where
  ne_pointer : n ≠ pointer
  fresh : g.isLive n = false
  function? : ∀ m, h.function? m = if m = n then some f else g.function? m
  calls : h.calls = g.calls
  vacant : ∀ m ∈ h.vacant, m ∈ g.vacant ∧ m ≠ n
  vacantNodup : g.vacant.Nodup → h.vacant.Nodup
  size : g.slots.size ≤ h.slots.size

/-- **Inserting finds the function of the address or adds a new one.** -/
theorem WellFormed.insert_cases (hg : g.WellFormed) (f : Function) :
    (∃ n, g.find? f.address = some n ∧ g.insert f = (n, g)) ∨
      (g.find? f.address = none ∧ ∃ n h, g.insert f = (n, h) ∧ Adds g f n h) := by
  cases hx : g.find? f.address with
  | some n =>
    refine .inl ⟨n, rfl, ?_⟩
    simp only [insert, hx]
  | none =>
    refine .inr ⟨rfl, ?_⟩
    have hsize : 0 < g.slots.size := lt_size_of_isLive hg.pointerLive
    cases hv : g.vacant with
    | nil =>
      refine ⟨_, _, by simp only [insert, hx, hv]; exact rfl, ?_⟩
      refine ⟨Nat.pos_iff_ne_zero.mp hsize, ?_, fun m => ?_, rfl, ?_, fun _ => List.nodup_nil, ?_⟩
      · cases hl : g.isLive g.slots.size with
        | false => rfl
        | true => exact absurd (lt_size_of_isLive hl) (Nat.lt_irrefl _)
      · simp only [CallGraph.function?, Array.getElem?_push]
        split <;> rfl
      · exact fun m hm => absurd hm List.not_mem_nil
      · rw [Array.size_push]
        exact Nat.le_succ _
    | cons n rest =>
      have hn := hg.vacantFree n (hv ▸ List.mem_cons_self)
      have hnd := hg.vacantNodup
      rw [hv, List.nodup_cons] at hnd
      refine ⟨_, _, by simp only [insert, hx, hv]; exact rfl, ?_⟩
      refine ⟨?_, hn.2, fun m => ?_, rfl, ?_, fun _ => hnd.2, ?_⟩
      · intro e
        rw [e, hg.pointerLive] at hn
        cases hn.2
      · simp only [CallGraph.function?, Array.getElem?_setIfInBounds]
        by_cases e : n = m
        · rw [if_pos e, if_pos e.symm, if_pos (e ▸ hn.1)]
          rfl
        · rw [if_neg e, if_neg fun e' => e e'.symm]
      · intro m hm
        exact ⟨hv ▸ List.mem_cons_of_mem n hm, fun e => hnd.1 (e ▸ hm)⟩
      · rw [Array.size_setIfInBounds]

theorem calls_addCall {x y : Node} :
    (g.addCall a b).2.Calls x y ↔ g.Calls x y ∨ (x = a ∧ y = b) := by
  unfold addCall
  split
  · rename_i h
    refine ⟨.inl, fun hxy => ?_⟩
    rcases hxy with h' | ⟨rfl, rfl⟩
    · exact h'
    · exact hasCall_iff.mp h
  · split <;> simp only [Calls, List.mem_cons, exists_eq_or_imp] <;>
      exact or_comm.trans (or_congr_right (and_congr eq_comm eq_comm))

@[simp] theorem slots_addCall : (g.addCall a b).2.slots = g.slots := by
  unfold addCall
  split
  · rfl
  · split <;> rfl

@[simp] theorem vacant_addCall : (g.addCall a b).2.vacant = g.vacant := by
  unfold addCall
  split
  · rfl
  · split <;> rfl

@[simp] theorem function?_addCall : (g.addCall a b).2.function? m = g.function? m := by
  rw [function?, function?, slots_addCall]

theorem function?_remove (hn : n ≠ pointer) :
    (g.remove n).2.function? m = if m = n then none else g.function? m := by
  have hfree : (g.free n).function? m = if m = n then none else g.function? m := by
    simp only [free, function?, Array.getElem?_setIfInBounds]
    by_cases e : n = m
    · rw [if_pos e, if_pos e.symm]
      split <;> rfl
    · rw [if_neg e, if_neg fun e' => e e'.symm]
  unfold remove
  rw [if_neg fun e => hn (beq_iff_eq.mp e)]
  cases hf : g.function? n with
  | some f => exact hfree
  | none =>
    by_cases e : m = n
    · rw [if_pos e, e]
      exact hf
    · rw [if_neg e]

/-- Removing a function removes the calls it makes and gets. -/
theorem calls_remove (hn : n ≠ pointer) (hl : g.isLive n = true) :
    (g.remove n).2.calls = g.calls.filter fun c => c.caller != n && c.callee != n := by
  obtain ⟨f, hf⟩ := isLive_iff.mp hl
  unfold remove
  rw [if_neg fun e => hn (beq_iff_eq.mp e), hf]
  rfl

theorem remove_of_not_live (hl : g.isLive n = false) : (g.remove n).2 = g := by
  have hf : g.function? n = none := Option.not_isSome_iff_eq_none.mp (Bool.eq_false_iff.mp hl)
  unfold remove
  split
  · rfl
  · rw [hf]

/-! ## 3. The operations keep a graph well-formed -/

/-- Only what nodes are in use and at which addresses counts, beside the calls and the free
    slots. -/
theorem WellFormed.congr {h : CallGraph} (hg : g.WellFormed)
    (hl : ∀ m, h.isLive m = g.isLive m) (ha : ∀ m, h.address m = g.address m)
    (hc : ∀ {a b}, h.Calls a b → g.isLive a = true ∧ g.isLive b = true)
    (hv : h.vacant = g.vacant) (hs : h.slots.size = g.slots.size) : h.WellFormed where
  pointerLive := (hl _).trans hg.pointerLive
  callsLive hab := by
    rw [hl, hl]
    exact hc hab
  addressInj {a b} hma hmb e := by
    rw [mem_functions, hl] at hma hmb
    rw [ha, ha] at e
    exact hg.addressInj (mem_functions.mpr hma) (mem_functions.mpr hmb) e
  vacantFree m hm := by
    rw [hs, hl]
    exact hg.vacantFree m (hv ▸ hm)
  vacantNodup := hv ▸ hg.vacantNodup

theorem WellFormed.modify (hg : g.WellFormed) (n : Node) {f : Function → Function}
    (hf : ∀ x, (f x).address = x.address) : (g.modify n f).WellFormed :=
  hg.congr (fun _ => isLive_modify f) (fun _ => address_modify hf) hg.callsLive rfl
    (Array.size_modify ..)

theorem WellFormed.addCall (hg : g.WellFormed) (ha : g.isLive a = true) (hb : g.isLive b = true) :
    (g.addCall a b).2.WellFormed := by
  refine hg.congr (fun _ => ?_) (fun _ => ?_) (fun h => ?_) vacant_addCall
    (congrArg Array.size slots_addCall)
  · rw [isLive, isLive, function?_addCall]
  · rw [address, address, function?_addCall]
  · rcases calls_addCall.mp h with h | ⟨rfl, rfl⟩
    · exact hg.callsLive h
    · exact ⟨ha, hb⟩

section Adds

variable {f : Function} {h : CallGraph}

theorem Adds.isLive (e : Adds g f n h) (m : Node) :
    h.isLive m = true ↔ m = n ∨ g.isLive m = true := by
  rw [CallGraph.isLive, e.function?]
  split
  · rename_i e'
    exact iff_of_true rfl (.inl e')
  · rename_i e'
    exact (or_iff_right e').symm

theorem Adds.address (e : Adds g f n h) (m : Node) :
    h.address m = if m = n then f.address else g.address m := by
  rw [CallGraph.address, e.function?]
  split <;> rfl

theorem Adds.wellFormed (e : Adds g f n h) (hg : g.WellFormed)
    (hx : g.find? f.address = none) : h.WellFormed where
  pointerLive := (e.isLive _).mpr (.inr hg.pointerLive)
  callsLive {a b} hab := by
    rw [Calls, e.calls] at hab
    exact ⟨(e.isLive a).mpr (.inr (hg.callsLive hab).1),
      (e.isLive b).mpr (.inr (hg.callsLive hab).2)⟩
  addressInj {a b} ha hb hab := by
    rw [mem_functions, e.isLive] at ha hb
    rw [e.address, e.address] at hab
    -- the new function's address is none of the others'
    have hnew : ∀ {c}, c ≠ pointer → g.isLive c = true → g.address c ≠ f.address :=
      fun hc hl => find?_none hx _ (mem_functions.mpr ⟨hc, hl⟩)
    by_cases ea : a = n <;> by_cases eb : b = n
    · rw [ea, eb]
    · rw [if_pos ea, if_neg eb] at hab
      exact absurd hab.symm (hnew hb.1 (hb.2.resolve_left eb))
    · rw [if_neg ea, if_pos eb] at hab
      exact absurd hab (hnew ha.1 (ha.2.resolve_left ea))
    · rw [if_neg ea, if_neg eb] at hab
      exact hg.addressInj (mem_functions.mpr ⟨ha.1, ha.2.resolve_left ea⟩)
        (mem_functions.mpr ⟨hb.1, hb.2.resolve_left eb⟩) hab
  vacantFree m hm := by
    obtain ⟨hv, hne⟩ := e.vacant m hm
    obtain ⟨hlt, hl⟩ := hg.vacantFree m hv
    refine ⟨Nat.lt_of_lt_of_le hlt e.size, Bool.eq_false_iff.mpr fun hm' => ?_⟩
    rcases (e.isLive m).mp hm' with e' | h'
    · exact hne e'
    · rw [hl] at h'
      cases h'
  vacantNodup := e.vacantNodup hg.vacantNodup

end Adds

theorem WellFormed.insert (hg : g.WellFormed) (f : Function) : (g.insert f).2.WellFormed := by
  rcases hg.insert_cases f with ⟨n, _, e⟩ | ⟨hx, n, h, e, hadd⟩
  · rw [e]
    exact hg
  · rw [e]
    exact hadd.wellFormed hg hx

theorem isLive_remove (hn : n ≠ pointer) :
    (g.remove n).2.isLive m = true ↔ m ≠ n ∧ g.isLive m = true := by
  rw [isLive, function?_remove hn]
  split
  · rename_i e
    exact iff_of_false Bool.false_ne_true fun h => h.1 e
  · rename_i e
    exact (and_iff_right e).symm

theorem address_remove (hn : n ≠ pointer) (hm : m ≠ n) :
    (g.remove n).2.address m = g.address m := by
  rw [address, address, function?_remove hn, if_neg hm]

theorem calls_remove_iff (hn : n ≠ pointer) (hl : g.isLive n = true) :
    (g.remove n).2.Calls a b ↔ g.Calls a b ∧ a ≠ n ∧ b ≠ n := by
  simp only [Calls, calls_remove hn hl, List.mem_filter, Bool.and_eq_true, bne_iff_ne]
  constructor
  · intro h
    obtain ⟨c, ⟨hc, h1, h2⟩, ha, hb⟩ := h
    exact ⟨⟨c, hc, ha, hb⟩, ha ▸ h1, hb ▸ h2⟩
  · intro h
    obtain ⟨⟨c, hc, ha, hb⟩, h1, h2⟩ := h
    exact ⟨c, ⟨hc, ha ▸ h1, hb ▸ h2⟩, ha, hb⟩

theorem WellFormed.remove (hg : g.WellFormed) (n : Node) : (g.remove n).2.WellFormed := by
  by_cases hn : n = pointer
  · rw [hn]
    exact hg
  cases hl : g.isLive n with
  | false =>
    rw [remove_of_not_live hl]
    exact hg
  | true =>
    have hfun : ∀ {m}, m ∈ (g.remove n).2.functions → m ≠ n ∧ m ∈ g.functions := by
      intro m hm
      obtain ⟨h0, h1⟩ := mem_functions.mp hm
      obtain ⟨hne, h1⟩ := (isLive_remove hn).mp h1
      exact ⟨hne, mem_functions.mpr ⟨h0, h1⟩⟩
    obtain ⟨f, hf⟩ := isLive_iff.mp hl
    have hfree : (g.remove n).2 = g.free n := by
      rw [CallGraph.remove, if_neg fun e => hn (beq_iff_eq.mp e), hf]
    have hsize : (g.remove n).2.slots.size = g.slots.size := by
      rw [hfree]
      exact Array.size_setIfInBounds
    have hvac : (g.remove n).2.vacant = n :: g.vacant := by rw [hfree]; rfl
    refine ⟨(isLive_remove hn).mpr ⟨Ne.symm hn, hg.pointerLive⟩, ?_, ?_, ?_, ?_⟩
    · intro a b h
      obtain ⟨hab, ha, hb⟩ := (calls_remove_iff hn hl).mp h
      exact ⟨(isLive_remove hn).mpr ⟨ha, (hg.callsLive hab).1⟩,
        (isLive_remove hn).mpr ⟨hb, (hg.callsLive hab).2⟩⟩
    · intro a b ha hb e
      rw [address_remove hn (hfun ha).1, address_remove hn (hfun hb).1] at e
      exact hg.addressInj (hfun ha).2 (hfun hb).2 e
    · intro m hm
      rw [hvac] at hm
      rw [hsize]
      rcases List.mem_cons.mp hm with rfl | hm
      · refine ⟨lt_size_of_isLive hl, Bool.eq_false_iff.mpr fun h => ?_⟩
        exact ((isLive_remove hn).mp h).1 rfl
      · obtain ⟨hlt, hd⟩ := hg.vacantFree m hm
        refine ⟨hlt, Bool.eq_false_iff.mpr fun h => ?_⟩
        rw [((isLive_remove hn).mp h).2] at hd
        cases hd
    · rw [hvac]
      refine List.nodup_cons.mpr ⟨fun h => ?_, hg.vacantNodup⟩
      rw [(hg.vacantFree n h).2] at hl
      cases hl

theorem wellFormed_empty : empty.WellFormed where
  pointerLive := rfl
  callsLive h := by
    obtain ⟨c, hc, _⟩ := h
    exact absurd hc List.not_mem_nil
  addressInj {a b} ha _ _ := by
    obtain ⟨h0, h1⟩ := mem_functions.mp ha
    exact absurd (Nat.lt_one_iff.mp (lt_size_of_isLive h1)) h0
  vacantFree _ h := absurd h List.not_mem_nil
  vacantNodup := List.nodup_nil

/-! ## 4. Histories -/

/-- The graphs that the operations make, whatever is written into the functions but their
    address. -/
inductive Built : CallGraph → Prop where
  | empty : Built empty
  | insert (g : CallGraph) (f : Function) (h : Built g) : Built (g.insert f).2
  | addCall (g : CallGraph) (a b : Node) (h : Built g) (ha : g.isLive a = true)
      (hb : g.isLive b = true) : Built (g.addCall a b).2
  | remove (g : CallGraph) (n : Node) (h : Built g) : Built (g.remove n).2
  | modify (g : CallGraph) (n : Node) (f : Function → Function) (h : Built g)
      (hf : ∀ x, (f x).address = x.address) : Built (g.modify n f)

/-- **Every graph that the operations make is well-formed.** -/
theorem Built.wellFormed (h : Built g) : g.WellFormed := by
  induction h with
  | empty => exact wellFormed_empty
  | insert g f _ ih => exact ih.insert f
  | addCall g a b _ ha hb ih => exact ih.addCall ha hb
  | remove g n _ ih => exact ih.remove n
  | modify g n f _ hf ih => exact ih.modify n hf

end CallGraph

end StackDepth

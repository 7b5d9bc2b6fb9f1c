import Mathlib.Data.Finmap
import Mathlib.Data.Set.Function
import StackDepth.Proofs.CallGraph.Table

/-!
# Call graphs and their tables

Slots are taken, freed and taken again, and nodes are numbers of slots. Seen from outside none of
this shows: a call graph is a map from addresses to functions and a list of calls between addresses.

* `Table`: that map and that list, with the operations and the questions of a call graph;
* `History`: a graph and a table to which the same operations have led;
* `History.refines`: they hold the same functions and the same calls, in the same order;
* `Mirrors`: they answer alike; `Tidy`: what every such graph has besides;
* `History.mirrors_and_tidy`: so it is after every history.
-/

namespace StackDepth

/-! ## 1. Tables -/

/-- A call graph without nodes. A place is an address, or nowhere for the function pointer. -/
structure Table where
  functions : Finmap fun _ : Nat => Function
  /-- The calls by the places of caller and callee, in the order in which they were found. -/
  pairs : List (Option Nat × Option Nat)

namespace Table

def empty : Table := ⟨∅, []⟩

/-- A function joins unless there is one at its address. -/
def insert (T : Table) (f : Function) : Table :=
  if f.address ∈ T.functions then T else { T with functions := T.functions.insert f.address f }

/-- A call joins at the end unless it is there. -/
def addCall (T : Table) (caller callee : Option Nat) : Table :=
  if (caller, callee) ∈ T.pairs then T else { T with pairs := T.pairs ++ [(caller, callee)] }

/-- A function leaves with every call that names it; the function pointer stays. -/
def remove (T : Table) : Option Nat → Table
  | none => T
  | some x =>
    { functions := T.functions.erase x
      pairs := T.pairs.filter fun q => q.1 != some x && q.2 != some x }

/-- The addresses of the functions, ascending. -/
def addresses (T : Table) : List Nat := T.functions.keys.sort (· ≤ ·)

def callees (T : Table) (place : Option Nat) : List (Option Nat) :=
  (T.pairs.filter (·.1 == place)).map (·.2)

def callers (T : Table) (place : Option Nat) : List (Option Nat) :=
  (T.pairs.filter (·.2 == place)).map (·.1)

def callsPointer (T : Table) (place : Option Nat) : Bool := decide ((place, none) ∈ T.pairs)

/-- A function that nothing calls. -/
def isEntrance (T : Table) (place : Option Nat) : Bool :=
  place.isSome && T.pairs.all (·.2 != place)

/-- The addresses of the functions that nothing calls, ascending. -/
def entrances (T : Table) : List Nat := T.addresses.filter fun x => T.isEntrance (some x)

variable {T : Table} {x : Nat}

theorem lookup_insert (T : Table) (f : Function) (x : Nat) : (T.insert f).functions.lookup x =
    if x = f.address then some ((T.functions.lookup x).getD f) else T.functions.lookup x := by
  unfold insert
  by_cases hf : f.address ∈ T.functions
  · rw [if_pos hf]
    by_cases hx : x = f.address
    · obtain ⟨f', hf'⟩ := Finmap.mem_iff.mp hf
      rw [if_pos hx, hx, hf']
      rfl
    · rw [if_neg hx]
  · rw [if_neg hf]
    by_cases hx : x = f.address
    · rw [if_pos hx, hx, Finmap.lookup_insert, Finmap.lookup_eq_none.mpr hf]
      rfl
    · rw [if_neg hx, Finmap.lookup_insert_of_ne _ hx]

theorem pairs_insert (T : Table) (f : Function) : (T.insert f).pairs = T.pairs := by
  unfold insert
  split <;> rfl

theorem functions_addCall (T : Table) (a b : Option Nat) :
    (T.addCall a b).functions = T.functions := by
  unfold addCall
  split <;> rfl

theorem pairs_addCall (T : Table) (a b : Option Nat) : (T.addCall a b).pairs =
    if (a, b) ∈ T.pairs then T.pairs else T.pairs ++ [(a, b)] := by
  unfold addCall
  split <;> rfl

theorem lookup_remove (T : Table) (x y : Nat) : (T.remove (some x)).functions.lookup y =
    if y = x then none else T.functions.lookup y := by
  show (T.functions.erase x).lookup y = _
  by_cases hy : y = x
  · rw [if_pos hy, hy, Finmap.lookup_erase]
  · rw [if_neg hy, Finmap.lookup_erase_ne hy]

/-- No callee comes twice where no pair does. -/
theorem callees_nodup (h : T.pairs.Nodup) (place : Option Nat) : (T.callees place).Nodup := by
  refine (h.filter _).map_on fun q hq r hr e => ?_
  have h1 := beq_iff_eq.mp (List.mem_filter.mp hq).2
  have h2 := beq_iff_eq.mp (List.mem_filter.mp hr).2
  exact Prod.ext (h1.trans h2.symm) e

theorem callers_nodup (h : T.pairs.Nodup) (place : Option Nat) : (T.callers place).Nodup := by
  refine (h.filter _).map_on fun q hq r hr e => ?_
  have h1 := beq_iff_eq.mp (List.mem_filter.mp hq).2
  have h2 := beq_iff_eq.mp (List.mem_filter.mp hr).2
  exact Prod.ext e (h1.trans h2.symm)

end Table

namespace CallGraph

variable {g h : CallGraph} {T : Table} {a b n m : Node} {f : Function} {x : Nat}

/-! ## 2. Histories -/

/-- A graph and a table to which the same operations have led. The table is told the places of the
    nodes that the graph is given, and those are in use. -/
inductive History : CallGraph → Table → Prop where
  | empty : History CallGraph.empty Table.empty
  | addFunction {g : CallGraph} {T : Table} (h : History g T) (address : Nat) (name : String) :
      History (g.addFunction address name).2 (T.insert (Function.named address name))
  | addUnnamed {g : CallGraph} {T : Table} (h : History g T) (address : Nat) :
      History (g.addUnnamed address).2 (T.insert (Function.unnamed address))
  | addCall {g : CallGraph} {T : Table} (h : History g T) (a b : Node) (ha : g.isLive a = true)
      (hb : g.isLive b = true) : History (g.addCall a b).2 (T.addCall (g.place a) (g.place b))
  | remove {g : CallGraph} {T : Table} (h : History g T) (n : Node) (hn : g.isLive n = true) :
      History (g.remove n).2 (T.remove (g.place n))

/-- The graph holds what the table holds. -/
structure Refines (g : CallGraph) (T : Table) : Prop where
  wellFormed : g.WellFormed
  at? : ∀ x, g.at? x = T.functions.lookup x
  pairs : g.pairs = T.pairs
  nodup : T.pairs.Nodup

theorem refines_empty : Refines CallGraph.empty Table.empty where
  wellFormed := wellFormed_empty
  at? _ := rfl
  pairs := rfl
  nodup := List.nodup_nil

theorem Refines.insert (hr : Refines g T) (f : Function) :
    Refines (g.insert f).2 (T.insert f) where
  wellFormed := hr.wellFormed.insert f
  at? x := by rw [hr.wellFormed.at?_insert, Table.lookup_insert, hr.at?]
  pairs := by rw [hr.wellFormed.pairs_insert, Table.pairs_insert, hr.pairs]
  nodup := by
    rw [Table.pairs_insert]
    exact hr.nodup

theorem Refines.addCall (hr : Refines g T) (ha : g.isLive a = true) (hb : g.isLive b = true) :
    Refines (g.addCall a b).2 (T.addCall (g.place a) (g.place b)) where
  wellFormed := hr.wellFormed.addCall ha hb
  at? x := by rw [at?_addCall, Table.functions_addCall, hr.at?]
  pairs := by rw [hr.wellFormed.pairs_addCall ha hb, Table.pairs_addCall, hr.pairs]
  nodup := by
    rw [Table.pairs_addCall]
    split
    · exact hr.nodup
    · rename_i hnew
      exact List.nodup_append.mpr ⟨hr.nodup, List.nodup_singleton _, fun q hq r hr' e =>
        hnew (List.mem_singleton.mp hr' ▸ e ▸ hq)⟩

theorem Refines.remove (hr : Refines g T) (hn : g.isLive n = true) :
    Refines (g.remove n).2 (T.remove (g.place n)) := by
  by_cases hp : n = pointer
  · subst hp
    rw [place_pointer]
    exact hr
  · have hmem : n ∈ g.functions := mem_functions.mpr ⟨hp, hn⟩
    rw [place_of_mem hmem]
    refine ⟨hr.wellFormed.remove n, fun x => ?_, ?_, hr.nodup.filter _⟩
    · rw [hr.wellFormed.at?_remove hmem, Table.lookup_remove, hr.at?]
    · rw [hr.wellFormed.pairs_remove hmem, hr.pairs]
      rfl

/-- **What a history leaves in the graph is what it leaves in the table.** -/
theorem History.refines (h : History g T) : Refines g T := by
  induction h with
  | empty => exact refines_empty
  | addFunction _ address name ih => exact ih.insert (Function.named address name)
  | addUnnamed _ address ih => exact ih.insert (Function.unnamed address)
  | addCall _ a b ha hb ih => exact ih.addCall ha hb
  | remove _ n hn ih => exact ih.remove hn

/-! ## 3. Answers -/

/-- Graph and table answer alike: a node is asked for by its place in the table. -/
structure Mirrors (g : CallGraph) (T : Table) : Prop where
  find? : ∀ x, (g.find? x).bind g.function? = T.functions.lookup x
  place_find? : ∀ x n, g.find? x = some n → g.place n = some x
  function? : ∀ n ∈ g.functions, g.function? n = T.functions.lookup (g.address n)
  functions : g.functions.map g.address = T.addresses
  size : g.size = T.functions.keys.card
  isEmpty : g.isEmpty = decide (T.functions.keys = ∅)
  callees : ∀ n, g.isLive n = true → (g.callees n).map g.place = T.callees (g.place n)
  callers : ∀ n, g.isLive n = true → (g.callers n).map g.place = T.callers (g.place n)
  callsPointer : ∀ n, g.isLive n = true → g.callsPointer n = T.callsPointer (g.place n)
  isEntrance : ∀ n, g.isLive n = true → g.isEntrance n = T.isEntrance (g.place n)
  entrances : g.entrances.map g.address = T.entrances
  /-- A function that is added is found at its address. -/
  insert : ∀ f, (g.insert f).2.find? f.address = some (g.insert f).1
  /-- A call is added unless it is there. -/
  addCall : ∀ a b, g.isLive a = true → g.isLive b = true →
    (g.addCall a b).1 = decide ((g.place a, g.place b) ∉ T.pairs)
  /-- What is removed is the function of the place, and nothing for the function pointer. -/
  remove : ∀ n, g.isLive n = true → (g.remove n).1 = (g.place n).bind T.functions.lookup

/-- What holds of every graph that a history leads to, besides. -/
structure Tidy (g : CallGraph) : Prop where
  mutually : ∀ a b, b ∈ g.callees a ↔ a ∈ g.callers b
  functions : g.functions.Nodup
  entrances : g.entrances.Nodup
  callees : ∀ n, (g.callees n).Nodup
  callers : ∀ n, (g.callers n).Nodup
  addresses : Set.BijOn g.address {n | n ≠ pointer ∧ g.isLive n = true}
    {x | (g.find? x).isSome = true}
  /-- A function that is new has its own data and no calls, whatever its slot has held before. -/
  fresh : ∀ f, g.find? f.address = none →
    g.isLive (g.insert f).1 = false ∧ (g.insert f).1 ≠ pointer ∧
      (g.insert f).2.function? (g.insert f).1 = some f ∧
      (g.insert f).2.callees (g.insert f).1 = [] ∧ (g.insert f).2.callers (g.insert f).1 = []
  /-- All other nodes stay as they are. -/
  others : ∀ f m, m ≠ (g.insert f).1 → (g.insert f).2.function? m = g.function? m ∧
    (g.insert f).2.callees m = g.callees m ∧ (g.insert f).2.callers m = g.callers m

/-- A node that is not in use has no calls. -/
theorem WellFormed.calls_eq_nil (hg : g.WellFormed) (hn : g.isLive n = false) :
    g.callees n = [] ∧ g.callers n = [] := by
  refine ⟨List.eq_nil_iff_forall_not_mem.mpr fun m hm => ?_,
    List.eq_nil_iff_forall_not_mem.mpr fun m hm => ?_⟩
  · rw [(hg.callsLive (mem_callees.mp hm)).1] at hn
    cases hn
  · rw [(hg.callsLive (mem_callers.mp hm)).2] at hn
    cases hn

namespace Refines

variable (hr : Refines g T)
include hr

/-- The functions are listed by ascending address on both sides. -/
theorem map_address_functions : g.functions.map g.address = T.addresses := by
  refine hr.wellFormed.map_address_functions fun x => ?_
  rw [Finmap.mem_keys, Finmap.mem_iff, hr.at?]

theorem length_functions : g.functions.length = T.functions.keys.card := by
  rw [← List.length_map g.address, hr.map_address_functions, Table.addresses, Finset.length_sort]

theorem callsPointer_eq (hn : g.isLive n = true) :
    g.callsPointer n = T.callsPointer (g.place n) := by
  have hmem := hr.wellFormed.mem_pairs hn hr.wellFormed.pointerLive
  rw [place_pointer, hr.pairs, ← callsPointer_iff] at hmem
  rw [Table.callsPointer, Bool.eq_iff_iff, decide_eq_true_iff]
  exact hmem.symm

theorem isEntrance_eq (hn : g.isLive n = true) : g.isEntrance n = T.isEntrance (g.place n) := by
  have hpair : (g.calls.all fun c => c.callee != n) = T.pairs.all (·.2 != g.place n) := by
    rw [← hr.pairs, CallGraph.pairs, List.all_reverse, List.all_map, Bool.eq_iff_iff,
      List.all_eq_true, List.all_eq_true]
    refine forall₂_congr fun c hc => ?_
    have hbeq := hr.wellFormed.place_beq (hr.wellFormed.callsLive ⟨c, hc, rfl, rfl⟩).2 hn
    simp only [Function.comp, bne, hbeq]
  rw [isEntrance, Table.isEntrance, hpair]
  by_cases hp : n = pointer
  · subst hp
    rw [place_pointer]
    rfl
  · rw [place_of_mem (mem_functions.mpr ⟨hp, hn⟩), bne_iff_ne.mpr hp]
    rfl

theorem map_address_entrances : g.entrances.map g.address = T.entrances := by
  rw [CallGraph.entrances, Table.entrances, ← hr.map_address_functions, List.filter_map]
  refine congrArg (List.map g.address) (List.filter_congr fun n hn => ?_)
  rw [hr.isEntrance_eq (mem_functions.mp hn).2, place_of_mem hn]
  rfl

theorem addCall_fst (ha : g.isLive a = true) (hb : g.isLive b = true) :
    (g.addCall a b).1 = decide ((g.place a, g.place b) ∉ T.pairs) := by
  have hmem := hr.wellFormed.mem_pairs ha hb
  rw [hr.pairs, ← hasCall_iff] at hmem
  unfold CallGraph.addCall
  by_cases hc : g.hasCall a b = true
  · rw [if_pos hc, decide_eq_false (not_not_intro (hmem.mpr hc))]
  · have hnew : (g.place a, g.place b) ∉ T.pairs := fun hq => hc (hmem.mp hq)
    rw [if_neg hc, decide_eq_true hnew]
    split <;> rfl

theorem remove_fst (hn : g.isLive n = true) :
    (g.remove n).1 = (g.place n).bind T.functions.lookup := by
  unfold CallGraph.remove
  by_cases hp : n = pointer
  · subst hp
    rw [place_pointer]
    rfl
  · have hmem : n ∈ g.functions := mem_functions.mpr ⟨hp, hn⟩
    obtain ⟨f, hf⟩ := isLive_iff.mp hn
    rw [if_neg fun e => hp (beq_iff_eq.mp e), hf, place_of_mem hmem, Option.bind_some, ← hr.at?,
      hr.wellFormed.at?_address hmem, hf]

/-- **Graph and table answer alike.** -/
theorem mirrors : Mirrors g T where
  find? := hr.at?
  place_find? x n hx := by
    obtain ⟨hn, hax⟩ := hr.wellFormed.find?_iff.mp hx
    rw [place_of_mem hn, hax]
  function? n hn := by rw [← hr.at?, hr.wellFormed.at?_address hn]
  functions := hr.map_address_functions
  size := by
    rw [← hr.length_functions, CallGraph.functions, List.length_mergeSort]
    rfl
  isEmpty := by
    rw [Bool.eq_iff_iff, decide_eq_true_iff, ← Finset.card_eq_zero, ← hr.length_functions,
      CallGraph.functions, List.length_mergeSort, List.length_eq_zero_iff]
    exact List.isEmpty_iff
  callees n hn := by rw [hr.wellFormed.map_place_callees hn, hr.pairs, Table.callees]
  callers n hn := by rw [hr.wellFormed.map_place_callers hn, hr.pairs, Table.callers]
  callsPointer n hn := hr.callsPointer_eq hn
  isEntrance n hn := hr.isEntrance_eq hn
  entrances := hr.map_address_entrances
  insert f := hr.wellFormed.find?_insert f
  addCall a b ha hb := hr.addCall_fst ha hb
  remove n hn := hr.remove_fst hn

theorem callees_nodup (n : Node) : (g.callees n).Nodup := by
  by_cases hn : g.isLive n = true
  · refine List.Nodup.of_map g.place ?_
    rw [hr.mirrors.callees n hn]
    exact Table.callees_nodup hr.nodup _
  · rw [(hr.wellFormed.calls_eq_nil (Bool.eq_false_iff.mpr hn)).1]
    exact List.nodup_nil

theorem callers_nodup (n : Node) : (g.callers n).Nodup := by
  by_cases hn : g.isLive n = true
  · refine List.Nodup.of_map g.place ?_
    rw [hr.mirrors.callers n hn]
    exact Table.callers_nodup hr.nodup _
  · rw [(hr.wellFormed.calls_eq_nil (Bool.eq_false_iff.mpr hn)).2]
    exact List.nodup_nil

end Refines

/-! ## 4. Nodes and addresses -/

theorem WellFormed.bijOn_address (hg : g.WellFormed) :
    Set.BijOn g.address {n | n ≠ pointer ∧ g.isLive n = true} {x | (g.find? x).isSome = true} := by
  refine ⟨fun n hn => ?_, fun n hn m hm e => ?_, fun x hx => ?_⟩
  · exact Option.isSome_iff_exists.mpr ⟨n, hg.find?_iff.mpr ⟨mem_functions.mpr hn, rfl⟩⟩
  · exact hg.addressInj (mem_functions.mpr hn) (mem_functions.mpr hm) e
  · obtain ⟨n, hn⟩ := Option.isSome_iff_exists.mp hx
    obtain ⟨hmem, hax⟩ := hg.find?_iff.mp hn
    exact ⟨n, mem_functions.mp hmem, hax⟩

theorem Adds.callees {f : Function} (e : Adds g f n h) (m : Node) : h.callees m = g.callees m := by
  rw [CallGraph.callees, CallGraph.callees, recentCallees, recentCallees, e.calls]

theorem Adds.callers {f : Function} (e : Adds g f n h) (m : Node) : h.callers m = g.callers m := by
  rw [CallGraph.callers, CallGraph.callers, e.calls]

theorem Refines.tidy (hr : Refines g T) : Tidy g where
  mutually a b := by rw [mem_callees, mem_callers]
  functions := functions_nodup
  entrances := functions_nodup.filter _
  callees := hr.callees_nodup
  callers := hr.callers_nodup
  addresses := hr.wellFormed.bijOn_address
  fresh f hf := by
    rcases hr.wellFormed.insert_cases f with ⟨n, hx, _⟩ | ⟨_, n, h, e, hadd⟩
    · rw [hf] at hx
      cases hx
    · obtain ⟨hcallees, hcallers⟩ := hr.wellFormed.calls_eq_nil hadd.fresh
      rw [e]
      refine ⟨hadd.fresh, hadd.ne_pointer, ?_, (hadd.callees n).trans hcallees,
        (hadd.callers n).trans hcallers⟩
      rw [hadd.function?, if_pos rfl]
  others f m hm := by
    rcases hr.wellFormed.insert_cases f with ⟨n, _, e⟩ | ⟨_, n, h, e, hadd⟩
    · rw [e]
      exact ⟨rfl, rfl, rfl⟩
    · rw [e] at hm ⊢
      exact ⟨by rw [hadd.function?, if_neg hm], hadd.callees m, hadd.callers m⟩

/-- **A call graph is the table of its functions and calls.** After every sequence of operations on
    nodes in use, the graph answers as the table does to which the same operations were applied; and
    no slot that is taken again shows anything of the function it held before. -/
theorem History.mirrors_and_tidy (h : History g T) : Mirrors g T ∧ Tidy g :=
  ⟨h.refines.mirrors, h.refines.tidy⟩

/-- `inner` is called from `main` and calls itself, and is removed; `late` takes its slot. -/
def recycled : CallGraph :=
  let g := (empty.addFunction 0x10 "main").2
  let g := (g.addFunction 0x20 "inner").2
  let g := (g.addCall 1 2).2
  let g := (g.addCall 2 2).2
  let g := (g.remove 2).2
  (g.addFunction 0x30 "late").2

def recycledTable : Table :=
  let T := Table.empty.insert (Function.named 0x10 "main")
  let T := T.insert (Function.named 0x20 "inner")
  let T := T.addCall (some 0x10) (some 0x20)
  let T := T.addCall (some 0x20) (some 0x20)
  let T := T.remove (some 0x20)
  T.insert (Function.named 0x30 "late")

theorem history_recycled : History recycled recycledTable := by
  have h2 := (History.empty.addFunction 0x10 "main").addFunction 0x20 "inner"
  have h4 := (h2.addCall 1 2 (by decide) (by decide)).addCall 2 2 (by decide) (by decide)
  exact (h4.remove 2 (by decide)).addFunction 0x30 "late"

theorem mirrors_and_tidy_recycled :
    (Mirrors recycled recycledTable ∧ Tidy recycled) ∧ recycled.find? 0x30 = some 2 ∧
      recycled.find? 0x20 = none ∧ recycled.callers 2 = [] ∧ recycled.callees 1 = [] :=
  ⟨history_recycled.mirrors_and_tidy, by decide, by decide, by decide, by decide⟩

end CallGraph

end StackDepth

import Std.Data.HashSet
import StackDepth.CallGraph.Basic

/-!
# Reachability and cycles

Which nodes a chain of calls leads to, and the groups of functions that call each other in a
circle.
-/

namespace StackDepth

open Std (HashSet)

/-! ## 1. Search -/

/-- Fewer satisfy what implies a condition and fails where that one holds. -/
theorem countP_lt_countP {l : List Node} {p q : Node → Bool} (h : ∀ m, q m = true → p m = true)
    {n : Node} (hn : n ∈ l) (hp : p n = true) (hq : q n = false) : l.countP q < l.countP p := by
  induction l with
  | nil => cases hn
  | cons k l ih =>
    rcases List.mem_cons.mp hn with rfl | hn
    · have hle : l.countP q ≤ l.countP p := List.countP_mono_left fun m _ => h m
      rw [List.countP_cons_of_pos hp, List.countP_cons_of_neg (by simp [hq])]
      omega
    · have hlt := ih hn
      by_cases hqk : q k = true
      · rw [List.countP_cons_of_pos hqk, List.countP_cons_of_pos (h k hqk)]
        omega
      · have hle : l.countP p ≤ (k :: l).countP p := (List.sublist_cons_self k l).countP_le
        rw [List.countP_cons_of_neg hqk]
        omega

/-- How many nodes below `size` are not in `seen`. -/
def unseen (size : Nat) (seen : HashSet Node) : Nat :=
  (List.range size).countP fun n => !seen.contains n

theorem unseen_insert_lt {size : Nat} {seen : HashSet Node} {n : Nat} (hn : n < size)
    (hs : seen.contains n = false) : unseen size (seen.insert n) < unseen size seen := by
  refine countP_lt_countP (fun m hm => ?_) (List.mem_range.mpr hn) ?_ ?_
  · simp only [HashSet.contains_insert, Bool.not_or, Bool.and_eq_true] at hm
    exact hm.2
  · rw [hs, Bool.not_false]
  · rw [HashSet.contains_insert_self, Bool.not_true]

/-- The nodes below `size` that steps of `next` lead to from `todo`, those of `todo` included, added
    to `seen`; what is in `seen` already is not stepped from again. -/
def explore (size : Nat) (next : Node → List Node) : List Node → HashSet Node → HashSet Node
  | [], seen => seen
  | n :: todo, seen =>
    if n < size then
      if seen.contains n then explore size next todo seen
      else explore size next (next n ++ todo) (seen.insert n)
    else explore size next todo seen
termination_by todo seen => (unseen size seen, todo.length)
decreasing_by
  · exact Prod.Lex.right _ (by simp)
  · rename_i hn hs
    exact Prod.Lex.left _ _ (unseen_insert_lt hn (by simpa using hs))
  · exact Prod.Lex.right _ (by simp)

namespace CallGraph

/-- The callees of every slot, looked up once. -/
def calleeTable (g : CallGraph) : Array (List Node) :=
  ((List.range g.slots.size).map g.callees).toArray

/-- The callers of every slot, looked up once. -/
def callerTable (g : CallGraph) : Array (List Node) :=
  ((List.range g.slots.size).map g.callers).toArray

/-- The nodes that one or more steps lead to from `n`. -/
def reachedBy (table : Array (List Node)) (n : Node) : HashSet Node :=
  explore table.size (fun m => table[m]?.getD []) (table[n]?.getD []) ∅

/-! ## 2. Cycles -/

/-- The nodes by address: the function pointer stands behind the functions that `ahead` puts in
    front of it. -/
def ranked (g : CallGraph) (ahead : Node → Bool) : List Node :=
  g.functions.filter ahead ++ (if g.isLive pointer then [pointer] else []) ++
    g.functions.filter fun n => !ahead n

/-- Whether `n` is below the function pointer. -/
def belowPointer (g : CallGraph) (n : Node) : Bool := decide (g.address n < g.address pointer)

/-- Whether the cycle group that `n` is the first of comes before that of the function pointer. Of
    two at one address, the group that leads to the other comes last. -/
def beforePointer (g : CallGraph) (toPointer : HashSet Node) (n : Node) : Bool :=
  g.belowPointer n || (g.address n == g.address pointer && !toPointer.contains n)

/-- The nodes of the cycle group of `n`, in the order of `nodes`: those that `n` calls, directly or
    not, and that call `n` in turn. Empty unless `n` calls itself. -/
def cycleGroup (nodes : List Node) (callees callers : Array (List Node)) (n : Node) : List Node :=
  let below := reachedBy callees n
  if below.contains n then
    let above := reachedBy callers n
    nodes.filter fun m => below.contains m && above.contains m
  else []

/-- The groups that have one of `firsts` first, each in the order of `nodes`. -/
def groupsFrom (firsts nodes : List Node) (callees callers : Array (List Node)) :
    List (List Node) :=
  firsts.filterMap fun n =>
    let group := cycleGroup nodes callees callers n
    if group.head? = some n then some group else none

/-- The cycle groups, by the address of their first node. -/
def cycles (g : CallGraph) : List (List Node) :=
  let callees := g.calleeTable
  let callers := g.callerTable
  groupsFrom (g.ranked (g.beforePointer (reachedBy callers pointer))) (g.ranked g.belowPointer)
    callees callers

/-! ## 3. What depends on an imprecise function -/

def markImprecise (g : CallGraph) (ns : List Node) : CallGraph :=
  ns.foldl (fun g n => g.modify n fun f => { f with imprecise := true }) g

def markCycle (g : CallGraph) (ns : List Node) : CallGraph :=
  ns.foldl (fun g n => g.modify n fun f => { f with imprecise := true, cycle := true }) g

/-- Whether `n` is in use and not imprecise. -/
def isPrecise (g : CallGraph) (n : Node) : Bool :=
  ((g.function? n).map fun f => !f.imprecise).getD false

/-- How many nodes are in use and not imprecise. -/
def preciseCount (g : CallGraph) : Nat := (List.range g.slots.size).countP g.isPrecise

theorem isPrecise_modify (g : CallGraph) (n m : Node) :
    (g.modify n fun f => { f with imprecise := true }).isPrecise m =
      (g.isPrecise m && n != m) := by
  unfold isPrecise
  rw [function?_modify]
  by_cases h : n = m
  · subst h
    cases g.function? n with
    | none => simp
    | some f => simp
  · simp [h]

theorem isPrecise_markImprecise (g : CallGraph) (ns : List Node) (m : Node) :
    (g.markImprecise ns).isPrecise m = (g.isPrecise m && !ns.contains m) := by
  unfold markImprecise
  induction ns generalizing g with
  | nil => simp
  | cons n ns ih =>
    rw [List.foldl_cons, ih, isPrecise_modify, List.contains_cons, Bool.not_or, Bool.and_assoc]
    congr 2
    rw [bne, Bool.beq_comm]

theorem size_markImprecise (g : CallGraph) (ns : List Node) :
    (g.markImprecise ns).slots.size = g.slots.size := by
  unfold markImprecise
  induction ns generalizing g with
  | nil => rfl
  | cons n ns ih => rw [List.foldl_cons, ih, modify, Array.size_modify]

theorem lt_size_of_isPrecise {g : CallGraph} {n : Node} (h : g.isPrecise n = true) :
    n < g.slots.size := by
  refine Nat.lt_of_not_le fun hle => ?_
  rw [isPrecise, function?, Array.getElem?_eq_none hle] at h
  cases h

/-- Marking a node that is precise leaves fewer of them. -/
theorem preciseCount_markImprecise_lt {g : CallGraph} {ns : List Node} {n : Node} (hn : n ∈ ns)
    (hp : g.isPrecise n = true) : (g.markImprecise ns).preciseCount < g.preciseCount := by
  unfold preciseCount
  rw [size_markImprecise]
  refine countP_lt_countP (fun m hm => ?_) (List.mem_range.mpr (lt_size_of_isPrecise hp)) hp ?_
  · rw [isPrecise_markImprecise, Bool.and_eq_true] at hm
    exact hm.1
  · rw [isPrecise_markImprecise, List.contains_iff_mem.mpr hn, Bool.not_true, Bool.and_false]

/-- The callers of the nodes of a queue become imprecise; those that were precise are put at its
    end, for their own callers. -/
def spreadFrom (callers : Array (List Node)) : List Node → CallGraph → CallGraph
  | [], g => g
  | n :: queue, g =>
    let found := (callers[n]?.getD []).filter g.isPrecise
    spreadFrom callers (queue ++ found) (g.markImprecise found)
termination_by queue g => (g.preciseCount, queue.length)
decreasing_by
  match hfound : (callers[n]?.getD []).filter g.isPrecise with
  | [] => exact Prod.Lex.right _ (by simp)
  | m :: found =>
    have hm : m ∈ (callers[n]?.getD []).filter g.isPrecise := hfound ▸ List.mem_cons_self
    exact Prod.Lex.left _ _
      (preciseCount_markImprecise_lt List.mem_cons_self (List.mem_filter.mp hm).2)

/-- Every function that an imprecise one is called from, directly or not, is imprecise. -/
def spreadImprecision (g : CallGraph) : CallGraph :=
  g.spreadFrom g.callerTable (g.functions.filter g.isImprecise)

/-! ## 4. What the marks leave alone -/

@[simp] theorem calls_markImprecise (g : CallGraph) (ns : List Node) :
    (g.markImprecise ns).calls = g.calls := by
  unfold markImprecise
  induction ns generalizing g with
  | nil => rfl
  | cons n ns ih => exact (ih _).trans (calls_modify _ _ _)

@[simp] theorem calls_markCycle (g : CallGraph) (ns : List Node) :
    (g.markCycle ns).calls = g.calls := by
  unfold markCycle
  induction ns generalizing g with
  | nil => rfl
  | cons n ns ih => exact (ih _).trans (calls_modify _ _ _)

theorem isVisited_markImprecise (g : CallGraph) (ns : List Node) (m : Node)
    (h : g.isVisited m = true) : (g.markImprecise ns).isVisited m = true := by
  unfold markImprecise
  induction ns generalizing g with
  | nil => exact h
  | cons n ns ih => exact ih _ (isVisited_modify _ _ _ _ (fun _ hx => hx) h)

theorem isVisited_markCycle (g : CallGraph) (ns : List Node) (m : Node)
    (h : g.isVisited m = true) : (g.markCycle ns).isVisited m = true := by
  unfold markCycle
  induction ns generalizing g with
  | nil => exact h
  | cons n ns ih => exact ih _ (isVisited_modify _ _ _ _ (fun _ hx => hx) h)

end CallGraph

end StackDepth

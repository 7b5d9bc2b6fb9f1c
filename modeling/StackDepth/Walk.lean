import StackDepth.CallGraph.Basic

/-!
# Walks

A depth-first walk over a call graph, kept as the chain of calls from a root down to where the walk
stands. Each tier of the chain has the siblings that are due once the walk comes back to it; the
siblings of the root are the other roots. A call back into the chain puts its function on the chain
once more: that tier closes a cycle, and the walk goes no deeper from it.

`Walk.down` and `Walk.up` are the two moves. Where the walk stands after a move is `Walk.tail?`. A
`Trail` carries a walk out with stacks and a table in place of the list of tiers.
-/

namespace StackDepth

structure Tier where
  node : Node
  /-- The nodes due after this one, the next first. -/
  siblings : List Node
  deriving DecidableEq, Repr

structure Walk where
  /-- The chain, the innermost tier first. -/
  tiers : List Tier := []
  /-- The walk came back to where it stands, so all callees there are done. -/
  returned : Bool := false
  deriving DecidableEq, Repr

namespace Walk

/-! ## 1. The chain -/

/-- A walk from the first root; the others follow in order. -/
def start : List Node → Walk
  | [] => {}
  | root :: others => { tiers := [⟨root, others⟩] }

/-- The nodes of the chain, the root first. -/
def path (w : Walk) : List Node := (w.tiers.map (·.node)).reverse

/-- The siblings that are due at each tier, those of the root first. -/
def pending (w : Walk) : List (List Node) := (w.tiers.map (·.siblings)).reverse

/-- Where the walk stands. -/
def tail? (w : Walk) : Option Node := w.tiers.head?.map (·.node)

/-- The first position of a node on the chain. -/
def position? (w : Walk) (n : Node) : Option Nat := w.path.idxOf? n

/-- The innermost tier has the node of an outer one. -/
def isClosing (w : Walk) : Bool :=
  match w.tiers with
  | [] => false
  | t :: outer => outer.any (·.node == t.node)

/-- Where the cycle starts that the innermost tier closes. -/
def cycleStart? (w : Walk) : Option Nat :=
  if w.isClosing then w.tail?.bind w.position? else none

/-! ## 2. How much is left

A call is open as long as its caller is neither visited nor on the part of the chain whose callees
the walk has taken up. Open calls and the tiers and siblings in hand bound the moves to come. -/

/-- The caller of `c` is not visited and is no node of `taken`. -/
def isOpen (g : CallGraph) (taken : List Tier) (c : Call) : Bool :=
  !g.isVisited c.caller && !taken.any (·.node == c.caller)

/-- How many calls are open. -/
def openCalls (g : CallGraph) (taken : List Tier) : Nat := g.calls.countP (isOpen g taken)

/-- The tiers, and the siblings due at them. -/
def load (tiers : List Tier) : Nat := (tiers.map fun t => t.siblings.length + 1).foldr (· + ·) 0

/-- The tiers whose callees the walk has taken up. -/
def taken (w : Walk) : List Tier := if w.returned then w.tiers else w.tiers.tail

def work (g : CallGraph) (w : Walk) : Nat := openCalls g w.taken + load w.tiers

/-- The unvisited callees of `n`, the newest call first. -/
def due (g : CallGraph) (n : Node) : List Node :=
  (g.recentCallees n).filter fun m => !g.isVisited m

theorem length_due_le (g : CallGraph) (n : Node) :
    (due g n).length ≤ g.calls.countP (·.caller == n) := by
  unfold due CallGraph.recentCallees
  refine Nat.le_trans (List.length_filter_le _ _) (Nat.le_of_eq ?_)
  rw [List.length_map, List.countP_eq_length_filter]

/-- Taking up the callees of a node that was open closes all its calls. -/
theorem openCalls_cons (g : CallGraph) (t : Tier) (outer : List Tier)
    (hv : g.isVisited t.node = false) (ho : outer.any (·.node == t.node) = false) :
    openCalls g (t :: outer) + g.calls.countP (·.caller == t.node) = openCalls g outer := by
  unfold openCalls
  induction g.calls with
  | nil => rfl
  | cons c cs ih =>
    simp only [List.countP_cons]
    by_cases h : c.caller = t.node
    · have h1 : isOpen g (t :: outer) c = false := by simp [isOpen, h]
      have h2 : isOpen g outer c = true := by simp [isOpen, h, hv, ho]
      simp only [h1, h2, h, BEq.rfl, if_true, Bool.false_eq_true, if_false]
      omega
    · have h1 : isOpen g (t :: outer) c = isOpen g outer c := by
        have : (t.node == c.caller) = false := by simp [Ne.symm h]
        simp [isOpen, this]
      have h2 : (c.caller == t.node) = false := by simp [h]
      simp only [h1, h2, Bool.false_eq_true, if_false]
      omega

/-! ## 3. The moves -/

/-- Goes from the innermost tier into unvisited callees, the newest call first, until it meets a
    node that is visited, closes a cycle or has no unvisited callee. -/
def descend (g : CallGraph) : List Tier → List Tier
  | [] => []
  | t :: outer =>
    if _ : g.isVisited t.node then t :: outer
    else if _ : outer.any (·.node == t.node) then t :: outer
    else
      match _ : due g t.node with
      | [] => t :: outer
      | child :: siblings => descend g (⟨child, siblings⟩ :: t :: outer)
termination_by tiers => openCalls g tiers.tail
decreasing_by
  rename_i hv ho hd
  have h := openCalls_cons g t outer (by simpa using hv) (by simpa using ho)
  have hl := length_due_le g t.node
  rw [hd] at hl
  simp only [List.length_cons] at hl
  simp only [List.tail_cons]
  omega

section Descend

variable {g : CallGraph} {t : Tier} {outer : List Tier}

theorem descend_of_visited (hv : g.isVisited t.node = true) :
    descend g (t :: outer) = t :: outer := by
  rw [descend, dif_pos hv]

theorem descend_of_closing (ho : outer.any (·.node == t.node) = true) :
    descend g (t :: outer) = t :: outer := by
  by_cases hv : g.isVisited t.node = true
  · exact descend_of_visited hv
  · rw [descend, dif_neg hv, dif_pos ho]

theorem descend_of_due_nil (hd : due g t.node = []) : descend g (t :: outer) = t :: outer := by
  rw [descend]
  split
  · rfl
  · split
    · rfl
    · split
      · rfl
      · rename_i e
        rw [hd] at e
        cases e

theorem descend_of_due_cons {child : Node} {siblings : List Node}
    (hv : g.isVisited t.node = false) (ho : outer.any (·.node == t.node) = false)
    (hd : due g t.node = child :: siblings) :
    descend g (t :: outer) = descend g (⟨child, siblings⟩ :: t :: outer) := by
  rw [descend, dif_neg (Bool.eq_false_iff.mp hv), dif_neg (Bool.eq_false_iff.mp ho)]
  split
  · rename_i e
    rw [hd] at e
    cases e
  · rename_i e
    rw [hd] at e
    cases e
    rfl

end Descend

/-- Goes down as far as it can, unless the walk has just come back. -/
def down (g : CallGraph) (w : Walk) : Walk :=
  if w.returned then { w with returned := false } else { w with tiers := descend g w.tiers }

/-- Leaves the innermost tier for its next unvisited sibling, or for the tier above. -/
def up (g : CallGraph) (w : Walk) : Walk :=
  match w.tiers with
  | [] => w
  | t :: outer =>
    match t.siblings.dropWhile g.isVisited with
    | next :: rest => { w with tiers := ⟨next, rest⟩ :: outer }
    | [] => { tiers := outer, returned := !outer.isEmpty }

/-! ## 4. What the moves leave to do -/

/-- Going down takes up calls that were open, one tier or sibling for each at most. -/
theorem openCalls_descend_le (g : CallGraph) (tiers : List Tier) :
    openCalls g (descend g tiers).tail + load (descend g tiers) ≤
      openCalls g tiers.tail + load tiers := by
  fun_induction descend g tiers with
  | case1 => exact Nat.le_refl _
  | case2 => exact Nat.le_refl _
  | case3 => exact Nat.le_refl _
  | case4 => exact Nat.le_refl _
  | case5 t outer hv ho child siblings hd ih =>
    refine Nat.le_trans ih ?_
    have h := openCalls_cons g t outer (by simpa using hv) (by simpa using ho)
    have hl := length_due_le g t.node
    rw [hd] at hl
    simp only [List.length_cons] at hl
    simp only [List.tail_cons, load, List.map_cons, List.foldr_cons]
    omega

@[simp] theorem returned_down (g : CallGraph) (w : Walk) : (w.down g).returned = false := by
  unfold down
  split
  · rfl
  · simpa using ‹¬w.returned = true›

/-- More visited nodes leave fewer open calls. -/
theorem openCalls_mono {g h : CallGraph} {s t : List Tier} (hc : h.calls = g.calls)
    (hi : ∀ c, isOpen h t c = true → isOpen g s c = true) : openCalls h t ≤ openCalls g s := by
  unfold openCalls
  rw [hc]
  exact List.countP_mono_left fun c _ => hi c

/-- Going up takes a tier or a sibling off the load and opens no call. -/
theorem work_up_lt (g : CallGraph) (w : Walk) (hr : w.returned = false) (hne : w.tiers ≠ []) :
    work g (w.up g) < work g w := by
  obtain ⟨tiers, returned⟩ := w
  subst hr
  cases tiers with
  | nil => exact absurd rfl hne
  | cons t outer =>
    have hlen : (t.siblings.dropWhile g.isVisited).length ≤ t.siblings.length := by
      simpa using (List.dropWhile_suffix g.isVisited).length_le
    simp only [up, work]
    split
    · rename_i next rest h
      rw [h] at hlen
      simp only [List.length_cons] at hlen
      simp only [taken, load, List.map_cons, List.foldr_cons, List.tail_cons, Bool.false_eq_true,
        if_false]
      omega
    · have ht : taken { tiers := outer, returned := !outer.isEmpty } = outer := by
        cases outer <;> rfl
      rw [ht]
      simp only [taken, load, List.map_cons, List.foldr_cons, List.tail_cons, Bool.false_eq_true,
        if_false]
      omega

end Walk

end StackDepth

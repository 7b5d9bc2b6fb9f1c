import Mathlib.Data.List.Nodup
import StackDepth.Proofs.CallGraph.WellFormed
import StackDepth.Proofs.Walk
import StackDepth.Trail

/-!
# What a trail keeps

The moves of a trail need not come in the order in which an analysis makes them, and what is visited
may change in between, in either direction. The stacks and the table of a trail stay in step all the
same.

* `Walk.Chained`: the chain is one of calls from a root, and no node stands on it twice apart from
  the innermost; kept by each move of a walk;
* `Trail.Move`, `Trail.run`: the moves of a trail and the changes of what is visited, and any number
  of them;
* `Walk.Origin`: where the nodes at one position of the stacks come from;
* `Trail.Consistent`: how stacks, table and calls agree; `consistent_run`: they do after any moves;
* `isLive_of_run`: from roots that are in use, no move leads to a free slot.
-/

namespace StackDepth

/-! ## 1. The chain of any walk -/

namespace Walk

variable {g h : CallGraph} {roots : List Node} {tiers : List Tier} {w : Walk}

/-- The chain is one of calls from a root, and no node stands twice on its outer tiers. -/
structure Chained (g : CallGraph) (roots : List Node) (tiers : List Tier) : Prop where
  linked : Linked g roots tiers
  nodup : (tiers.tail.map (·.node)).Nodup

theorem Chained.congr (hw : Chained g roots tiers) (hc : h.calls = g.calls) :
    Chained h roots tiers := ⟨hw.linked.congr hc, hw.nodup⟩

theorem chained_start (g : CallGraph) (roots : List Node) :
    Chained g roots (start roots).tiers := by
  cases roots with
  | nil => exact ⟨trivial, List.nodup_nil⟩
  | cons r rest => exact ⟨⟨fun m hm => hm, trivial⟩, List.nodup_nil⟩

theorem Chained.descend (hw : Chained g roots tiers) : Chained g roots (Walk.descend g tiers) := by
  fun_induction Walk.descend g tiers with
  | case1 => exact hw
  | case2 => exact hw
  | case3 => exact hw
  | case4 => exact hw
  | case5 t outer hv ho child siblings hd ih =>
    have hline : ∀ m ∈ Tier.line ⟨child, siblings⟩, g.Calls t.node m := by
      intro m hm
      exact (mem_due.mp (hd ▸ hm)).1
    -- `t` joins the part without duplicates: it closes no cycle, or the walk would have stopped
    have hnew : t.node ∉ outer.map (·.node) := fun hm => ho (any_node_iff.mpr hm)
    exact ih ⟨⟨hline, hw.linked⟩, List.nodup_cons.mpr ⟨hnew, hw.nodup⟩⟩

theorem Chained.down (hw : Chained g roots w.tiers) : Chained g roots (w.down g).tiers := by
  unfold Walk.down
  split
  · exact hw
  · exact hw.descend

theorem Chained.up (hw : Chained g roots w.tiers) : Chained g roots (w.up g).tiers := by
  obtain ⟨tiers, returned⟩ := w
  cases tiers with
  | nil => exact hw
  | cons t outer =>
    obtain ⟨hline, hlinked⟩ := hw.linked
    have hsub : ∀ m ∈ t.siblings.dropWhile g.isVisited, Source g roots outer m := by
      intro m hm
      exact hline m (List.mem_cons_of_mem _ ((List.dropWhile_suffix _).subset hm))
    simp only [Walk.up]
    cases hd : t.siblings.dropWhile g.isVisited with
    | cons next rest =>
      rw [hd] at hsub
      exact ⟨⟨hsub, hlinked⟩, hw.nodup⟩
    | nil =>
      have hnodup : (outer.map (·.node)).Nodup := hw.nodup
      refine ⟨hlinked, ?_⟩
      rw [List.map_tail]
      exact hnodup.tail

/-- Where a node at position `i` of a chain comes from: it is a root, or called by the node
    above. -/
def Origin (g : CallGraph) (roots path : List Node) : Nat → Node → Prop
  | 0, m => m ∈ roots
  | i + 1, m => ∃ n, path[i]? = some n ∧ g.Calls n m

theorem Origin.append {path : List Node} {i : Nat} {m : Node} (ho : Origin g roots path i m)
    (more : List Node) : Origin g roots (path ++ more) i m := by
  cases i with
  | zero => exact ho
  | succ i =>
    obtain ⟨n, hn, hcall⟩ := ho
    obtain ⟨hi, -⟩ := List.getElem?_eq_some_iff.mp hn
    exact ⟨n, by rw [List.getElem?_append_left hi, hn], hcall⟩

theorem Source.origin {outer : List Tier} {m : Node} (hs : Source g roots outer m) :
    Origin g roots (outer.map (·.node)).reverse outer.length m := by
  cases outer with
  | nil => exact hs
  | cons u outer => exact ⟨u.node, by simp, hs⟩

/-- **Each node in line at a tier comes from the tier above**, by positions. -/
theorem Linked.origin (hl : Linked g roots tiers) {i : Nat} {t : Tier}
    (ht : tiers.reverse[i]? = some t) {m : Node} (hm : m ∈ t.line) :
    Origin g roots (tiers.map (·.node)).reverse i m := by
  induction tiers with
  | nil => simp at ht
  | cons u outer ih =>
    rw [List.reverse_cons] at ht
    rw [List.map_cons, List.reverse_cons]
    refine Origin.append ?_ _
    by_cases hi : i < outer.reverse.length
    · rw [List.getElem?_append_left hi] at ht
      exact ih hl.2 ht
    · -- the last position is that of `u`
      rw [List.getElem?_append_right (Nat.le_of_not_lt hi), List.getElem?_singleton] at ht
      split at ht
      · rename_i hsub
        cases ht
        have e : i = outer.length := by simp at hi hsub; omega
        rw [e]
        exact (hl.1 m hm).origin
      · cases ht

end Walk

namespace Trail

variable {g : CallGraph} {roots : List Node} {t : Trail}

/-! ## 2. Moves -/

inductive Move where
  | down
  | up
  /-- `n` counts as visited from now on, or no longer. -/
  | mark (n : Node) (visited : Bool)
  deriving DecidableEq, Repr

/-- The graph and the trail after a move. -/
def step (s : CallGraph × Trail) : Move → CallGraph × Trail
  | .down => (s.1, s.2.down s.1)
  | .up => (s.1, s.2.up s.1)
  | .mark n visited => (s.1.modify n fun f => { f with visited }, s.2)

def run (s : CallGraph × Trail) (moves : List Move) : CallGraph × Trail := moves.foldl step s

theorem calls_step (s : CallGraph × Trail) (move : Move) : (step s move).1.calls = s.1.calls := by
  cases move <;> rfl

theorem chained_step {s : CallGraph × Trail} (hs : Walk.Chained s.1 roots s.2.tiers) (move : Move) :
    Walk.Chained (step s move).1 roots (step s move).2.tiers := by
  cases move with
  | down =>
    have h := Walk.Chained.down (w := s.2.walk) hs
    rwa [← walk_down] at h
  | up =>
    have h := Walk.Chained.up (w := s.2.walk) hs
    rwa [← walk_up] at h
  | mark n visited => exact hs.congr rfl

theorem calls_run (s : CallGraph × Trail) (moves : List Move) :
    (run s moves).1.calls = s.1.calls := by
  induction moves generalizing s with
  | nil => rfl
  | cons move moves ih => exact (ih (step s move)).trans (calls_step s move)

theorem chained_run_of_chained {s : CallGraph × Trail} (hs : Walk.Chained s.1 roots s.2.tiers)
    (moves : List Move) : Walk.Chained (run s moves).1 roots (run s moves).2.tiers := by
  induction moves generalizing s with
  | nil => exact hs
  | cons move moves ih => exact ih (chained_step hs move)

/-- **The chain of a trail, after any moves**, by the calls that the graph has had all along. -/
theorem chained_run (g : CallGraph) (roots : List Node) (moves : List Move) :
    Walk.Chained g roots (run (g, start roots) moves).2.tiers := by
  have hstart : Walk.Chained g roots (start roots).tiers := by
    have h := Walk.chained_start g roots
    rwa [← walk_start] at h
  have hrun := chained_run_of_chained (s := (g, start roots)) hstart moves
  exact hrun.congr (calls_run (g, start roots) moves).symm

/-! ## 3. Stacks and table -/

/-- How the stacks and the table of a trail agree with each other and with the calls of a graph. -/
structure Consistent (g : CallGraph) (roots : List Node) (t : Trail) : Prop where
  size_pending : t.pending.size = t.path.size
  /-- Only the node on top may stand on the chain a second time. -/
  nodup : t.path.toList.dropLast.Nodup
  path_origin : ∀ (i : Nat) (m : Node), t.path[i]? = some m →
    Walk.Origin g roots t.path.toList i m
  pending_origin : ∀ (i : Nat) (line : List Node), t.pending[i]? = some line →
    ∀ m ∈ line, Walk.Origin g roots t.path.toList i m
  mem_places_iff : ∀ n : Node, n ∈ t.places ↔ n ∈ t.path
  places_iff : ∀ (n : Node) (i : Nat), t.places[n]? = some i ↔
    t.path[i]? = some n ∧ ∀ j < i, t.path[j]? ≠ some n
  cycleStart?_iff : ∀ s : Nat, t.cycleStart? = some s ↔
    s + 1 < t.path.size ∧ t.path[s]? = t.tail?
  cycleStart?_unique : ∀ s s' : Nat, s + 1 < t.path.size → t.path[s]? = t.tail? →
    s' + 1 < t.path.size → t.path[s']? = t.tail? → s = s'

/-- The two stacks at one position are one tier. -/
theorem getElem?_reverse_tiers {i : Nat} {n : Node} {line : List Node} (hn : t.path[i]? = some n)
    (hs : t.pending[i]? = some line) : t.tiers.reverse[i]? = some ⟨n, line⟩ := by
  rw [tiers, List.reverse_reverse, List.getElem?_zipWith_eq_some]
  exact ⟨n, line, by simpa using hn, by simpa using hs, rfl⟩

theorem path_origin_of_linked (hl : Walk.Linked g roots t.tiers) {i : Nat} {m : Node}
    (hm : t.path[i]? = some m) : Walk.Origin g roots t.path.toList i m := by
  obtain ⟨hi, -⟩ := Array.getElem?_eq_some_iff.mp hm
  rw [← t.size_pending] at hi
  have ho := hl.origin (getElem?_reverse_tiers hm (Array.getElem?_eq_getElem hi)) List.mem_cons_self
  rwa [map_node_tiers, List.reverse_reverse] at ho

theorem pending_origin_of_linked (hl : Walk.Linked g roots t.tiers) {i : Nat} {line : List Node}
    (hs : t.pending[i]? = some line) {m : Node} (hm : m ∈ line) :
    Walk.Origin g roots t.path.toList i m := by
  obtain ⟨hi, -⟩ := Array.getElem?_eq_some_iff.mp hs
  rw [t.size_pending] at hi
  have ho := hl.origin (getElem?_reverse_tiers (Array.getElem?_eq_getElem hi) hs)
    (List.mem_cons_of_mem _ hm)
  rwa [map_node_tiers, List.reverse_reverse] at ho

theorem mem_places (t : Trail) (n : Node) : n ∈ t.places ↔ n ∈ t.path := by
  rw [Std.HashMap.mem_iff_contains, t.located.contains_eq, decide_eq_true_iff, Array.mem_toList_iff]

/-- A position is the first one of a node where the node stands at none before it. -/
theorem idxOf?_eq_some_iff_getElem? {ns : List Node} {n : Node} {i : Nat} :
    ns.idxOf? n = some i ↔ ns[i]? = some n ∧ ∀ j < i, ns[j]? ≠ some n := by
  rw [List.idxOf?_eq_some_iff]
  constructor
  · intro ⟨hi, e, hbefore⟩
    refine ⟨List.getElem?_eq_some_iff.mpr ⟨hi, e⟩, fun j hj h => ?_⟩
    obtain ⟨_, ej⟩ := List.getElem?_eq_some_iff.mp h
    exact hbefore j hj ej
  · intro ⟨h, hbefore⟩
    obtain ⟨hi, e⟩ := List.getElem?_eq_some_iff.mp h
    exact ⟨hi, e, fun j hj ej => hbefore j hj (List.getElem?_eq_some_iff.mpr ⟨_, ej⟩)⟩

/-- **The table has the first positions**, and no others. -/
theorem places_eq_some_iff (t : Trail) (n : Node) (i : Nat) : t.places[n]? = some i ↔
    t.path[i]? = some n ∧ ∀ j < i, t.path[j]? ≠ some n := by
  rw [t.located n, idxOf?_eq_some_iff_getElem?]
  simp only [Array.getElem?_toList]

/-- **The node on top closes a cycle exactly where it stands below the top.** -/
theorem cycleStart?_eq_some_iff (hn : t.path.toList.dropLast.Nodup) (s : Nat) :
    t.cycleStart? = some s ↔ s + 1 < t.path.size ∧ t.path[s]? = t.tail? := by
  cases h : t.tail? with
  | none =>
    have hpath : t.path = #[] := Array.back?_eq_none_iff.mp h
    simp [cycleStart?, h, hpath]
  | some n =>
    have hbelow : t.path.pop.toList[s]? = some n ↔ s + 1 < t.path.size ∧ t.path[s]? = some n := by
      rw [Array.getElem?_toList, Array.getElem?_pop]
      by_cases hs : s < t.path.size - 1
      · simp [hs, show s + 1 < t.path.size by omega]
      · simp [hs, show ¬ s + 1 < t.path.size by omega]
    rw [cycleStart?_of_some h, idxOf?_eq_some_iff_getElem?, ← hbelow]
    -- below the top no node stands twice, so any position is the first
    refine and_iff_left_of_imp fun hsome j hj e => ?_
    obtain ⟨hlt, -⟩ := List.getElem?_eq_some_iff.mp hsome
    have hne := (List.getElem?_inj hlt hn).mp (hsome.trans e.symm)
    omega

/-- What a chain of calls without duplicates below its top makes of a trail. -/
theorem consistent_of_chained (hw : Walk.Chained g roots t.tiers) : Consistent g roots t := by
  have hnodup : t.path.toList.dropLast.Nodup := by
    have h := hw.nodup
    rwa [List.map_tail, map_node_tiers, List.tail_reverse, List.nodup_reverse] at h
  have hcycle := cycleStart?_eq_some_iff hnodup
  exact {
    size_pending := t.size_pending
    nodup := hnodup
    path_origin := fun i m hm => path_origin_of_linked hw.linked hm
    pending_origin := fun i line hs m hm => pending_origin_of_linked hw.linked hs hm
    mem_places_iff := t.mem_places
    places_iff := t.places_eq_some_iff
    cycleStart?_iff := hcycle
    cycleStart?_unique := fun s s' hs e hs' e' =>
      Option.some.inj (((hcycle s).mpr ⟨hs, e⟩).symm.trans ((hcycle s').mpr ⟨hs', e'⟩)) }

/-- **A trail is consistent after any moves**: going down and up in any order, while any function
    comes to count as visited or no longer does, leaves stacks, table and calls in agreement. -/
theorem consistent_run (g : CallGraph) (roots : List Node) (moves : List Move) :
    Consistent g roots (run (g, start roots) moves).2 :=
  consistent_of_chained (chained_run g roots moves)

/-- `main` calls `ping`, and `ping` and `pong` call each other. -/
def rally : CallGraph where
  slots := #[some (Function.named 0 "Function Pointer"), some { address := 0x10, name := "main" },
    some { address := 0x20, name := "ping" }, some { address := 0x30, name := "pong" }]
  calls := [⟨2, 3, 2⟩, ⟨1, 2, 3⟩, ⟨0, 1, 2⟩]

-- `ping` keeps its place when the tier that closes the cycle is left, and loses it with its own
example : [[.down], [.down, .up], [.down, .up, .up, .up]].map (fun moves : List Move =>
    ((run (rally, start [1]) moves).2.path.toList, (run (rally, start [1]) moves).2.places[2]?,
      (run (rally, start [1]) moves).2.cycleStart?)) =
    [([1, 2, 3, 2], some 1, some 1), ([1, 2, 3], some 1, none), ([1], none, none)] := by
  cbv

/-! ## 4. Functions in use -/

theorem isLive_run (s : CallGraph × Trail) (moves : List Move) (n : Node) :
    (run s moves).1.isLive n = s.1.isLive n := by
  induction moves generalizing s with
  | nil => rfl
  | cons move moves ih =>
    refine (ih (step s move)).trans ?_
    cases move with
    | down => rfl
    | up => rfl
    | mark m visited => exact CallGraph.isLive_modify _

/-- **No move looks at a free slot**: from roots that are in use, every node of the stacks is. -/
theorem isLive_of_run (hg : g.WellFormed) (hroots : ∀ r ∈ roots, g.isLive r = true)
    (moves : List Move) {tier : Tier} (ht : tier ∈ (run (g, start roots) moves).2.tiers) {n : Node}
    (hn : n ∈ tier.line) : (run (g, start roots) moves).1.isLive n = true := by
  rw [isLive_run]
  obtain ⟨i, hi⟩ := List.getElem?_of_mem (List.mem_reverse.mpr ht)
  have ho := (chained_run g roots moves).linked.origin hi hn
  cases i with
  | zero => exact hroots n ho
  | succ i =>
    obtain ⟨caller, -, hcall⟩ := ho
    exact (hg.callsLive hcall).2

end Trail

end StackDepth

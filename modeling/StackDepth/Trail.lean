import Std.Data.HashMap
import StackDepth.Walk

/-!
# Trails

A walk as it is carried out. The nodes of the chain and the siblings due at each tier are two
stacks, and a table has the first position of every node on the chain: one look-up says whether the
node on top closes a cycle, and where that cycle starts.

A trail stands for a walk (`Trail.walk`). Its moves are the moves of that walk, and it finds the
same cycles (`walk_down`, `walk_up`, `cycleStart?_walk`).
-/

namespace StackDepth

open Std (HashMap)

/-! ## 1. Places -/

/-- Where nodes stand on a chain. -/
abbrev Places := HashMap Node Nat

namespace Places

/-- `n` comes to stand at `i`, unless it stands somewhere already. -/
def enter (places : Places) (n : Node) (i : Nat) : Places :=
  if places.contains n then places else places.insert n i

/-- `n` no longer stands at `i`: it is struck out if that is its place. -/
def leave (places : Places) (n : Node) (i : Nat) : Places :=
  if places[n]? = some i then places.erase n else places

/-- `places` has the first position of each node of `path`, and no other node. -/
def Locates (places : Places) (path : Array Node) : Prop :=
  ∀ n, places[n]? = path.toList.idxOf? n

variable {places : Places} {path : Array Node}

theorem locates_empty : Locates ∅ #[] := fun _ => HashMap.getElem?_empty

theorem Locates.contains_eq (h : places.Locates path) (n : Node) :
    places.contains n = decide (n ∈ path.toList) := by
  rw [HashMap.contains_eq_isSome_getElem?, h n, Bool.eq_iff_iff, List.isSome_idxOf?,
    decide_eq_true_iff]

/-- A node put behind a list has the next position, unless it has one already. -/
theorem idxOf?_concat (ns : List Node) (n m : Node) :
    (ns ++ [n]).idxOf? m = (ns.idxOf? m).or (if n = m then some ns.length else none) := by
  unfold List.idxOf?
  rw [List.findIdx?_append]
  by_cases h : n = m <;> simp [h]

theorem Locates.enter (h : places.Locates path) (n : Node) :
    (places.enter n path.size).Locates (path.push n) := by
  intro m
  rw [Array.toList_push, idxOf?_concat, ← h m, Places.enter, h.contains_eq]
  by_cases hn : n ∈ path.toList
  · rw [if_pos (decide_eq_true hn)]
    by_cases e : n = m
    · obtain ⟨i, hi⟩ := Option.isSome_iff_exists.mp (List.isSome_idxOf?.mpr hn)
      rw [← e, h n, hi, Option.some_or]
    · rw [if_neg e, Option.or_none]
  · rw [if_neg (by simpa using hn), HashMap.getElem?_insert]
    by_cases e : n = m
    · have hnone : places[m]? = none := by rw [h m, ← e, List.idxOf?_eq_none_iff]; exact hn
      simp [e, hnone]
    · simp [e]

/-- What leaves the top of a chain leaves the table only if it stood nowhere below. -/
theorem Locates.leave {n : Node} (h : places.Locates (path.push n)) :
    (places.leave n path.size).Locates path := by
  intro m
  have hm := h m
  rw [Array.toList_push, idxOf?_concat] at hm
  have hn := h n
  rw [Array.toList_push, idxOf?_concat, if_pos rfl] at hn
  rw [Places.leave, hn]
  cases hi : path.toList.idxOf? n with
  | none =>
    rw [Option.none_or, if_pos (by simp), HashMap.getElem?_erase]
    by_cases e : n = m
    · rw [if_pos (beq_iff_eq.mpr e), ← e, hi]
    · rw [if_neg (by simpa using e), hm, if_neg e, Option.or_none]
  | some i =>
    have hlt : i < path.size := by
      obtain ⟨hlt, -⟩ := List.idxOf?_eq_some_iff.mp hi
      simpa using hlt
    rw [Option.some_or, if_neg (by simp; omega), hm]
    by_cases e : n = m
    · rw [← e, hi, Option.some_or]
    · rw [if_neg e, Option.or_none]

/-- The top of a chain leaves the table with it. -/
theorem Locates.pop (h : places.Locates path) :
    Locates (path.back?.elim places fun n => places.leave n path.pop.size) path.pop := by
  cases hb : path.back? with
  | none =>
    have hpath : path = #[] := Array.back?_eq_none_iff.mp hb
    subst hpath
    exact h
  | some n =>
    obtain ⟨below, rfl⟩ := Array.back?_eq_some_iff.mp hb
    rw [Array.pop_push]
    exact h.leave

end Places

/-! ## 2. Stacks -/

structure Trail where
  /-- The chain, the root first. -/
  path : Array Node := #[]
  /-- The siblings that are due at each tier, the next first. -/
  pending : Array (List Node) := #[]
  /-- The first position of each node on the chain. -/
  places : Places := ∅
  /-- The walk came back to where it stands, so all callees there are done. -/
  returned : Bool := false
  size_pending : pending.size = path.size := by rfl
  located : places.Locates path := by exact Places.locates_empty

namespace Trail

/-- Puts a node on top, with the siblings due after it; one that is on the chain keeps its place. -/
def push (t : Trail) (n : Node) (siblings : List Node) : Trail where
  path := t.path.push n
  pending := t.pending.push siblings
  places := t.places.enter n t.path.size
  returned := t.returned
  size_pending := by simp [t.size_pending]
  located := t.located.enter n

/-- Where the walk stands. -/
def tail? (t : Trail) : Option Node := t.path.back?

/-- The siblings that are due where the walk stands. -/
def siblings (t : Trail) : List Node := t.pending.back?.getD []

/-- Drops the top of both stacks; its node leaves the table if it stood first there. -/
def pop (t : Trail) : Trail where
  path := t.path.pop
  pending := t.pending.pop
  places := t.tail?.elim t.places fun n => t.places.leave n t.path.pop.size
  returned := t.returned
  size_pending := by simp [t.size_pending]
  located := t.located.pop

/-- A walk from the first root; the others follow in order. -/
def start : List Node → Trail
  | [] => {}
  | root :: others => ({} : Trail).push root others

/-- Where the cycle starts that the node on top closes. -/
def cycleStart? (t : Trail) : Option Nat :=
  (t.tail?.bind fun n => t.places[n]?).filter fun start => start + 1 < t.path.size

def isClosing (t : Trail) : Bool := t.cycleStart?.isSome

/-! ## 3. The walk of a trail -/

/-- The chain with its siblings, the innermost tier first. -/
def tiers (t : Trail) : List Tier := (List.zipWith Tier.mk t.path.toList t.pending.toList).reverse

def walk (t : Trail) : Walk := { tiers := t.tiers, returned := t.returned }

@[simp] theorem tiers_push (t : Trail) (n : Node) (siblings : List Node) :
    (t.push n siblings).tiers = ⟨n, siblings⟩ :: t.tiers := by
  have hsize : t.path.toList.length = t.pending.toList.length := by simp [t.size_pending]
  simp only [tiers, push, Array.toList_push]
  rw [List.zipWith_append hsize, List.reverse_append]
  rfl

theorem tiers_of_none {t : Trail} (h : t.tail? = none) : t.tiers = [] := by
  have hpath : t.path = #[] := Array.back?_eq_none_iff.mp h
  rw [tiers, hpath]
  rfl

/-- Where the chain has a top, so has the stack of siblings. -/
theorem exists_push {t : Trail} {n : Node} (h : t.tail? = some n) :
    ∃ (path : Array Node) (pending : Array (List Node)) (line : List Node),
      t.path = path.push n ∧ t.pending = pending.push line ∧ pending.size = path.size := by
  obtain ⟨path, hpath⟩ := Array.back?_eq_some_iff.mp h
  have hsize := t.size_pending
  rw [hpath, Array.size_push] at hsize
  cases hb : t.pending.back? with
  | none =>
    rw [Array.back?_eq_none_iff.mp hb] at hsize
    cases hsize
  | some line =>
    obtain ⟨pending, hpending⟩ := Array.back?_eq_some_iff.mp hb
    rw [hpending, Array.size_push] at hsize
    exact ⟨path, pending, line, hpath, hpending, by omega⟩

/-- The top of the stacks is the innermost tier. -/
theorem tiers_of_some {t : Trail} {n : Node} (h : t.tail? = some n) :
    t.tiers = ⟨n, t.siblings⟩ :: t.pop.tiers := by
  obtain ⟨path, pending, line, hpath, hpending, hsize⟩ := exists_push h
  have hlength : path.toList.length = pending.toList.length := by simp [hsize]
  simp only [tiers, pop, siblings, hpath, hpending, Array.pop_push, Array.toList_push,
    Array.back?_push, Option.getD_some]
  rw [List.zipWith_append hlength, List.reverse_append]
  rfl

@[simp] theorem map_node_tiers (t : Trail) : t.tiers.map (·.node) = t.path.toList.reverse := by
  have hle : t.path.toList.length ≤ t.pending.toList.length := by simp [t.size_pending]
  rw [tiers, List.map_reverse, List.map_zipWith, ← List.map_uncurry_zip_eq_zipWith]
  exact congrArg List.reverse (List.map_fst_zip hle)

@[simp] theorem map_siblings_tiers (t : Trail) :
    t.tiers.map (·.siblings) = t.pending.toList.reverse := by
  have hle : t.pending.toList.length ≤ t.path.toList.length := by simp [t.size_pending]
  rw [tiers, List.map_reverse, List.map_zipWith, ← List.map_uncurry_zip_eq_zipWith]
  exact congrArg List.reverse (List.map_snd_zip hle)

theorem isEmpty_tiers (t : Trail) : t.tiers.isEmpty = t.path.isEmpty := by
  rw [← List.isEmpty_map, map_node_tiers, List.isEmpty_reverse, Array.isEmpty_toList]

@[simp] theorem path_walk (t : Trail) : t.walk.path = t.path.toList := by simp [walk, Walk.path]

@[simp] theorem pending_walk (t : Trail) : t.walk.pending = t.pending.toList := by
  simp [walk, Walk.pending]

@[simp] theorem tail?_walk (t : Trail) : t.walk.tail? = t.tail? := by
  cases h : t.tail? with
  | none => simp [walk, Walk.tail?, tiers_of_none h]
  | some n => simp [walk, Walk.tail?, tiers_of_some h]

/-- The cycle starts where the node on top stands first below the top. -/
theorem cycleStart?_of_some {t : Trail} {n : Node} (h : t.tail? = some n) :
    t.cycleStart? = t.path.pop.toList.idxOf? n := by
  obtain ⟨below, hpath⟩ := Array.back?_eq_some_iff.mp h
  rw [cycleStart?, h, Option.bind_some, t.located n, hpath, Array.pop_push, Array.toList_push,
    Places.idxOf?_concat, if_pos rfl]
  cases hi : below.toList.idxOf? n with
  | none => simp
  | some i =>
    obtain ⟨hlt, -⟩ := List.idxOf?_eq_some_iff.mp hi
    simpa using hlt

theorem isClosing_of_some {t : Trail} {n : Node} (h : t.tail? = some n) :
    t.isClosing = t.pop.tiers.any (·.node == n) := by
  have hnodes : t.pop.tiers.map (·.node) = t.path.pop.toList.reverse := map_node_tiers t.pop
  rw [isClosing, cycleStart?_of_some h, Bool.eq_iff_iff, List.isSome_idxOf?, ← List.mem_reverse,
    ← hnodes]
  simp only [List.any_eq_true, beq_iff_eq, List.mem_map]

@[simp] theorem isClosing_walk (t : Trail) : t.walk.isClosing = t.isClosing := by
  cases h : t.tail? with
  | none => simp [walk, Walk.isClosing, tiers_of_none h, isClosing, cycleStart?, h]
  | some n => simp only [walk, Walk.isClosing, tiers_of_some h, isClosing_of_some h]

/-- **A trail finds the cycles of its walk.** -/
@[simp] theorem cycleStart?_walk (t : Trail) : t.walk.cycleStart? = t.cycleStart? := by
  rw [Walk.cycleStart?, isClosing_walk, tail?_walk]
  cases h : t.tail? with
  | none =>
    rw [Option.bind_none, ite_self, cycleStart?, h]
    rfl
  | some n =>
    obtain ⟨below, hpath⟩ := Array.back?_eq_some_iff.mp h
    rw [isClosing, cycleStart?_of_some h, Option.bind_some, Walk.position?, path_walk, hpath,
      Array.pop_push, Array.toList_push, Places.idxOf?_concat]
    cases below.toList.idxOf? n with
    | none => rfl
    | some i => rfl

/-! ## 4. The moves -/

/-- Goes from the top into unvisited callees, the newest call first, until it meets a node that is
    visited, closes a cycle or has no unvisited callee. -/
def descend (g : CallGraph) (t : Trail) : Trail :=
  match _ : t.tail? with
  | none => t
  | some n =>
    if _ : g.isVisited n || t.isClosing then t
    else
      match _ : Walk.due g n with
      | [] => t
      | child :: siblings => descend g (t.push child siblings)
termination_by Walk.openCalls g t.tiers.tail
decreasing_by
  rename_i ht hstop hd
  simp only [Bool.or_eq_true, not_or, Bool.not_eq_true, isClosing_of_some ht] at hstop
  have hopen : Walk.openCalls g (⟨n, t.siblings⟩ :: t.pop.tiers) + g.calls.countP (·.caller == n) =
      Walk.openCalls g t.pop.tiers := Walk.openCalls_cons g _ _ hstop.1 hstop.2
  have hlength := Walk.length_due_le g n
  rw [hd, List.length_cons] at hlength
  rw [tiers_push, List.tail_cons, tiers_of_some ht, List.tail_cons]
  omega

/-- Goes down as far as it can, unless the walk has just come back. -/
def down (g : CallGraph) (t : Trail) : Trail :=
  if t.returned then { t with returned := false } else t.descend g

/-- Leaves the top for its next unvisited sibling, or for the tier above. -/
def up (g : CallGraph) (t : Trail) : Trail :=
  match t.tail? with
  | none => t
  | some _ =>
    match t.siblings.dropWhile g.isVisited with
    | next :: rest => t.pop.push next rest
    | [] => { t.pop with returned := !t.pop.path.isEmpty }

theorem walk_start (roots : List Node) : (start roots).walk = Walk.start roots := by
  cases roots with
  | nil => rfl
  | cons root others => rfl

theorem returned_descend (g : CallGraph) (t : Trail) : (t.descend g).returned = t.returned := by
  fun_induction descend g t with
  | case1 => rfl
  | case2 => rfl
  | case3 => rfl
  | case4 t n h hstop child siblings hd ih => exact ih

theorem tiers_descend (g : CallGraph) (t : Trail) :
    (t.descend g).tiers = Walk.descend g t.tiers := by
  fun_induction descend g t with
  | case1 t h => rw [tiers_of_none h, Walk.descend]
  | case2 t n h hstop =>
    rw [tiers_of_some h]
    rw [Bool.or_eq_true, isClosing_of_some h] at hstop
    rcases hstop with hv | hc
    · rw [Walk.descend_of_visited hv]
    · rw [Walk.descend_of_closing hc]
  | case3 t n h hstop hd => rw [tiers_of_some h, Walk.descend_of_due_nil hd]
  | case4 t n h hstop child siblings hd ih =>
    rw [Bool.or_eq_true, not_or, isClosing_of_some h, Bool.not_eq_true, Bool.not_eq_true] at hstop
    rw [ih, tiers_push, tiers_of_some h, ← Walk.descend_of_due_cons hstop.1 hstop.2 hd]

/-- **Going down on a trail is going down on its walk.** -/
theorem walk_down (g : CallGraph) (t : Trail) : (t.down g).walk = t.walk.down g := by
  cases hr : t.returned with
  | true => simp [down, Walk.down, walk, tiers, hr]
  | false => simp [down, Walk.down, walk, hr, tiers_descend, returned_descend]

theorem tiers_walk_down_eq_nil_iff {g : CallGraph} {t : Trail} :
    (t.walk.down g).tiers = [] ↔ (t.down g).path.isEmpty = true := by
  rw [← walk_down, ← isEmpty_tiers]
  exact List.isEmpty_iff.symm

/-- **Going up on a trail is going up on its walk.** -/
theorem walk_up (g : CallGraph) (t : Trail) : (t.up g).walk = t.walk.up g := by
  cases h : t.tail? with
  | none => simp only [up, Walk.up, walk, h, tiers_of_none h]
  | some n =>
    simp only [up, Walk.up, walk, h, tiers_of_some h]
    cases t.siblings.dropWhile g.isVisited with
    | cons next rest =>
      simp only [tiers_push]
      rfl
    | nil =>
      rw [← isEmpty_tiers]
      rfl

end Trail

end StackDepth

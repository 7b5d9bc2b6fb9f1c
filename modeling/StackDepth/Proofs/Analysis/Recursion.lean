import StackDepth.Proofs.Analysis.Steps

/-!
# The walk as a recursion

A walk carries its chain along and remembers by hand what is still due at each tier. The same can be
said by recursion, where the chain and what is due are in the calls that have not come back yet.

* `search`, `searchEach`: depth-first search by recursion, below one node and below each of a line
  of nodes;
* `Passes`: what a search leaves alone; above all, it visits no node of the path that leads to it;
* `walk_line`: a walk with a line of nodes at its innermost tier does what `searchEach` does, and
  goes on from the tier above;
* `follow_eq_searchEach`: so the loop that follows a trail from its roots is a search below each of
  them.
-/

namespace StackDepth

namespace Analysis

variable {p : Policy} {g : CallGraph} {a b c : Analysis} {path ns : List Node} {n m : Node}

/-! ## 1. The search -/

/-- How many calls of `g` start outside of `path`. -/
def callsOff (g : CallGraph) (path : List Node) : Nat := g.calls.countP fun c => c.caller ∉ path

/-- A node that joins the path takes its calls with it. -/
theorem callsOff_concat (hn : n ∉ path) :
    callsOff g (path ++ [n]) + (g.recentCallees n).length = callsOff g path := by
  unfold callsOff CallGraph.recentCallees
  rw [List.length_map]
  induction g.calls with
  | nil => rfl
  | cons c cs ih =>
    simp only [List.mem_append, List.mem_singleton] at ih
    by_cases hc : c.caller = n
    · simp only [List.countP_cons, List.filter_cons, hc, hn, List.mem_append, List.mem_singleton,
        or_true, not_true_eq_false, not_false_eq_true, decide_true, decide_false, BEq.rfl, if_true,
        Bool.false_eq_true, if_false, List.length_cons]
      omega
    · have hne : (c.caller == n) = false := by simp [hc]
      simp only [List.countP_cons, List.filter_cons, hc, hne, List.mem_append, List.mem_singleton,
        or_false, Bool.false_eq_true, if_false]
      omega

mutual

/-- Searches below `n`, to which `path` leads. Where `n` is on the path already, that is a cycle;
    otherwise its callees come first, the newest call before the others, and then `n` is finished.
    The calls are those of `g`: no search changes them. -/
def search (p : Policy) (g : CallGraph) (path : List Node) (n : Node) (a : Analysis) : Analysis :=
  if _ : n ∈ path then a.foundCycle p (path ++ [n]) (path.idxOf n)
  else (searchEach p g (path ++ [n]) (g.recentCallees n) a).finished p (path ++ [n]) n
termination_by 2 * callsOff g path + 1
decreasing_by
  rename_i hn
  have h := callsOff_concat (g := g) hn
  omega

/-- Searches below each node that is not visited when its turn comes. -/
def searchEach (p : Policy) (g : CallGraph) (path : List Node) : List Node → Analysis → Analysis
  | [], a => a
  | n :: rest, a =>
    searchEach p g path rest (if a.graph.isVisited n then a else search p g path n a)
termination_by ns => 2 * (callsOff g path + ns.length)
decreasing_by
  · simp only [List.length_cons]
    omega
  · simp only [List.length_cons]
    omega

end

theorem search_of_mem (hn : n ∈ path) :
    search p g path n a = a.foundCycle p (path ++ [n]) (path.idxOf n) := by
  rw [search, dif_pos hn]

theorem search_of_not_mem (hn : n ∉ path) : search p g path n a =
    (searchEach p g (path ++ [n]) (g.recentCallees n) a).finished p (path ++ [n]) n := by
  rw [search, dif_neg hn]

theorem searchEach_nil : searchEach p g path [] a = a := by rw [searchEach]

theorem searchEach_of_visited (hv : a.graph.isVisited n = true) :
    searchEach p g path (n :: ns) a = searchEach p g path ns a := by
  rw [searchEach, if_pos hv]

theorem searchEach_of_not_visited (hv : a.graph.isVisited n = false) :
    searchEach p g path (n :: ns) a = searchEach p g path ns (search p g path n a) := by
  rw [searchEach, if_neg (Bool.eq_false_iff.mp hv)]

/-! ## 2. What a search leaves alone -/

/-- What a search below `path` makes of an analysis: the calls stay, what is visited stays so, and
    no node of the path is visited. -/
structure Passes (path : List Node) (a b : Analysis) : Prop where
  calls : b.graph.calls = a.graph.calls
  visited : ∀ {m : Node}, a.graph.isVisited m = true → b.graph.isVisited m = true
  path : ∀ {m : Node}, m ∈ path → b.graph.isVisited m = a.graph.isVisited m

theorem Passes.refl (path : List Node) (a : Analysis) : Passes path a a :=
  ⟨rfl, fun h => h, fun _ => rfl⟩

theorem Passes.trans (h : Passes path a b) (h' : Passes path b c) : Passes path a c :=
  ⟨h'.calls.trans h.calls, fun hm => h'.visited (h.visited hm),
    fun hm => (h'.path hm).trans (h.path hm)⟩

theorem passes_foundCycle (whole : List Node) (start : Nat) :
    Passes path a (a.foundCycle p whole start) where
  calls := by simp [foundCycle]
  visited hm := by simpa [foundCycle] using hm
  path _ := by simp [foundCycle]

theorem passes_finished {whole : List Node} (hn : n ∉ path) :
    Passes path a (a.finished p whole n) where
  calls := by rw [graph_finished, CallGraph.calls_finish, calls_findings]
  visited hm := isVisited_finished.mpr (.inl hm)
  path {m} hm := by
    have hne : m ≠ n := fun e => hn (e ▸ hm)
    rw [Bool.eq_iff_iff, isVisited_finished, or_iff_left hne]

/-- Where the callees of `n` are searched with `n` on the path and `n` is finished after them. -/
theorem Passes.finished {whole : List Node} (h : Passes (path ++ [n]) a b) (hn : n ∉ path) :
    Passes path a (b.finished p whole n) := by
  have hinner : Passes path a b :=
    ⟨h.calls, h.visited, fun hm => h.path (List.mem_append_left [n] hm)⟩
  exact hinner.trans (passes_finished hn)

/-- **A search visits no node of its path**, neither below one node nor below each of a line. -/
theorem passes_search_and_searchEach (p : Policy) (g : CallGraph) :
    (∀ path n a, Passes path a (search p g path n a)) ∧
      ∀ path ns a, Passes path a (searchEach p g path ns a) := by
  refine search.mutual_induct p g _ _ ?closing ?below ?nil ?cons
  case closing =>
    intro path n a hn
    rw [search_of_mem hn]
    exact passes_foundCycle _ _
  case below =>
    intro path n a hn ih
    rw [search_of_not_mem hn]
    exact ih.finished hn
  case nil =>
    intro path a
    rw [searchEach_nil]
    exact .refl path a
  case cons =>
    intro path n rest a ih1 ih2
    cases hv : a.graph.isVisited n with
    | true =>
      rw [searchEach_of_visited hv]
      simpa [hv] using ih2
    | false =>
      rw [searchEach_of_not_visited hv]
      refine ih1.trans ?_
      simpa [hv] using ih2

theorem passes_search (p : Policy) (g : CallGraph) (path : List Node) (n : Node) (a : Analysis) :
    Passes path a (search p g path n a) := (passes_search_and_searchEach p g).1 path n a

theorem passes_searchEach (p : Policy) (g : CallGraph) (path ns : List Node) (a : Analysis) :
    Passes path a (searchEach p g path ns a) := (passes_search_and_searchEach p g).2 path ns a

/-- Nodes that are visited before the search may be left out of the line. -/
theorem searchEach_filter (hab : ∀ {m}, a.graph.isVisited m = true → b.graph.isVisited m = true) :
    searchEach p g path (ns.filter fun m => !a.graph.isVisited m) b = searchEach p g path ns b := by
  induction ns generalizing b with
  | nil => rfl
  | cons n ns ih =>
    cases hv : a.graph.isVisited n with
    | true =>
      rw [List.filter_cons_of_neg (by simp [hv]), ih hab, searchEach_of_visited (hab hv)]
    | false =>
      rw [List.filter_cons_of_pos (by simp [hv]), searchEach, searchEach]
      refine ih fun hm => ?_
      split
      · exact hab hm
      · exact (passes_search p g path n b).visited (hab hm)

/-! ## 3. The walk -/

section Walk

variable {t : Tier} {outer : List Tier}

theorem walk_nil (r : Bool) : walk p ⟨[], r⟩ a = a := by
  have hdown : (Walk.down a.graph ⟨[], r⟩).tiers = [] := by
    cases r with
    | true => rfl
    | false => rw [Walk.down, Walk.descend]; rfl
  rw [walk, dif_pos hdown]

/-- One turn of the loop, where going down leaves the walk at `t`. -/
theorem walk_turn {w : Walk} (hdown : w.down a.graph = ⟨t :: outer, false⟩) :
    walk p w a = walk p (Walk.up (a.visit p ⟨t :: outer, false⟩).graph ⟨t :: outer, false⟩)
      (a.visit p ⟨t :: outer, false⟩) := by
  rw [walk, dif_neg (by rw [hdown]; exact List.cons_ne_nil t outer), hdown]

/-- What a walk does depends on where it stands after going down. -/
theorem walk_congr {w w' : Walk} (hdown : w.down a.graph = w'.down a.graph) :
    walk p w a = walk p w' a := by
  rw [walk.eq_1 p w a, walk.eq_1 p w' a, hdown]

theorem down_of_visited (hv : a.graph.isVisited t.node = true) :
    Walk.down a.graph ⟨t :: outer, false⟩ = ⟨t :: outer, false⟩ := by
  rw [Walk.down, Walk.descend_of_visited hv]
  rfl

theorem down_of_mem (hc : t.node ∈ outer.map (·.node)) :
    Walk.down a.graph ⟨t :: outer, false⟩ = ⟨t :: outer, false⟩ := by
  rw [Walk.down, Walk.descend_of_closing (Walk.any_node_iff.mpr hc)]
  rfl

theorem up_of_visited {k : Node} (hv : a.graph.isVisited n = true) :
    Walk.up a.graph ⟨⟨k, n :: ns⟩ :: outer, false⟩ = Walk.up a.graph ⟨⟨k, ns⟩ :: outer, false⟩ := by
  simp only [Walk.up, List.dropWhile_cons_of_pos hv]

theorem up_of_not_visited {k : Node} (hv : a.graph.isVisited n = false) :
    Walk.up a.graph ⟨⟨k, n :: ns⟩ :: outer, false⟩ = ⟨⟨n, ns⟩ :: outer, false⟩ := by
  simp only [Walk.up, List.dropWhile_cons_of_neg (Bool.eq_false_iff.mp hv)]

/-- **Going down from a new node is going up to the line of its callees**, as if some other one of
    them had just been left. -/
theorem walk_descend (k : Node) (hv : a.graph.isVisited t.node = false)
    (hc : t.node ∉ outer.map (·.node)) : walk p ⟨t :: outer, false⟩ a =
      walk p (Walk.up a.graph ⟨⟨k, Walk.due a.graph t.node⟩ :: t :: outer, false⟩) a := by
  have hany : outer.any (·.node == t.node) = false :=
    Bool.eq_false_iff.mpr fun h => hc (Walk.any_node_iff.mp h)
  refine walk_congr ?_
  cases hd : Walk.due a.graph t.node with
  | nil =>
    show (⟨Walk.descend a.graph (t :: outer), false⟩ : Walk) = ⟨t :: outer, false⟩
    rw [Walk.descend_of_due_nil hd]
  | cons child siblings =>
    have hchild : a.graph.isVisited child = false :=
      (Walk.mem_due.mp (hd ▸ List.mem_cons_self)).2
    rw [up_of_not_visited hchild]
    show (⟨Walk.descend a.graph (t :: outer), false⟩ : Walk) =
      ⟨Walk.descend a.graph (⟨child, siblings⟩ :: t :: outer), false⟩
    rw [Walk.descend_of_due_cons hv hany hd]

/-- A walk that comes back to its chain at `n` makes the search's turn there. -/
theorem walk_closing (g : CallGraph) (hc : n ∈ outer.map (·.node)) :
    walk p ⟨⟨n, ns⟩ :: outer, false⟩ a =
      walk p (Walk.up (search p g (outer.map (·.node)).reverse n a).graph ⟨⟨n, ns⟩ :: outer, false⟩)
        (search p g (outer.map (·.node)).reverse n a) := by
  have hvisit : a.visit p ⟨⟨n, ns⟩ :: outer, false⟩ =
      search p g (outer.map (·.node)).reverse n a := by
    rw [visit_of_mem hc, search_of_mem (List.mem_reverse.mpr hc)]
  rw [walk_turn (down_of_mem hc), hvisit]

/-- A walk that has come back to a new node finishes it. -/
theorem walk_returned (hv : a.graph.isVisited n = false) (hc : n ∉ outer.map (·.node)) :
    walk p ⟨⟨n, ns⟩ :: outer, true⟩ a =
      walk p (Walk.up (a.finished p ((outer.map (·.node)).reverse ++ [n]) n).graph
          ⟨⟨n, ns⟩ :: outer, false⟩)
        (a.finished p ((outer.map (·.node)).reverse ++ [n]) n) := by
  have hdown : Walk.down a.graph ⟨⟨n, ns⟩ :: outer, true⟩ = ⟨⟨n, ns⟩ :: outer, false⟩ := rfl
  rw [walk_turn hdown, visit_of_not_visited hc hv]

theorem due_eq (hcalls : a.graph.calls = g.calls) (n : Node) :
    Walk.due a.graph n = (g.recentCallees n).filter fun m => !a.graph.isVisited m := by
  rw [Walk.due, CallGraph.recentCallees, CallGraph.recentCallees, hcalls]

/-- **A walk with a line of nodes at its innermost tier searches below each of them and goes on from
    the tier above.** No node of the chain above is visited yet. -/
theorem walk_line (k : Node) (hcalls : a.graph.calls = g.calls)
    (hchain : ∀ u ∈ outer, a.graph.isVisited u.node = false) :
    walk p (Walk.up a.graph ⟨⟨k, ns⟩ :: outer, false⟩) a =
      walk p ⟨outer, !outer.isEmpty⟩
        (searchEach p g (outer.map (·.node)).reverse ns a) := by
  -- on the calls off the path and the nodes in line, which bound what the search has left to do
  induction hk : callsOff g (outer.map (·.node)).reverse + ns.length using Nat.strong_induction_on
    generalizing outer ns a k with
  | _ left ih =>
  cases ns with
  | nil =>
    rw [searchEach_nil]
    rfl
  | cons n rest =>
    simp only [List.length_cons] at hk
    -- what is left of the line, in whatever state the search below `n` leaves the analysis
    have hrest : ∀ b k', Passes (outer.map (·.node)).reverse a b →
        walk p (Walk.up b.graph ⟨⟨k', rest⟩ :: outer, false⟩) b =
          walk p ⟨outer, !outer.isEmpty⟩ (searchEach p g (outer.map (·.node)).reverse rest b) := by
      intro b k' hb
      refine ih _ (by omega) k' (hb.calls.trans hcalls) (fun u hu => ?_) rfl
      rw [hb.path (List.mem_reverse.mpr (List.mem_map_of_mem hu))]
      exact hchain u hu
    cases hv : a.graph.isVisited n with
    | true =>
      rw [up_of_visited hv, searchEach_of_visited hv]
      exact hrest a k (.refl _ a)
    | false =>
      rw [up_of_not_visited hv, searchEach_of_not_visited hv]
      by_cases hc : n ∈ outer.map (·.node)
      · rw [walk_closing g hc]
        exact hrest _ n (passes_search p g _ n a)
      · have hn : n ∉ (outer.map (·.node)).reverse := fun h => hc (List.mem_reverse.mp h)
        have hpath : ((⟨n, rest⟩ :: outer : List Tier).map (·.node)).reverse =
            (outer.map (·.node)).reverse ++ [n] := by
          rw [List.map_cons, List.reverse_cons]
        have hless : callsOff g ((⟨n, rest⟩ :: outer : List Tier).map (·.node)).reverse +
            (Walk.due a.graph n).length < left := by
          have hoff := callsOff_concat (g := g) hn
          have hdue : (Walk.due a.graph n).length ≤ (g.recentCallees n).length := by
            rw [due_eq hcalls]
            exact List.length_filter_le _ _
          rw [hpath]
          omega
        have hchain' : ∀ u ∈ (⟨n, rest⟩ :: outer : List Tier),
            a.graph.isVisited u.node = false := by
          intro u hu
          rcases List.mem_cons.mp hu with rfl | hu
          · exact hv
          · exact hchain u hu
        -- below `n`, with `n` on the chain
        have hbelow : walk p ⟨⟨n, rest⟩ :: outer, false⟩ a = walk p ⟨⟨n, rest⟩ :: outer, true⟩
            (searchEach p g ((outer.map (·.node)).reverse ++ [n]) (g.recentCallees n) a) := by
          rw [walk_descend n hv hc, ih _ hless n hcalls hchain' rfl, hpath, due_eq hcalls,
            searchEach_filter fun h => h]
          rfl
        -- back at `n`, which the search below it has not visited
        have hinner := passes_searchEach p g ((outer.map (·.node)).reverse ++ [n])
          (g.recentCallees n) a
        rw [hbelow, search_of_not_mem hn, walk_returned ?_ hc]
        · exact hrest _ n (hinner.finished hn)
        · rw [hinner.path (List.mem_append_right _ List.mem_cons_self)]
          exact hv

/-- **Following a trail is a depth-first search by recursion**: the graph that the loop leaves, what
    it has warned of and what it logs are those of a search below each root that is not visited when
    its turn comes. -/
theorem follow_eq_searchEach (p : Policy) (roots : List Node) (a : Analysis) :
    follow p (Trail.start roots) a = searchEach p a.graph [] roots a := by
  rw [follow_eq_walk, Trail.walk_start]
  cases roots with
  | nil =>
    rw [searchEach_nil]
    exact walk_nil false
  | cons r rest =>
    have hline : walk p (Walk.up a.graph ⟨⟨r, r :: rest⟩ :: [], false⟩) a =
        searchEach p a.graph [] (r :: rest) a :=
      (walk_line r rfl fun _ h => absurd h List.not_mem_nil).trans (walk_nil _)
    rw [← hline]
    cases hv : a.graph.isVisited r with
    | true =>
      have hstart : Walk.down a.graph (Walk.start (r :: rest)) = ⟨⟨r, rest⟩ :: [], false⟩ :=
        down_of_visited hv
      rw [walk_turn hstart, visit_of_visited (List.not_mem_nil) hv, up_of_visited hv]
    | false => rw [up_of_not_visited hv]; rfl

end Walk

end Analysis

end StackDepth

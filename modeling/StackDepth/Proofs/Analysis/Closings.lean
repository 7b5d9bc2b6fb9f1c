import StackDepth.Proofs.Analysis.Turns

/-!
# Calls that close a cycle

A walk that meets a node of its chain again closes a cycle there and goes no deeper. No call back to
the chain escapes it: whoever is finished has had each of its callees visited before, or met on the
chain.

* `Standing.circle`: the chain from where the cycle starts is a circle of calls;
* `Accounted`: each callee of a tier is visited, in line, or was met on the chain; it is kept by
  going down and by going up (`Accounted.down`, `Accounted.up`);
* `exists_closes_of_finishing`: where a function is finished, a callee that is not visited was met
  on the chain in some turn of the same walk;
* `standing_of_mem_allTurns`, `exists_closes_of_mem_allTurns`: the same of a whole analysis.
-/

namespace StackDepth

/-- Graphs with the same list of calls have the same call relation. -/
theorem CallGraph.calls_congr {g h : CallGraph} (e : h.calls = g.calls) : h.Calls = g.Calls := by
  funext a b
  rw [Calls, Calls, e]

namespace Walk

variable {g h : CallGraph} {roots : List Node} {t : Tier} {outer : List Tier} {w : Walk}
  {n m : Node}

/-! ## 1. Where the walk closes a cycle -/

/-- The walk has gone from `n` to its callee `m`, and `m` is on the chain above. -/
def Closes (w : Walk) (n m : Node) : Prop :=
  ∃ t u outer, w.tiers = t :: u :: outer ∧ u.node = n ∧ t.node = m ∧ w.isClosing = true

/-- A node of the chain is called from the tier just above. -/
theorem closes_of_mem (hc : t.node ∈ outer.map (·.node)) {r : Bool} {u : Tier}
    (hu : u ∈ outer.head?) : Closes ⟨t :: outer, r⟩ u.node t.node := by
  obtain ⟨rest, rfl⟩ := List.head?_eq_some_iff.mp hu
  exact ⟨t, u, rest, rfl, rfl, rfl, (Analysis.isClosing_iff r).mpr hc⟩

/-- **From where the cycle starts, the chain is a circle of calls** around the node where the walk
    stands. -/
theorem Standing.circle (hs : Standing g roots t outer) {r : Bool} {start : Nat}
    (hstart : cycleStart? ⟨t :: outer, r⟩ = some start) :
    ∃ inner, (Walk.path ⟨t :: outer, r⟩).drop start = t.node :: (inner ++ [t.node]) ∧
      (t.node :: (inner ++ [t.node])).IsChain g.Calls ∧ (t.node :: inner).Nodup := by
  have hc : t.node ∈ outer.map (·.node) := by
    refine Classical.byContradiction fun hc => ?_
    rw [Analysis.cycleStart?_of_not_mem hc] at hstart
    cases hstart
  obtain ⟨before, inner, e, hfirst, hchain, hnodup⟩ := Analysis.exists_split_of_mem hs hc
  rw [Analysis.cycleStart?_of_mem hc, e, Analysis.idxOf_append_cons hfirst] at hstart
  cases hstart
  refine ⟨inner, ?_, hchain.right_of_append, hnodup.of_append_right⟩
  rw [path_cons, e, List.append_assoc, List.cons_append, List.drop_left]

/-! ## 2. Callees that were met on the chain -/

/-- Every callee of a tier of `outer` is visited, in line below the tier, or was met on the chain;
    `line` is in line below the innermost. -/
def Accounted (met : Node → Node → Prop) (g : CallGraph) : List Node → List Tier → Prop
  | _, [] => True
  | line, u :: outer =>
    (∀ m, g.Calls u.node m → g.isVisited m = true ∨ m ∈ line ∨ met u.node m) ∧
      Accounted met g u.line outer

variable {met met' : Node → Node → Prop} {line line' : List Node}

/-- What leaves the line has to be visited or met on the chain. -/
theorem Accounted.mono (ha : Accounted met g line outer) (hc : h.calls = g.calls)
    (hv : ∀ m, g.isVisited m = true → h.isVisited m = true) (hmet : ∀ n m, met n m → met' n m)
    (hline : ∀ u ∈ outer.head?, ∀ m ∈ line,
      h.isVisited m = true ∨ m ∈ line' ∨ met' u.node m) : Accounted met' h line' outer := by
  induction outer generalizing line line' with
  | nil => trivial
  | cons u outer ih =>
    refine ⟨fun m hm => ?_, ih ha.2 fun _ _ m hm => .inr (.inl hm)⟩
    rw [CallGraph.calls_congr hc] at hm
    rcases ha.1 m hm with h' | h' | h'
    · exact .inl (hv m h')
    · exact hline u rfl m h'
    · exact .inr (.inr (hmet _ _ h'))

/-- A callee that is not visited is due. -/
theorem visited_or_mem_due (hm : g.Calls n m) : g.isVisited m = true ∨ m ∈ due g n := by
  cases hv : g.isVisited m with
  | true => exact .inl rfl
  | false => exact .inr (mem_due.mpr ⟨hm, hv⟩)

/-- Where going down ends, the node is visited, closes a cycle, or has no callee that is not
    visited. -/
theorem Accounted.descend {tiers : List Tier}
    (ha : ∀ t outer, tiers = t :: outer → Accounted met g t.line outer)
    (he : Walk.descend g tiers = t :: outer) :
    Accounted met g t.line outer ∧ (g.isVisited t.node = true ∨ t.node ∈ outer.map (·.node) ∨
      ∀ m, g.Calls t.node m → g.isVisited m = true) := by
  fun_induction Walk.descend g tiers with
  | case1 => cases he
  | case2 t outer hv =>
    cases he
    exact ⟨ha t outer rfl, .inl hv⟩
  | case3 t outer hv ho =>
    cases he
    exact ⟨ha t outer rfl, .inr (.inl (any_node_iff.mp ho))⟩
  | case4 t outer hv ho hd =>
    cases he
    refine ⟨ha t outer rfl, .inr (.inr fun m hm => ?_)⟩
    exact (visited_or_mem_due hm).resolve_right fun hmem => List.not_mem_nil (hd ▸ hmem)
  | case5 t outer hv ho child siblings hd ih =>
    refine ih (fun t' outer' e => ?_) he
    cases e
    refine ⟨fun m hm => (visited_or_mem_due hm).imp_right fun hmem => .inl ?_, ha t outer rfl⟩
    rw [hd] at hmem
    exact hmem

/-- **Going down** accounts for the callees of the nodes it passes. Where it ends at a node that is
    to be finished, each callee of that is visited or was met on the chain. -/
theorem Accounted.down (ha : Accounted met g w.line w.taken) (he : w.down g = ⟨t :: outer, false⟩) :
    Accounted met g t.line outer ∧ (g.isVisited t.node = true ∨ t.node ∈ outer.map (·.node) ∨
      ∀ m, g.Calls t.node m → g.isVisited m = true ∨ met t.node m) := by
  obtain ⟨tiers, returned⟩ := w
  cases returned with
  | true =>
    -- the walk came back, and the line below is used up
    cases he
    refine ⟨ha.2, .inr (.inr fun m hm => ?_)⟩
    exact (ha.1 m hm).imp_right fun h' => h'.resolve_left List.not_mem_nil
  | false =>
    have hd : Walk.descend g tiers = t :: outer := congrArg Walk.tiers he
    have hstart : ∀ t outer, tiers = t :: outer → Accounted met g t.line outer := by
      intro t outer e
      subst e
      exact ha
    obtain ⟨hacc, hend⟩ := Accounted.descend hstart hd
    exact ⟨hacc, hend.imp_right fun h' => h'.imp_right fun h'' m hm => .inl (h'' m hm)⟩

theorem taken_up : (Walk.up h ⟨t :: outer, false⟩).taken = outer := by
  cases hd : t.siblings.dropWhile h.isVisited with
  | cons next rest => simp [Walk.up, hd, taken]
  | nil => cases outer <;> simp [Walk.up, hd, taken]

theorem line_up : (Walk.up h ⟨t :: outer, false⟩).line = t.siblings.dropWhile h.isVisited := by
  cases hd : t.siblings.dropWhile h.isVisited with
  | cons next rest => simp [Walk.up, hd, Walk.line, Tier.line]
  | nil => cases outer <;> simp [Walk.up, hd, Walk.line]

/-- **Going up** after a visit, which visited the innermost node or met it on the chain. -/
theorem Accounted.up (ha : Accounted met g t.line outer) (hc : h.calls = g.calls)
    (hv : ∀ m, g.isVisited m = true → h.isVisited m = true) (hmet : ∀ n m, met n m → met' n m)
    (ht : ∀ u ∈ outer.head?, h.isVisited t.node = true ∨ met' u.node t.node) :
    Accounted met' h (Walk.up h ⟨t :: outer, false⟩).line
      (Walk.up h ⟨t :: outer, false⟩).taken := by
  rw [line_up, taken_up]
  refine ha.mono hc hv hmet fun u hu m hm => ?_
  rcases List.mem_cons.mp hm with rfl | hm
  · exact (ht u hu).imp_right .inr
  · rw [← List.takeWhile_append_dropWhile (p := h.isVisited) (l := t.siblings)] at hm
    rcases List.mem_append.mp hm with hm | hm
    · exact .inl (List.mem_takeWhile_imp hm)
    · exact .inr (.inl hm)

theorem accounted_start (g : CallGraph) (roots : List Node) :
    Accounted met g (start roots).line (start roots).taken := by
  cases roots with
  | nil => trivial
  | cons r rest => trivial

end Walk

/-! ## 3. The turns of a walk -/

namespace Analysis

variable {p : Policy} {g : CallGraph} {a b : Analysis} {w : Walk} {roots : List Node}
  {s : Walk × Analysis} {n m : Node} {met : Node → Node → Prop}

/-- Where a walk that goes on stands after going down. -/
theorem exists_tier_of_down (hne : (w.down g).tiers ≠ []) :
    ∃ t outer, w.down g = ⟨t :: outer, false⟩ := by
  obtain ⟨t, outer, e⟩ := List.exists_cons_of_ne_nil hne
  have hr := Walk.returned_down g w
  generalize w.down g = v at e hr
  obtain ⟨tiers, returned⟩ := v
  exact ⟨t, outer, by rw [← e, ← hr]⟩

/-- **At every turn the walk stands on a chain of calls.** -/
theorem standing_of_mem_turns (hw : w.Proper a.graph roots) (hs : s ∈ turns p w a) :
    s.2.graph.calls = a.graph.calls ∧
      ∃ t outer, s.1 = ⟨t :: outer, false⟩ ∧ Walk.Standing s.2.graph roots t outer := by
  fun_induction turns p w a with
  | case1 w a he => cases hs
  | case2 w a hne ih =>
    obtain ⟨t, outer, e, hstand, _⟩ := hw.down hne
    rcases List.mem_cons.mp hs with rfl | hs
    · exact ⟨rfl, t, outer, e, hstand⟩
    · have hup := hstand.up (h := (a.visit p ⟨t :: outer, false⟩).graph) (calls_visit _ _ _)
        (fun m hm => isVisited_visit _ _ _ _ hm)
        ((isVisited_visit_tail p t outer false a).imp_right Walk.any_node_iff.mp)
      simp only [turn, e] at ih hs
      obtain ⟨hcalls, hrest⟩ := ih hup hs
      exact ⟨hcalls.trans (calls_visit _ _ _), hrest⟩

/-- **Where a function is finished, each callee is visited or was met on the chain**, in a turn of
    the walk or before it. -/
theorem exists_closes_of_finishing (ha : Walk.Accounted met a.graph w.line w.taken)
    (hs : s ∈ turns p w a) (hn : finishing? s = some n) (hcall : a.graph.Calls n m) :
    s.2.graph.isVisited m = true ∨ met n m ∨ ∃ s' ∈ turns p w a, s'.1.Closes n m := by
  fun_induction turns p w a generalizing met with
  | case1 w a he => cases hs
  | case2 w a hne ih =>
    obtain ⟨t, outer, e⟩ := exists_tier_of_down hne
    obtain ⟨hacc, hend⟩ := ha.down e
    simp only [turn, e] at ih hs ⊢
    rcases List.mem_cons.mp hs with rfl | hs
    · -- the turn that finishes `n`
      obtain ⟨hc, hv, rfl⟩ := finishing?_cons.mp hn
      rcases hend with h | h | h
      · rw [hv] at h
        cases h
      · exact absurd h hc
      · exact (h m hcall).imp_right .inl
    · -- from the next turn on, this one counts as before the walk
      have hmet : ∀ n m, met n m → met n m ∨ Walk.Closes ⟨t :: outer, false⟩ n m := fun _ _ => .inl
      have hup := hacc.up (h := (a.visit p ⟨t :: outer, false⟩).graph) (calls_visit _ _ _)
        (fun m hm => isVisited_visit _ _ _ _ hm) hmet (fun u hu => ?_)
      · have hcall' : (a.visit p ⟨t :: outer, false⟩).graph.Calls n m := by
          rw [CallGraph.calls_congr (calls_visit p _ a)]
          exact hcall
        rcases ih hup hs hcall' with h | (h | h) | ⟨s', hs', h⟩
        · exact .inl h
        · exact .inr (.inl h)
        · exact .inr (.inr ⟨_, List.mem_cons_self, h⟩)
        · exact .inr (.inr ⟨s', List.mem_cons_of_mem _ hs', h⟩)
      · rcases isVisited_visit_tail p t outer false a with h | h
        · exact .inl h
        · exact .inr (.inr (Walk.closes_of_mem (Walk.any_node_iff.mp h) hu))

/-! ## 4. The turns of an analysis -/

theorem calls_walk (p : Policy) (roots : List Node) (a : Analysis) :
    (walk p (Walk.start roots) a).graph.calls = a.graph.calls :=
  (agrees_of_run (walk_run (p := p) (Walk.proper_start a.graph roots)).1).calls

theorem exists_walk_of_mem_laterTurns {ns : List Node} (hs : s ∈ laterTurns p ns a) :
    ∃ roots b, b.graph.calls = a.graph.calls ∧ s ∈ turns p (Walk.start roots) b ∧
      ∀ s' ∈ turns p (Walk.start roots) b, s' ∈ laterTurns p ns a := by
  induction ns generalizing a with
  | nil => cases hs
  | cons n ns ih =>
    rw [laterTurns] at hs ⊢
    split
    · rename_i hv
      rw [if_pos hv] at hs
      exact ih hs
    · rename_i hv
      rw [if_neg hv] at hs
      rcases List.mem_append.mp hs with hs | hs
      · exact ⟨[n], a, rfl, hs, fun s' hs' => List.mem_append_left _ hs'⟩
      · obtain ⟨roots, b, hcalls, hmem, hsub⟩ := ih hs
        exact ⟨roots, b, hcalls.trans (calls_walk p _ a), hmem,
          fun s' hs' => List.mem_append_right _ (hsub s' hs')⟩

/-- Every turn of an analysis is one of a walk whose turns are all among those of the analysis. -/
theorem exists_walk_of_mem_allTurns (hs : s ∈ allTurns p g) :
    ∃ roots b, b.graph.calls = g.calls ∧ s ∈ turns p (Walk.start roots) b ∧
      ∀ s' ∈ turns p (Walk.start roots) b, s' ∈ allTurns p g := by
  rcases List.mem_append.mp hs with hs | hs
  · exact ⟨g.entrances, { graph := g }, rfl, hs, fun s' hs' => List.mem_append_left _ hs'⟩
  · obtain ⟨roots, b, hcalls, hmem, hsub⟩ := exists_walk_of_mem_laterTurns hs
    exact ⟨roots, b, hcalls.trans (calls_walk p _ _), hmem,
      fun s' hs' => List.mem_append_right _ (hsub s' hs')⟩

theorem standing_of_mem_allTurns (hs : s ∈ allTurns p g) :
    s.2.graph.calls = g.calls ∧
      ∃ roots t outer, s.1 = ⟨t :: outer, false⟩ ∧ Walk.Standing s.2.graph roots t outer := by
  obtain ⟨roots, b, hcalls, hmem, _⟩ := exists_walk_of_mem_allTurns hs
  obtain ⟨hcalls', t, outer, e, hstand⟩ := standing_of_mem_turns (Walk.proper_start _ roots) hmem
  exact ⟨hcalls'.trans hcalls, roots, t, outer, e, hstand⟩

/-- **Where a function is finished, a callee that is not visited was met on the chain.** -/
theorem exists_closes_of_mem_allTurns (hs : s ∈ allTurns p g) (hn : finishing? s = some n)
    (hcall : g.Calls n m) (hm : s.2.graph.isVisited m = false) :
    ∃ s' ∈ allTurns p g, s'.1.Closes n m := by
  obtain ⟨roots, b, hcalls, hmem, hsub⟩ := exists_walk_of_mem_allTurns hs
  have hcall' : b.graph.Calls n m := by
    rw [CallGraph.calls_congr hcalls]
    exact hcall
  have hstart : Walk.Accounted (fun _ _ => False) b.graph (Walk.start roots).line
      (Walk.start roots).taken := Walk.accounted_start b.graph roots
  rcases exists_closes_of_finishing hstart hmem hn hcall' with h | h | ⟨s', hs', h⟩
  · rw [hm] at h
    cases h
  · exact h.elim
  · exact ⟨s', hsub s' hs', h⟩

end Analysis

end StackDepth

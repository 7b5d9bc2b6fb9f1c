import StackDepth.Proofs.Analysis.CycleDetection

/-!
# Two analyses side by side

A walk asks a graph for its calls and for what is visited, and nothing else decides where it goes.
So two analyses that agree on these walk the same way, and what each visit keeps between them holds
between their results.

* `Walk.down_congr`, `Walk.up_congr`: where a walk goes;
* `Simulation`: a relation between analyses that both kinds of visit keep;
  `Simulation.walk`, `Simulation.walkAll`: so do whole walks, and all walks of an analysis;
* `simulation_switches`: under policies that regard the same functions the graph is the same, and so
  is the log without its warnings;
* `analyse_ignores_switches`: the switches for warnings change nothing but the warnings.
-/

namespace StackDepth

/-! ## 1. Where a walk goes -/

namespace Walk

variable {g h : CallGraph}

theorem due_congr (hc : h.calls = g.calls) (hv : h.isVisited = g.isVisited) (n : Node) :
    due h n = due g n := by
  rw [due, due, CallGraph.recentCallees, CallGraph.recentCallees, hc, hv]

theorem descend_congr (hc : h.calls = g.calls) (hv : h.isVisited = g.isVisited)
    (tiers : List Tier) : descend h tiers = descend g tiers := by
  have hdue := due_congr hc hv
  fun_induction descend g tiers with
  | case1 => rw [descend]
  | case2 t outer hvis => rw [descend, dif_pos (hv ▸ hvis)]
  | case3 t outer hvis ho => rw [descend, dif_neg (hv ▸ hvis), dif_pos ho]
  | case4 t outer hvis ho hd =>
    rw [descend, dif_neg (hv ▸ hvis), dif_neg ho]
    split
    · rfl
    · rename_i e
      rw [hdue, hd] at e
      cases e
  | case5 t outer hvis ho child siblings hd ih =>
    rw [descend, dif_neg (hv ▸ hvis), dif_neg ho]
    split
    · rename_i e
      rw [hdue, hd] at e
      cases e
    · rename_i e
      rw [hdue, hd] at e
      cases e
      exact ih

theorem down_congr (hc : h.calls = g.calls) (hv : h.isVisited = g.isVisited) (w : Walk) :
    w.down h = w.down g := by
  rw [down, down, descend_congr hc hv]

theorem up_congr (hv : h.isVisited = g.isVisited) (w : Walk) : w.up h = w.up g := by
  unfold up
  rw [hv]

end Walk

theorem CallGraph.entrances_congr {g h : CallGraph} (hf : h.functions = g.functions)
    (hc : h.calls = g.calls) : h.entrances = g.entrances := by
  have he : h.isEntrance = g.isEntrance := by
    funext n
    rw [isEntrance, isEntrance, hc]
  rw [entrances, entrances, hf, he]

/-! ## 2. Relations that a visit keeps -/

namespace Analysis

variable {p q : Policy} {R : Analysis → Analysis → Prop} {a b : Analysis}

/-- A relation under which two analyses, one under each policy, walk the same way, and which is kept
    where both report a cycle and where both finish a node. -/
structure Simulation (p q : Policy) (R : Analysis → Analysis → Prop) : Prop where
  calls : ∀ {a b}, R a b → b.graph.calls = a.graph.calls
  isVisited : ∀ {a b}, R a b → b.graph.isVisited = a.graph.isVisited
  functions : ∀ {a b}, R a b → b.graph.functions = a.graph.functions
  foundCycle : ∀ {a b} path start, R a b → R (a.foundCycle p path start) (b.foundCycle q path start)
  finished : ∀ {a b} path n, R a b → R (a.finished p path n) (b.finished q path n)

/-- **One visit.** -/
theorem Simulation.visit (hR : Simulation p q R) (w : Walk) (h : R a b) :
    R (a.visit p w) (b.visit q w) := by
  obtain ⟨tiers, r⟩ := w
  cases tiers with
  | nil => exact h
  | cons t outer =>
    by_cases hc : t.node ∈ outer.map (·.node)
    · rw [visit_of_mem hc, visit_of_mem hc]
      exact hR.foundCycle _ _ h
    · have hsame := congrFun (hR.isVisited h) t.node
      cases hv : a.graph.isVisited t.node with
      | true =>
        rw [visit_of_visited hc hv, visit_of_visited hc (hsame.trans hv)]
        exact h
      | false =>
        rw [visit_of_not_visited hc hv, visit_of_not_visited hc (hsame.trans hv)]
        exact hR.finished _ _ h

/-- **One walk.** -/
theorem Simulation.walk (hR : Simulation p q R) (w : Walk) (h : R a b) :
    R (Analysis.walk p w a) (Analysis.walk q w b) := by
  fun_induction Analysis.walk p w a generalizing b with
  | case1 w a he =>
    have hdown := Walk.down_congr (hR.calls h) (hR.isVisited h) w
    rw [Analysis.walk, dif_pos (by rw [hdown]; exact he)]
    exact h
  | case2 w a hne ih =>
    have hdown := Walk.down_congr (hR.calls h) (hR.isVisited h) w
    have hvisit := hR.visit (w.down a.graph) h
    rw [Analysis.walk.eq_1 q w b, dif_neg (by rw [hdown]; exact hne), hdown,
      Walk.up_congr (hR.isVisited hvisit)]
    exact ih hvisit

/-- The walks from functions that are left over. -/
theorem Simulation.foldl_walk (hR : Simulation p q R) (ns : List Node) (h : R a b) :
    R (ns.foldl (fun a n => if a.graph.isVisited n then a else Analysis.walk p (.start [n]) a) a)
      (ns.foldl (fun b n => if b.graph.isVisited n then b else Analysis.walk q (.start [n]) b)
        b) := by
  induction ns generalizing a b with
  | nil => exact h
  | cons n ns ih =>
    refine ih ?_
    dsimp only
    rw [hR.isVisited h]
    split
    · exact h
    · exact hR.walk _ h

/-- **All walks of an analysis.** -/
theorem Simulation.walkAll (hR : Simulation p q R) (g g' : CallGraph)
    (h : R { graph := g } { graph := g' }) :
    R (Analysis.walkAll p g) (Analysis.walkAll q g') := by
  have hentrances : g'.entrances = g.entrances :=
    CallGraph.entrances_congr (hR.functions h) (hR.calls h)
  have hfirst := hR.walk (Walk.start g.entrances) h
  rw [walkAll_eq, walkAll_eq, hentrances, hR.functions hfirst]
  exact hR.foldl_walk _ hfirst

/-! ## 3. Policies that regard the same functions -/

/-- What the log holds besides warnings. -/
def notes (a : Analysis) : List Event := a.log.toList.filter (·.level != .warn)

theorem notes_append {events : List Event} (h : b.log = a.log ++ events.toArray) :
    b.notes = a.notes ++ events.filter (·.level != .warn) := by
  rw [notes, h, Array.toList_append, List.filter_append, notes]

/-- A warning is no note. -/
theorem filter_warning {enabled warned : Bool} {each once : Event} (heach : each.level = .warn)
    (honce : once.level = .warn) :
    (p.warning enabled warned each once).2.filter (·.level != .warn) = [] := by
  refine List.filter_eq_nil_iff.mpr fun e he => ?_
  rcases Policy.mem_warning he with rfl | rfl
  · simp [heach]
  · simp [honce]

variable {path : List Node} {n : Node}

theorem log_foundDynamic : (a.foundDynamic p path n).log = a.log ++
    (p.warning p.warnDynamic a.warned.dynamic (.dynamicIn (a.graph.name n))
      .dynamicFound).2.toArray := rfl

theorem log_foundPointerCall : (a.foundPointerCall p path n).log = a.log ++
    (p.warning p.warnPointer a.warned.pointerCall (.pointerCallIn (a.graph.name n))
      .pointerCallFound).2.toArray := rfl

theorem log_foundCycle (start : Nat) : (a.foundCycle p path start).log = a.log ++
    (.cyclePath (path.map a.graph.name) ::
      (p.warning p.warnCycle a.warned.cycle (.cycle ((path.map a.graph.name).drop start))
        .cycleFound).2).toArray := rfl

theorem notes_checkDynamic : (a.checkDynamic p path n).notes = a.notes := by
  unfold checkDynamic
  split
  · rw [notes_append log_foundDynamic, filter_warning rfl rfl, List.append_nil]
  · rfl

theorem notes_checkPointerCall : (a.checkPointerCall p path n).notes = a.notes := by
  unfold checkPointerCall
  split
  · rw [notes_append log_foundPointerCall, filter_warning rfl rfl, List.append_nil]
  · rfl

theorem notes_finished : (a.finished p path n).notes = a.notes := by
  show (a.findings p path n).notes = a.notes
  unfold findings
  split
  · rw [notes_checkPointerCall, notes_checkDynamic]
  · rfl

/-- Of a cycle, the chain that closes it is noted whatever is warned of. -/
theorem notes_foundCycle (start : Nat) :
    (a.foundCycle p path start).notes = a.notes ++ [.cyclePath (path.map a.graph.name)] := by
  rw [notes_append (log_foundCycle start), List.filter_cons_of_pos rfl, filter_warning rfl rfl]

/-- What the policies regard decides what findings do to the graph. -/
theorem graph_findings_congr (hreg : ∀ f, q.regards f = p.regards f) (h : b.graph = a.graph) :
    (b.findings q path n).graph = (a.findings p path n).graph := by
  have hsame : b.regards q n = a.regards p n := by
    rw [regards, regards, h, funext hreg]
  have hdynamic : (b.checkDynamic q path n).graph = (a.checkDynamic p path n).graph := by
    rw [graph_checkDynamic, graph_checkDynamic, h]
  unfold findings
  rw [hsame]
  split
  · rw [graph_checkPointerCall, graph_checkPointerCall, hdynamic]
  · exact h

/-- **Under policies that regard the same functions** the graphs are the same all along, and so are
    the notes. -/
theorem simulation_switches (hreg : ∀ f, q.regards f = p.regards f) :
    Simulation p q fun a b => b.graph = a.graph ∧ b.notes = a.notes where
  calls h := congrArg CallGraph.calls h.1
  isVisited h := congrArg CallGraph.isVisited h.1
  functions h := congrArg CallGraph.functions h.1
  foundCycle path start h := by
    refine ⟨?_, ?_⟩
    · unfold foundCycle
      rw [h.1]
    · rw [notes_foundCycle, notes_foundCycle, h.1, h.2]
  finished path n h := by
    refine ⟨?_, ?_⟩
    · rw [graph_finished, graph_finished, graph_findings_congr hreg h.1]
    · rw [notes_finished, notes_finished, h.2]

end Analysis

/-! ## 4. After the analysis -/

namespace CallGraph

/-- **The switches for warnings say only what is logged.** Under two policies that both regard the
    code that starts and ends a process, or both do not, an analysis of any graph gives the same
    verdict and leaves the same graph, and what it logs differs in warnings at most. -/
theorem analyse_ignores_switches {p q : Policy} (hreg : q.regardStartup = p.regardStartup)
    (g : CallGraph) :
    (g.analyse q).1 = (g.analyse p).1 ∧ (g.analyse q).2.1 = (g.analyse p).2.1 ∧
      (g.analyse q).2.2.filter (·.level != .warn) =
        (g.analyse p).2.2.filter (·.level != .warn) := by
  have hregards : ∀ f, q.regards f = p.regards f := fun f => by
    rw [Policy.regards, Policy.regards, hreg]
  obtain ⟨hgraph, hnotes⟩ := (Analysis.simulation_switches hregards).walkAll g g ⟨rfl, rfl⟩
  refine ⟨?_, ?_, hnotes⟩
  · unfold analyse
    simp only [hgraph]
  · unfold analyse
    simp only [hgraph]

/-- With and without warnings, each with its function or each kind once, the analysis of a graph
    with findings of all kinds is the same, although what it logs is not. -/
theorem analyse_ignores_switches_mixed :
    (mixed.analyse { warnDynamic := false, warnEach := false, countReturnAddress := true }).2.2 =
        [.pointerCallFound, .cyclePath ["loop", "again", "again"], .cycleFound] ∧
      (mixed.analyse {}).2.2 =
        [.pointerCallIn "dispatch", .cyclePath ["loop", "again", "again"],
          .cycle ["again", "again"], .dynamicIn "fill"] ∧
      (mixed.analyse { warnDynamic := false, warnEach := false, countReturnAddress := true }).1 =
        (mixed.analyse {}).1 ∧
      (mixed.analyse { warnDynamic := false, warnEach := false, countReturnAddress := true }).2.1 =
        (mixed.analyse {}).2.1 := by
  obtain ⟨hverdict, hgraph, _⟩ := analyse_ignores_switches (p := {})
    (q := { warnDynamic := false, warnEach := false, countReturnAddress := true }) rfl mixed
  exact ⟨by cbv, by cbv, hverdict, hgraph⟩

end CallGraph

end StackDepth

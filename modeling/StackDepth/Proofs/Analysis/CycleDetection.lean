import StackDepth.Proofs.Analysis.Closings
import StackDepth.Proofs.Analysis.CycleReport

/-!
# Two ways to find cycles

The walks find a cycle where a call leads back to the chain. The verdict lists the cycle groups,
which are read off the calls afterwards. They agree, although a walk does not go again through what
is visited and so meets few of the circles of a group.

* `IsCircle`, `mem_groupOf_of_circle`: the functions of a circle are of one group;
* `Visits.first_finished`: of some functions that become visited, one is finished first;
* `exists_closes_of_recursive`: of a group, that one has a callee in the group, which is not visited
  yet and so was met on the chain;
* `Visits.warnsOfCycle`: a cycle is warned of exactly if some turn closes one;
* `cycle_detectors_agree`: what is found on the walks, in the verdict and in the log.
-/

namespace StackDepth

open Relation (ReflTransGen TransGen)

/-! ## 1. Circles -/

namespace CallGraph

variable {g : CallGraph} {n m : Node}

/-- A chain of calls that ends where it starts and has no other node twice. -/
def IsCircle (g : CallGraph) (chain : List Node) : Prop :=
  ∃ n inner, chain = n :: (inner ++ [n]) ∧ chain.IsChain g.Calls ∧ (n :: inner).Nodup

/-- The nodes of a circle are of the cycle group of the one where it starts. -/
theorem mem_groupOf_of_circle (hg : g.WellFormed) {inner : List Node}
    (h : (n :: (inner ++ [n])).IsChain g.Calls) (hm : m ∈ n :: (inner ++ [n])) :
    m ∈ g.groupOf n := by
  have hn : g.Recursive n := recursive_of_closed h List.mem_cons_self
  have hto : g.Reaches n m := reaches_of_chain_cons h hm
  have h' : ((n :: inner) ++ [n]).IsChain g.Calls := h
  have hback : g.Reaches m n := reaches_of_chain h' hm
  exact hg.mem_groupOf.mpr ⟨TransGen.trans_left hn hto, TransGen.trans_right hback hn⟩

end CallGraph

/-! ## 2. Every group has a call that closes a cycle -/

namespace Analysis

open CallGraph (pointer)

variable {p : Policy} {g : CallGraph} {a b : Analysis} {l : List (Walk × Analysis)} {n : Node}

/-- Of some nodes, none of which is visited before, one is finished first if one becomes visited. -/
theorem Visits.first_finished (h : Visits p a l b) {P : Node → Prop}
    (ha : ∀ n, P n → a.graph.isVisited n = false) (hn : P n) (hb : b.graph.isVisited n = true) :
    ∃ s ∈ l, ∃ m, P m ∧ finishing? s = some m ∧ ∀ k, P k → s.2.graph.isVisited k = false := by
  induction h with
  | done a =>
    rw [ha n hn] at hb
    cases hb
  | visit w a _ ih =>
    by_cases hfirst : ∃ m, P m ∧ finishing? (w, a) = some m
    · obtain ⟨m, hm, hfin⟩ := hfirst
      exact ⟨(w, a), List.mem_cons_self, m, hm, hfin, ha⟩
    · have ha' : ∀ k, P k → (a.visit p w).graph.isVisited k = false := by
        intro k hk
        refine Bool.eq_false_iff.mpr fun hvis => ?_
        rcases isVisited_visit_iff.mp hvis with hold | hfin
        · rw [ha k hk] at hold
          cases hold
        · exact hfirst ⟨k, hk, hfin⟩
      obtain ⟨s, hs, rest⟩ := ih ha' hb
      exact ⟨s, List.mem_cons_of_mem _ hs, rest⟩

/-- **In every group some call is found to close a cycle**, where no function is visited before. -/
theorem exists_closes_of_recursive (hg : g.WellFormed) (hp : ∀ b, ¬ g.Calls pointer b)
    (hv : ∀ n ∈ g.functions, g.isVisited n = false) (hrec : g.Recursive n) :
    ∃ s ∈ allTurns p g, ∃ x, ∃ y ∈ g.groupOf n, s.1.Closes x y := by
  have hself : n ∈ g.groupOf n := hg.mem_groupOf.mpr ⟨hrec, hrec⟩
  have hfunctions : ∀ k ∈ g.groupOf n, k ∈ g.functions := by
    intro k hk
    obtain ⟨hnk, hkn⟩ := hg.mem_groupOf.mp hk
    exact CallGraph.Recursive.mem_functions hg hp (hkn.trans hnk)
  obtain ⟨s, hs, x, hx, hfin, hnone⟩ := (visits_allTurns p g).first_finished
    (P := (· ∈ g.groupOf n)) (fun k hk => hv k (hfunctions k hk)) hself
    ((walkAll_run p g).2 n (hfunctions n hself))
  obtain ⟨hnx, hxn⟩ := hg.mem_groupOf.mp hx
  -- the first function of the group to be finished calls one that is not finished
  obtain ⟨y, _, hxy, hyx⟩ := hg.call_of_circle hp (hfunctions x hx) hxn hnx.to_reflTransGen
  have hy : y ∈ g.groupOf n :=
    hg.mem_groupOf.mpr ⟨hnx.tail hxy, TransGen.trans_right hyx hxn⟩
  obtain ⟨s', hs', hclose⟩ := exists_closes_of_mem_allTurns hs hfin hxy (hnone y hy)
  exact ⟨s', hs', x, y, hy, hclose⟩

/-- Where a turn closes a cycle, the chain from its start on is a circle, and it is reported. -/
theorem circle_of_mem_allTurns {s : Walk × Analysis} (hs : s ∈ allTurns p g) {start : Nat}
    (hstart : s.1.cycleStart? = some start) :
    ∃ t outer inner, s.1 = ⟨t :: outer, false⟩ ∧
      s.1.path.drop start = t.node :: (inner ++ [t.node]) ∧
      (t.node :: (inner ++ [t.node])).IsChain g.Calls ∧ (t.node :: inner).Nodup := by
  obtain ⟨hcalls, roots, t, outer, e, hstand⟩ := standing_of_mem_allTurns hs
  rw [e] at hstart ⊢
  obtain ⟨inner, hdrop, hchain, hnodup⟩ := hstand.circle hstart
  rw [CallGraph.calls_congr hcalls] at hchain
  exact ⟨t, outer, inner, rfl, hdrop, hchain, hnodup⟩

/-- A tier that closes a cycle has a place where the cycle starts. -/
theorem exists_cycleStart?_iff {w : Walk} : (∃ start, w.cycleStart? = some start) ↔
    w.isClosing = true := by
  obtain ⟨tiers, r⟩ := w
  cases tiers with
  | nil => exact iff_of_false nofun nofun
  | cons t outer =>
    rw [isClosing_iff]
    by_cases hc : t.node ∈ outer.map (·.node)
    · exact iff_of_true ⟨_, cycleStart?_of_mem hc⟩ hc
    · refine iff_of_false (fun ⟨start, h⟩ => ?_) hc
      rw [cycleStart?_of_not_mem hc] at h
      cases h

theorem visit_of_cycleStart? {w : Walk} {start : Nat} (h : w.cycleStart? = some start) :
    a.visit p w = a.foundCycle p w.path start := by
  obtain ⟨tiers, r⟩ := w
  cases tiers with
  | nil => cases h
  | cons t outer =>
    unfold visit
    rw [h]
    rfl

end Analysis

/-! ## 3. Warnings -/

/-- The event warns of a cycle. -/
def Event.isCycleWarning : Event → Bool
  | cycle _ | cycleFound => true
  | _ => false

theorem Policy.mem_warning {p : Policy} {enabled warned : Bool} {each once e : Event}
    (h : e ∈ (p.warning enabled warned each once).2) : e = each ∨ e = once := by
  unfold warning at h
  split at h
  · cases h
  · split at h
    · exact .inl (List.mem_singleton.mp h)
    · split at h
      · cases h
      · exact .inr (List.mem_singleton.mp h)

namespace Analysis

variable {p : Policy} {g : CallGraph} {a b c : Analysis} {w : Walk} {path : List Node} {n : Node}

/-- Some cycle was warned of. -/
def WarnsOfCycle (a : Analysis) : Prop := ∃ e ∈ a.log, e.isCycleWarning = true

theorem warnsOfCycle_append {events : List Event} (h : b.log = a.log ++ events.toArray) :
    b.WarnsOfCycle ↔ a.WarnsOfCycle ∨ ∃ e ∈ events, e.isCycleWarning = true := by
  simp only [WarnsOfCycle, h, Array.mem_append, List.mem_toArray, or_and_right, exists_or]

/-- What is done has nothing to say on cycles. -/
structure Silent (a b : Analysis) : Prop where
  warned : b.warned.cycle = a.warned.cycle
  warns : b.WarnsOfCycle ↔ a.WarnsOfCycle

theorem Silent.refl (a : Analysis) : Silent a a := ⟨rfl, Iff.rfl⟩

theorem Silent.trans (h : Silent a b) (h' : Silent b c) : Silent a c :=
  ⟨h'.warned.trans h.warned, h'.warns.trans h.warns⟩

/-- A warning whose two forms are not about cycles. -/
theorem silent_of_warning {enabled warned : Bool} {each once : Event}
    (heach : each.isCycleWarning = false) (honce : once.isCycleWarning = false)
    (hwarned : b.warned.cycle = a.warned.cycle)
    (hlog : b.log = a.log ++ (p.warning enabled warned each once).2.toArray) : Silent a b := by
  refine ⟨hwarned, (warnsOfCycle_append hlog).trans (or_iff_left fun ⟨e, he, hcycle⟩ => ?_)⟩
  rcases Policy.mem_warning he with rfl | rfl
  · rw [heach] at hcycle
    cases hcycle
  · rw [honce] at hcycle
    cases hcycle

theorem silent_checkDynamic : Silent a (a.checkDynamic p path n) := by
  unfold checkDynamic
  split
  · exact silent_of_warning rfl rfl rfl rfl
  · exact .refl a

theorem silent_checkPointerCall : Silent a (a.checkPointerCall p path n) := by
  unfold checkPointerCall
  split
  · exact silent_of_warning rfl rfl rfl rfl
  · exact .refl a

theorem silent_findings : Silent a (a.findings p path n) := by
  unfold findings
  split
  · exact silent_checkDynamic.trans silent_checkPointerCall
  · exact .refl a

theorem silent_finished : Silent a (a.finished p path n) :=
  ⟨silent_findings.warned, silent_findings.warns⟩

/-- **A cycle that is found has been warned of afterwards**, by this warning or by one before. -/
theorem warnsOfCycle_foundCycle (hp : p.warnCycle = true)
    (ha : a.warned.cycle = true → a.WarnsOfCycle) (path : List Node) (start : Nat) :
    (a.foundCycle p path start).WarnsOfCycle := by
  have hlog : (a.foundCycle p path start).log = a.log ++ (Event.cyclePath (path.map a.graph.name) ::
      (p.warning p.warnCycle a.warned.cycle (.cycle ((path.map a.graph.name).drop start))
        .cycleFound).2).toArray := rfl
  rw [warnsOfCycle_append hlog]
  cases hw : a.warned.cycle with
  | true => exact .inl (ha hw)
  | false =>
    right
    cases he : p.warnEach with
    | true =>
      refine ⟨.cycle ((path.map a.graph.name).drop start), ?_, rfl⟩
      simp [Policy.warning, hp, he]
    | false =>
      refine ⟨.cycleFound, ?_, rfl⟩
      simp [Policy.warning, hp, he]

/-- A visit warns of a cycle if it closes one, and otherwise is silent. -/
theorem visit_warns (hp : p.warnCycle = true) (ha : a.warned.cycle = true → a.WarnsOfCycle) :
    ((a.visit p w).warned.cycle = true → (a.visit p w).WarnsOfCycle) ∧
      ((a.visit p w).WarnsOfCycle ↔ a.WarnsOfCycle ∨ w.isClosing = true) := by
  have hsilent : w.isClosing = false → Silent a (a.visit p w) →
      ((a.visit p w).warned.cycle = true → (a.visit p w).WarnsOfCycle) ∧
        ((a.visit p w).WarnsOfCycle ↔ a.WarnsOfCycle ∨ w.isClosing = true) := by
    intro hopen h
    rw [h.warned, h.warns, hopen]
    exact ⟨ha, (or_iff_left Bool.false_ne_true).symm⟩
  cases hc : w.isClosing with
  | true =>
    obtain ⟨start, hstart⟩ := exists_cycleStart?_iff.mpr hc
    have hwarns := warnsOfCycle_foundCycle hp ha w.path start
    rw [visit_of_cycleStart? hstart]
    exact ⟨fun _ => hwarns, iff_of_true hwarns (.inr rfl)⟩
  | false =>
    rw [hc] at hsilent
    refine hsilent rfl ?_
    obtain ⟨tiers, r⟩ := w
    cases tiers with
    | nil => exact .refl a
    | cons t outer =>
      have hmem : t.node ∉ outer.map (·.node) := by
        rw [← isClosing_iff r, hc]
        exact Bool.false_ne_true
      cases hv : a.graph.isVisited t.node with
      | true =>
        rw [visit_of_visited hmem hv]
        exact .refl a
      | false =>
        rw [visit_of_not_visited hmem hv]
        exact silent_finished

/-- **A cycle is warned of exactly if some turn closes one**, where cycles are warned of. -/
theorem Visits.warnsOfCycle {l : List (Walk × Analysis)} (h : Visits p a l b)
    (hp : p.warnCycle = true) (ha : a.warned.cycle = true → a.WarnsOfCycle) :
    b.WarnsOfCycle ↔ a.WarnsOfCycle ∨ ∃ s ∈ l, s.1.isClosing = true := by
  induction h with
  | done a => simp
  | visit w a _ ih =>
    obtain ⟨hwarned, hwarns⟩ := visit_warns (w := w) hp ha
    rw [ih hwarned, hwarns]
    simp [or_assoc]

end Analysis

/-! ## 4. After the analysis -/

namespace CallGraph

open Analysis

variable {g : CallGraph}

/-- **The two ways to find cycles agree.** Where a turn of a walk closes a cycle, the cycle that is
    reported is a circle of calls whose functions are all in one group of the verdict, and every
    group holds such a circle. So where cycles are warned of, there is a warning exactly if the
    verdict lists a group. -/
theorem cycle_detectors_agree (p : Policy) (hg : g.WellFormed) (hp : ∀ b, ¬ g.Calls pointer b)
    (hv : ∀ n ∈ g.functions, g.isVisited n = false) :
    Visits p { graph := g } (allTurns p g) (walkAll p g) ∧
      (∀ s ∈ allTurns p g, ∀ start, s.1.cycleStart? = some start →
        s.2.visit p s.1 = s.2.foundCycle p s.1.path start ∧
        g.IsCircle (s.1.path.drop start) ∧
        ∃ ns ∈ (g.analyse p).1.cycles, ∀ n ∈ s.1.path.drop start, n ∈ ns) ∧
      (∀ ns ∈ (g.analyse p).1.cycles, ∃ s ∈ allTurns p g, ∃ start,
        s.1.cycleStart? = some start ∧ ∀ n ∈ s.1.path.drop start, n ∈ ns) ∧
      (p.warnCycle = true →
        ((∃ e ∈ (g.analyse p).2.2, e.isCycleWarning = true) ↔ (g.analyse p).1.cycles ≠ [])) := by
  have hsound : ∀ s ∈ allTurns p g, ∀ start, s.1.cycleStart? = some start →
      s.2.visit p s.1 = s.2.foundCycle p s.1.path start ∧
      g.IsCircle (s.1.path.drop start) ∧ ∃ ns ∈ g.cycles, ∀ n ∈ s.1.path.drop start, n ∈ ns := by
    intro s hs start hstart
    obtain ⟨t, outer, inner, e, hdrop, hchain, hnodup⟩ := circle_of_mem_allTurns hs hstart
    have hrec : g.Recursive t.node := recursive_of_closed hchain List.mem_cons_self
    rw [hdrop]
    refine ⟨visit_of_cycleStart? hstart, ⟨t.node, inner, rfl, hchain, hnodup⟩, g.groupOf t.node,
      hg.mem_cycles_iff_groupOf.mpr ⟨t.node, hrec, rfl⟩, fun n hn => ?_⟩
    exact mem_groupOf_of_circle hg hchain hn
  have hcomplete : ∀ ns ∈ g.cycles, ∃ s ∈ allTurns p g, ∃ start,
      s.1.cycleStart? = some start ∧ ∀ n ∈ s.1.path.drop start, n ∈ ns := by
    intro ns hns
    obtain ⟨n, hrec, rfl⟩ := hg.mem_cycles_iff_groupOf.mp hns
    obtain ⟨s, hs, x, y, hy, hclose⟩ := exists_closes_of_recursive (p := p) hg hp hv hrec
    obtain ⟨t, u, outer, htiers, _, rfl, hclosing⟩ := hclose
    obtain ⟨start, hstart⟩ := exists_cycleStart?_iff.mpr hclosing
    obtain ⟨t', outer', inner, e, hdrop, hchain, _⟩ := circle_of_mem_allTurns hs hstart
    rw [e] at htiers
    cases htiers
    refine ⟨s, hs, start, hstart, fun k hk => ?_⟩
    rw [hdrop] at hk
    rw [← hg.groupOf_eq hy]
    exact mem_groupOf_of_circle hg hchain hk
  rw [cycles_analyse]
  refine ⟨visits_allTurns p g, hsound, hcomplete, fun hwarn => ?_⟩
  have hlog : (∃ e ∈ (g.analyse p).2.2, e.isCycleWarning = true) ↔ (walkAll p g).WarnsOfCycle := by
    show (∃ e ∈ (walkAll p g).log.toList, e.isCycleWarning = true) ↔ _
    simp only [Array.mem_toList_iff, WarnsOfCycle]
  have hnone : ¬ WarnsOfCycle { graph := g } := by simp [WarnsOfCycle]
  rw [hlog, (visits_allTurns p g).warnsOfCycle hwarn nofun, or_iff_right hnone]
  constructor
  · rintro ⟨s, hs, hclosing⟩ hnil
    obtain ⟨start, hstart⟩ := exists_cycleStart?_iff.mpr hclosing
    obtain ⟨_, _, ns, hns, _⟩ := hsound s hs start hstart
    rw [hnil] at hns
    cases hns
  · intro hne
    obtain ⟨ns, hns⟩ := List.exists_mem_of_ne_nil _ hne
    obtain ⟨s, hs, start, hstart, _⟩ := hcomplete ns hns
    exact ⟨s, hs, exists_cycleStart?_iff.mp ⟨start, hstart⟩⟩

/-- `main` calls `left`. That is in a circle with `right` and in another one with `right` and `far`.
    `again` calls itself and `far`, and nothing else calls it. -/
def twoGroups : CallGraph where
  slots := #[some (Function.named 0 "Function Pointer"),
    some { address := 0x10, name := "main" },
    some { address := 0x20, name := "left" },
    some { address := 0x30, name := "right" },
    some { address := 0x40, name := "far" },
    some { address := 0x50, name := "again" }]
  calls := [⟨6, 5, 4⟩, ⟨5, 5, 5⟩, ⟨4, 4, 2⟩, ⟨3, 3, 4⟩, ⟨2, 3, 2⟩, ⟨1, 2, 3⟩, ⟨0, 1, 2⟩]

/-- No entrance leads to `again`, so that only a later walk closes its circle. -/
theorem cycle_detectors_agree_twoGroups :
    (twoGroups.analyse {}).1.cycles = [[2, 3, 4], [5]] ∧
      (∀ s ∈ allTurns {} twoGroups, ∀ start, s.1.cycleStart? = some start →
        twoGroups.IsCircle (s.1.path.drop start) ∧
        ∃ ns ∈ [[2, 3, 4], [5]], ∀ n ∈ s.1.path.drop start, n ∈ ns) ∧
      (∀ ns ∈ [[2, 3, 4], [5]], ∃ s ∈ allTurns {} twoGroups, ∃ start,
        s.1.cycleStart? = some start ∧ ∀ n ∈ s.1.path.drop start, n ∈ ns) ∧
      ∃ e ∈ (twoGroups.analyse {}).2.2, e.isCycleWarning = true := by
  have hcycles : (twoGroups.analyse {}).1.cycles = [[2, 3, 4], [5]] := by cbv
  have hnew : ∀ n ∈ twoGroups.functionNodes, twoGroups.isVisited n = false := by decide
  obtain ⟨_, hsound, hcomplete, hwarns⟩ := cycle_detectors_agree (g := twoGroups) {} (by decide)
    (by simp [Calls, twoGroups, pointer])
    (fun n hn => hnew n (mem_functionNodes.mpr (mem_functions.mp hn)))
  rw [hcycles] at hsound hcomplete hwarns
  exact ⟨hcycles, fun s hs start hstart => (hsound s hs start hstart).2, hcomplete,
    (hwarns rfl).mpr (List.cons_ne_nil _ _)⟩

end CallGraph

end StackDepth

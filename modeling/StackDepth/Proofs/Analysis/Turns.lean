import Mathlib.Logic.Function.Iterate
import StackDepth.Proofs.Analysis.Totals

/-!
# The turns of an analysis

A walk goes on in turns: down, a visit, up. Its turns are finitely many, and the visits of all turns
of an analysis, one after the other, are the analysis. A visit finishes at most one node, which was
not visited before and is from then on; hence no node is finished twice.

* `turn`, `turns`, `allTurns`: one turn, the turns of a walk, those of a whole analysis;
* `iterate_turn`, `length_turns_le`: a walk ends, after no more turns than there are calls and
  roots;
* `Visits`: visits that lead from one analysis to another, as those of `turns` and `allTurns` do;
* `finishing?`: the node that a visit finishes; `isVisited_visit_iff` and `total_visit` say that
  nothing else is visited by it or gets a total;
* `Visits.count_finishing`: a node is finished as often as it becomes visited;
* `analyse_finishes_once`: termination and coverage of the analysis.
-/

namespace StackDepth

namespace Analysis

variable {p : Policy} {g : CallGraph} {a b c : Analysis} {w : Walk} {n m : Node}

/-! ## 1. Turns -/

/-- One turn of a walk: it goes down, visits where it stands then, and goes up. -/
def turn (p : Policy) (s : Walk × Analysis) : Walk × Analysis :=
  ((s.1.down s.2.graph).up (s.2.visit p (s.1.down s.2.graph)).graph,
    s.2.visit p (s.1.down s.2.graph))

/-- Every turn takes something off the work that is left. -/
theorem work_turn_lt (h : (w.down a.graph).tiers ≠ []) :
    (turn p (w, a)).1.work (turn p (w, a)).2.graph < w.work a.graph :=
  Nat.lt_of_lt_of_le (Walk.work_up_lt _ _ (Walk.returned_down _ _) h) (work_visit_down_le p w a)

/-- The visits of a walk: where it stands at each turn, and the analysis so far. -/
def turns (p : Policy) (w : Walk) (a : Analysis) : List (Walk × Analysis) :=
  if _ : (w.down a.graph).tiers = [] then []
  else (w.down a.graph, a) :: turns p (turn p (w, a)).1 (turn p (w, a)).2
termination_by w.work a.graph
decreasing_by
  rename_i h
  exact work_turn_lt h

/-- The visits of the walks from functions that are left over. -/
def laterTurns (p : Policy) : List Node → Analysis → List (Walk × Analysis)
  | [], _ => []
  | n :: ns, a =>
    if a.graph.isVisited n then laterTurns p ns a
    else turns p (Walk.start [n]) a ++ laterTurns p ns (walk p (Walk.start [n]) a)

/-- The visits of all walks of an analysis. -/
def allTurns (p : Policy) (g : CallGraph) : List (Walk × Analysis) :=
  let a := walk p (Walk.start g.entrances) { graph := g }
  turns p (Walk.start g.entrances) { graph := g } ++ laterTurns p a.graph.functions a

/-- **A walk ends**: after its turns the chain is empty, and the analysis is the walk's. -/
theorem iterate_turn (p : Policy) (w : Walk) (a : Analysis) :
    ((turn p)^[(turns p w a).length] (w, a)).1.path = [] ∧
      ((turn p)^[(turns p w a).length] (w, a)).2 = walk p w a := by
  fun_induction turns p w a with
  | case1 w a he =>
    have hnil : w.tiers = [] := Walk.eq_nil_of_down he
    refine ⟨?_, ?_⟩
    · show Walk.path w = []
      rw [Walk.path, hnil]
      rfl
    · show a = walk p w a
      rw [walk, dif_pos he]
  | case2 w a hne ih =>
    have hwalk : walk p w a = walk p (turn p (w, a)).1 (turn p (w, a)).2 := by
      rw [walk.eq_1 p w a, dif_neg hne]
      rfl
    rw [List.length_cons, Function.iterate_succ_apply, hwalk]
    exact ih

theorem length_turns_le_work (p : Policy) (w : Walk) (a : Analysis) :
    (turns p w a).length ≤ w.work a.graph := by
  fun_induction turns p w a with
  | case1 w a he => exact Nat.zero_le _
  | case2 w a hne ih =>
    have hlt := work_turn_lt (p := p) hne
    rw [List.length_cons]
    omega

/-- A walk has no more turns than there are calls and roots. -/
theorem length_turns_le (p : Policy) (roots : List Node) (a : Analysis) :
    (turns p (Walk.start roots) a).length ≤ a.graph.calls.length + roots.length := by
  have hwork := length_turns_le_work p (Walk.start roots) a
  have hopen : ∀ tiers, Walk.openCalls a.graph tiers ≤ a.graph.calls.length :=
    fun tiers => List.countP_le_length
  have hload : Walk.load (Walk.start roots).tiers = roots.length := by
    cases roots with
    | nil => rfl
    | cons r rest => rfl
  have := hopen (Walk.start roots).taken
  rw [Walk.work, hload] at hwork
  omega

/-! ## 2. Visits -/

/-- Visits that lead from one analysis to another, each with the analysis it is made on. -/
inductive Visits (p : Policy) : Analysis → List (Walk × Analysis) → Analysis → Prop where
  | done (a : Analysis) : Visits p a [] a
  | visit (w : Walk) (a : Analysis) {rest : List (Walk × Analysis)} {b : Analysis}
      (h : Visits p (a.visit p w) rest b) : Visits p a ((w, a) :: rest) b

variable {l l' : List (Walk × Analysis)}

theorem Visits.append (h : Visits p a l b) (h' : Visits p b l' c) : Visits p a (l ++ l') c := by
  induction h with
  | done a => exact h'
  | visit w a _ ih => exact .visit w a (ih h')

theorem visits_turns (p : Policy) (w : Walk) (a : Analysis) :
    Visits p a (turns p w a) (walk p w a) := by
  fun_induction turns p w a with
  | case1 w a he =>
    rw [walk, dif_pos he]
    exact .done a
  | case2 w a hne ih =>
    rw [walk.eq_1 p w a, dif_neg hne]
    exact .visit _ a ih

theorem visits_laterTurns (p : Policy) (ns : List Node) (a : Analysis) :
    Visits p a (laterTurns p ns a)
      (ns.foldl (fun a n => if a.graph.isVisited n then a else walk p (Walk.start [n]) a) a) := by
  induction ns generalizing a with
  | nil => exact .done a
  | cons n ns ih =>
    rw [laterTurns, List.foldl_cons]
    split
    · exact ih a
    · exact (visits_turns p _ a).append (ih _)

/-- **The visits of all turns are the analysis.** -/
theorem visits_allTurns (p : Policy) (g : CallGraph) :
    Visits p { graph := g } (allTurns p g) (walkAll p g) := by
  rw [walkAll_eq]
  exact (visits_turns p _ _).append (visits_laterTurns p _ _)

/-! ## 3. What a visit finishes -/

/-- The node that a visit finishes: the one where the walk stands, unless the walk closes a cycle
    there or has visited it before. -/
def finishing? (s : Walk × Analysis) : Option Node :=
  if s.1.isClosing then none else s.1.tail?.filter fun n => !s.2.graph.isVisited n

theorem finishing?_nil (r : Bool) : finishing? (⟨[], r⟩, a) = none := rfl

theorem finishing?_cons {t : Tier} {outer : List Tier} {r : Bool} :
    finishing? (⟨t :: outer, r⟩, a) = some n ↔
      t.node ∉ outer.map (·.node) ∧ a.graph.isVisited t.node = false ∧ t.node = n := by
  unfold finishing?
  by_cases hc : t.node ∈ outer.map (·.node)
  · rw [if_pos ((isClosing_iff r).mpr hc)]
    exact iff_of_false nofun fun h => h.1 hc
  · rw [if_neg fun h => hc ((isClosing_iff r).mp h), and_iff_right hc]
    show (some t.node).filter (fun m => !a.graph.isVisited m) = some n ↔ _
    rw [Option.filter_eq_some_iff, Option.some.injEq, Bool.not_eq_true']
    constructor
    · rintro ⟨rfl, hv⟩
      exact ⟨hv, rfl⟩
    · rintro ⟨hv, rfl⟩
      exact ⟨rfl, hv⟩

/-- What is finished was not visited before. -/
theorem isVisited_of_finishing (h : finishing? (w, a) = some n) : a.graph.isVisited n = false := by
  obtain ⟨tiers, r⟩ := w
  cases tiers with
  | nil => cases h
  | cons t outer =>
    obtain ⟨_, hv, rfl⟩ := finishing?_cons.mp h
    exact hv

/-- The two kinds of visit: one finishes a node, the other changes neither totals nor what is
    visited. -/
theorem visit_cases (p : Policy) (w : Walk) (a : Analysis) :
    (∃ n, finishing? (w, a) = some n ∧ a.visit p w = a.finished p w.path n) ∨
      (finishing? (w, a) = none ∧
        ∀ m, (a.visit p w).graph.isVisited m = a.graph.isVisited m ∧
          (a.visit p w).graph.total m = a.graph.total m) := by
  obtain ⟨tiers, r⟩ := w
  cases tiers with
  | nil => exact .inr ⟨finishing?_nil r, fun m => ⟨rfl, rfl⟩⟩
  | cons t outer =>
    have hnone : (∀ n, ¬ finishing? (⟨t :: outer, r⟩, a) = some n) →
        finishing? (⟨t :: outer, r⟩, a) = none := Option.eq_none_iff_forall_ne_some.mpr
    by_cases hc : t.node ∈ outer.map (·.node)
    · refine .inr ⟨hnone fun n h => (finishing?_cons.mp h).1 hc, fun m => ?_⟩
      rw [visit_of_mem hc]
      simp [foundCycle]
    · cases hv : a.graph.isVisited t.node with
      | true =>
        refine .inr ⟨hnone fun n h => ?_, fun m => ?_⟩
        · have hnot := (finishing?_cons.mp h).2.1
          rw [hv] at hnot
          cases hnot
        · rw [visit_of_visited hc hv]
          exact ⟨rfl, rfl⟩
      | false =>
        refine .inl ⟨t.node, finishing?_cons.mpr ⟨hc, hv, rfl⟩, ?_⟩
        rw [visit_of_not_visited hc hv, Walk.path_cons]

/-- **A visit makes visited what it finishes, and nothing else.** -/
theorem isVisited_visit_iff : (a.visit p w).graph.isVisited m = true ↔
    a.graph.isVisited m = true ∨ finishing? (w, a) = some m := by
  rcases visit_cases p w a with ⟨n, hn, hvisit⟩ | ⟨hnone, hsame⟩
  · rw [hvisit, isVisited_finished, hn, Option.some.injEq]
    exact or_congr_right eq_comm
  · rw [(hsame m).1, hnone]
    exact (or_iff_left nofun).symm

/-- **A visit gives a total to the function it finishes, and to no other.** -/
theorem total_visit (hm : m ≠ CallGraph.pointer) : (a.visit p w).graph.total m =
    if finishing? (w, a) = some m then a.graph.ownSize m + a.graph.deepestCallee m
    else a.graph.total m := by
  rcases visit_cases p w a with ⟨n, hn, hvisit⟩ | ⟨hnone, hsame⟩
  · rw [hvisit, hn]
    by_cases e : n = m
    · subst e
      have hlive := CallGraph.isLive_of_not_visited (isVisited_of_finishing hn)
      rw [if_pos rfl, total_finished (.refl a.graph) (CallGraph.mem_functions.mpr ⟨hm, hlive⟩)]
      rfl
    · rw [if_neg fun h => e (Option.some.inj h), graph_finished,
        CallGraph.total_finish_of_ne (Ne.symm e), total_findings]
  · rw [(hsame m).2, hnone, if_neg nofun]

/-! ## 4. Finished once -/

/-- The nodes that visits finish, in order. -/
def finishOrder (l : List (Walk × Analysis)) : List Node := l.filterMap finishing?

/-- One more visit: it finishes the node if that becomes visited by it. -/
theorem toNat_isVisited_visit (n : Node) : ((a.visit p w).graph.isVisited n).toNat =
    (a.graph.isVisited n).toNat + if finishing? (w, a) = some n then 1 else 0 := by
  have hiff := isVisited_visit_iff (p := p) (w := w) (a := a) (m := n)
  by_cases hn : finishing? (w, a) = some n
  · have hafter : (a.visit p w).graph.isVisited n = true := hiff.mpr (.inr hn)
    rw [if_pos hn, hafter, isVisited_of_finishing hn]
    rfl
  · have hsame : (a.visit p w).graph.isVisited n = a.graph.isVisited n := by
      rw [Bool.eq_iff_iff, hiff, or_iff_left hn]
    rw [if_neg hn, hsame, Nat.add_zero]

theorem count_finishOrder_cons (s : Walk × Analysis) (n : Node) :
    (finishOrder (s :: l)).count n =
      (finishOrder l).count n + if finishing? s = some n then 1 else 0 := by
  unfold finishOrder
  cases hs : finishing? s with
  | none => rw [List.filterMap_cons_none hs, if_neg nofun, Nat.add_zero]
  | some m =>
    rw [List.filterMap_cons_some hs, List.count_cons]
    simp only [beq_iff_eq, Option.some.injEq]

/-- **A node is finished as often as it becomes visited**, which is once or not at all. -/
theorem Visits.count_finishing (h : Visits p a l b) (n : Node) :
    (finishOrder l).count n + (a.graph.isVisited n).toNat = (b.graph.isVisited n).toNat := by
  induction h with
  | done a => exact Nat.zero_add _
  | visit w a _ ih =>
    rw [toNat_isVisited_visit] at ih
    rw [count_finishOrder_cons]
    omega

/-- The total of what is visited stays. -/
theorem Visits.total (h : Visits p a l b) (hm : m ≠ CallGraph.pointer)
    (hv : a.graph.isVisited m = true) : b.graph.total m = a.graph.total m := by
  induction h with
  | done a => rfl
  | visit w a _ ih =>
    have hnot : finishing? (w, a) ≠ some m := by
      intro e
      rw [isVisited_of_finishing e] at hv
      cases hv
    rw [ih (isVisited_visit_iff.mpr (.inl hv)), total_visit hm, if_neg hnot]

end Analysis

/-! ## 5. After the analysis -/

namespace CallGraph

open Analysis

theorem isVisited_analyse (p : Policy) (g : CallGraph) (n : Node) :
    (g.analyse p).2.1.isVisited n = (walkAll p g).graph.isVisited n := by
  show ((walkAll p g).graph.markCycle _).spreadImprecision.isVisited n = _
  rw [isVisited_spreadImprecision, isVisited_markCycle_eq]

/-- **Termination and coverage.** Whatever totals and marks a graph has and whatever its calls are:
    every walk has an empty chain after finitely many turns, and the visits of all turns are the
    analysis. After it every function is visited. One that was not visited before is finished
    exactly once, which is when it gets its total; one that was visited keeps the total it had. -/
theorem analyse_finishes_once (p : Policy) (g : CallGraph) :
    (∀ roots a, (turns p (Walk.start roots) a).length ≤ a.graph.calls.length + roots.length ∧
        ((turn p)^[(turns p (Walk.start roots) a).length] (Walk.start roots, a)).1.path = [] ∧
        ((turn p)^[(turns p (Walk.start roots) a).length] (Walk.start roots, a)).2 =
          walk p (Walk.start roots) a) ∧
      Visits p { graph := g } (allTurns p g) (walkAll p g) ∧
      ∀ n ∈ g.functions,
        (g.analyse p).2.1.isVisited n = true ∧
        (finishOrder (allTurns p g)).count n = (if g.isVisited n then 0 else 1) ∧
        (∀ s ∈ allTurns p g, (s.2.visit p s.1).graph.total n =
          if finishing? s = some n then s.2.graph.ownSize n + s.2.graph.deepestCallee n
          else s.2.graph.total n) ∧
        (g.isVisited n = true → (g.analyse p).2.1.total n = g.total n) := by
  refine ⟨fun roots a => ⟨length_turns_le p roots a, iterate_turn p _ a⟩, visits_allTurns p g,
    fun n hn => ?_⟩
  have hp : n ≠ pointer := (mem_functions.mp hn).1
  have hvis : (walkAll p g).graph.isVisited n = true := (walkAll_run p g).2 n hn
  refine ⟨(isVisited_analyse p g n).trans hvis, ?_, fun s _ => total_visit hp, fun hv => ?_⟩
  · have hcount := (visits_allTurns p g).count_finishing n
    rw [hvis] at hcount
    cases hv : g.isVisited n with
    | true =>
      simp only [hv, Bool.toNat_true] at hcount
      simpa using hcount
    | false =>
      simp only [hv, Bool.toNat_true, Bool.toNat_false] at hcount
      simpa using hcount
  · rw [total_analyse]
    exact (visits_allTurns p g).total hp hv

/-- `main` calls `left`, which is in a circle with `right` and in another one with `right` and
    `far`. `again` calls itself and is called from nowhere else. `old` is visited before, with a
    total that its size does not give, and calls `left`. -/
def tangle : CallGraph where
  slots := #[some (Function.named 0 "Function Pointer"),
    some { address := 0x10, name := "main", size := 8, imprecise := true },
    some { address := 0x20, name := "left", size := 4, cycle := true },
    some { address := 0x30, name := "right", size := 2, total := 70 },
    some { address := 0x40, name := "far", size := 1 },
    some { address := 0x50, name := "again", size := 16 },
    some { address := 0x60, name := "old", size := 32, total := 900, visited := true }]
  calls := [⟨6, 6, 2⟩, ⟨5, 5, 5⟩, ⟨4, 4, 2⟩, ⟨3, 3, 4⟩, ⟨2, 3, 2⟩, ⟨1, 2, 3⟩, ⟨0, 1, 2⟩]

/-- All but `old` are finished once, although three chains of calls lead a walk to `left`, and `old`
    keeps its total. -/
theorem analyse_finishes_once_tangle :
    (∀ n ∈ [1, 2, 3, 4, 5], (tangle.analyse {}).2.1.isVisited n = true ∧
        (finishOrder (allTurns {} tangle)).count n = 1) ∧
      (finishOrder (allTurns {} tangle)).count 6 = 0 ∧ (tangle.analyse {}).2.1.total 6 = 900 := by
  have hmem : ∀ n ∈ [1, 2, 3, 4, 5, 6], n ∈ tangle.functions := by
    have hlive : ∀ n ∈ [1, 2, 3, 4, 5, 6], n ≠ pointer ∧ tangle.isLive n = true := by decide
    exact fun n hn => mem_functions.mpr (hlive n hn)
  have hnew : ∀ n ∈ [1, 2, 3, 4, 5], tangle.isVisited n = false := by decide
  have hold : tangle.isVisited 6 = true := by decide
  have honce := (analyse_finishes_once {} tangle).2.2
  refine ⟨fun n hn => ?_, ?_, ?_⟩
  · obtain ⟨hvis, hcount, _⟩ := honce n (hmem n (List.mem_append_left [6] hn))
    rw [hnew n hn] at hcount
    exact ⟨hvis, hcount⟩
  · obtain ⟨_, hcount, _⟩ := honce 6 (hmem 6 (by decide))
    rw [hold] at hcount
    exact hcount
  · exact (honce 6 (hmem 6 (by decide))).2.2.2 hold

end CallGraph

end StackDepth

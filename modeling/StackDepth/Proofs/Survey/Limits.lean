import StackDepth.Proofs.Survey.Soundness

/-!
# Exact limits

The limit of a survey is the largest of all totals, and it is exact if no entrance is imprecise. So
an exact limit says nothing of a function that no entrance leads to: such a function may be
imprecise and have the largest total.

* `isImprecise_of_reaches`: what leads to an imprecise function is imprecise, so an entrance that is
  not leads to none that is;
* `bound_eq_exact_iff`: when the limit is exact, and what it is;
* `exact_limit_reached`: an exact limit covers every function that an entrance leads to, and the
  bounds of all these are exact.
-/

namespace StackDepth

namespace CallGraph

variable {p : Policy} {g : CallGraph} {e n m : Node}

/-- **What leads to an imprecise function is imprecise.** -/
theorem isImprecise_of_reaches (p : Policy) (hg : g.WellFormed) (hp : ∀ b, ¬ g.Calls pointer b)
    (hn : n ∈ g.functions) (hm : m ∈ g.functions) (h : g.Reaches n m)
    (him : (g.analyse p).2.1.isImprecise m = true) : (g.analyse p).2.1.isImprecise n = true := by
  have e := agrees_walked p g
  have hspread : ∀ k ∈ g.functions, (g.analyse p).2.1.isImprecise k = true ↔
      ∃ r ∈ g.functions, (g.walked p).isImprecise r = true ∧ g.Reaches k r := by
    intro k hk
    rw [analyse_graph, (e.wellFormed hg).isImprecise_spreadImprecision (e.calls_eq ▸ hp)
      (e.functions ▸ hk), e.functions, e.reaches]
  obtain ⟨r, hr, him, hmr⟩ := (hspread m hm).mp him
  exact (hspread n hn).mpr ⟨r, hr, him, h.trans hmr⟩

/-- Where the verdict is precise, no entrance leads to an imprecise function. -/
theorem isImprecise_of_precise (hg : g.WellFormed) (hp : ∀ b, ¬ g.Calls pointer b)
    (hprecise : (g.analyse p).1.precise = true) (he : e ∈ g.functions) (hentry : g.callers e = [])
    (hn : n ∈ g.functions) (hreach : g.Reaches e n) : (g.analyse p).2.1.isImprecise n = false := by
  refine Bool.eq_false_iff.mpr fun him => ?_
  exact (precise_analyse p g).mp hprecise e he hentry
    (isImprecise_of_reaches p hg hp he hn hreach him)

end CallGraph

theorem Bound.of_eq_exact {bytes n : Nat} {imprecise : Bool} :
    Bound.of bytes imprecise = .exact n ↔ imprecise = false ∧ bytes = n := by
  cases imprecise <;> simp [Bound.of]

namespace Survey

open StackDepth.Listing
open CallGraph (pointer)

variable {t : Target} {p : Policy} {rows : List (Option String)} {s : Survey} {bytes : Nat}

theorem graph_measure (s : Survey) : s.measure.2.1.graph = (s.graph.analyse s.policy).2.1 := rfl

/-- The limit of a measured survey is exact if the verdict is precise. -/
theorem bound_eq_exact_iff : s.measure.2.1.bound = .exact bytes ↔
    s.measure.1.precise = true ∧ s.measure.1.limit = bytes := by
  have hbound : s.measure.2.1.bound =
      Bound.of (s.graph.analyse s.policy).2.1.limit (!(s.graph.analyse s.policy).1.precise) := rfl
  rw [hbound, Bound.of_eq_exact, Bool.not_eq_false', ← CallGraph.limit_analyse]
  rfl

/-- **An exact limit covers what the entrances lead to.** A listing is read without a fault and
    measured, and the limit is exact. Then every function that some function without callers leads
    to has an exact bound, and that is at most the limit. -/
theorem exact_limit_reached (hread : (read { target := t, policy := p } rows).result = .ok ())
    (hbound : (read { target := t, policy := p } rows).survey.measure.2.1.bound = .exact bytes)
    {e n : Node} {f : Function}
    (he : e ∈ (read { target := t, policy := p } rows).survey.measure.2.1.graph.functions)
    (hentry : (read { target := t, policy := p } rows).survey.measure.2.1.graph.callers e = [])
    (hreach : (read { target := t, policy := p } rows).survey.measure.2.1.graph.Reaches e n)
    (hn : n ≠ pointer)
    (hf : (read { target := t, policy := p } rows).survey.measure.2.1.graph.function? n = some f) :
    f.bound = .exact f.total ∧ f.total ≤ bytes := by
  obtain ⟨_, hP⟩ := presents_read hread
  generalize (read { target := t, policy := p } rows).survey = s at hP hbound he hentry hreach hf
  obtain ⟨hprecise, hlimit⟩ := bound_eq_exact_iff.mp hbound
  have hagree := CallGraph.agrees_analyse s.policy s.graph
  rw [graph_measure] at he hentry hreach hf
  have hmem : n ∈ s.graph.functions := by
    rw [← hagree.functions]
    exact CallGraph.mem_functions.mpr ⟨hn, CallGraph.isLive_iff.mpr ⟨f, hf⟩⟩
  rw [hagree.functions] at he
  rw [hagree.callers] at hentry
  rw [hagree.reaches] at hreach
  have him := CallGraph.isImprecise_of_precise hP.wellFormed
    (fun _ => hP.not_calls_from_pointer) hprecise he hentry hmem hreach
  have hle := CallGraph.total_le_limit s.policy hmem
  rw [CallGraph.isImprecise, hf] at him
  rw [CallGraph.total, hf] at hle
  exact ⟨Bound.of_eq_exact.mpr ⟨him, rfl⟩, hlimit ▸ hle⟩

/-- What a survey is after reading and measuring. -/
theorem uncounted_measure_read (h : (s.read rows).result = .ok ()) :
    (s.read rows).survey.measure.2.1.uncounted =
      (s.uncounted.applyAll (linesOf s.target rows)).prune.1.measure.2.1 := by
  have hrows : (s.readRows #[] rows).result = .ok () := (result_read s rows).symm.trans h
  rw [survey_read h, ← uncounted_readRows hrows, ← uncounted_prune]
  rfl

theorem graph_uncounted (s : Survey) : s.uncounted.graph = s.graph := rfl

theorem bound_uncounted (s : Survey) : s.uncounted.bound = s.bound := rfl

/-- `leaf` has an exact bound of 32 bytes, and the limit is 40. -/
theorem exact_limit_reached_twoFunctions :
    (read { target := .x86_64, policy := {} } twoFunctions).survey.measure.2.1.bound = .exact 40 ∧
      ∃ f, (read { target := .x86_64, policy := {} }
        twoFunctions).survey.measure.2.1.graph.function? 2 = some f ∧
        f.total = 32 ∧ f.bound = .exact f.total ∧ f.total ≤ 40 := by
  have hread := result_twoFunctions {}
  have hmeasured := uncounted_measure_read hread
  rw [applyAll_twoFunctions] at hmeasured
  have hbound : (read { target := .x86_64, policy := {} } twoFunctions).survey.measure.2.1.bound =
      .exact 40 := by
    rw [← bound_uncounted, hmeasured]
    cbv
  have hgraph := congrArg graph hmeasured
  rw [graph_uncounted] at hgraph
  obtain ⟨f, hf, htotal⟩ : ∃ f,
      (read { target := .x86_64, policy := {} } twoFunctions).survey.measure.2.1.graph.function? 2 =
        some f ∧ f.total = 32 := by
    rw [hgraph]
    exact ⟨_, by cbv, rfl⟩
  refine ⟨hbound, f, hf, htotal, exact_limit_reached hread hbound (e := 1) ?_ ?_ ?_ ?_ hf⟩
  · rw [hgraph, CallGraph.mem_functions]
    cbv
  · rw [hgraph]
    cbv
  · rw [hgraph]
    exact .single (CallGraph.hasCall_iff.mp (by cbv))
  · decide

/-- A program that is one function, which calls itself. -/
def selfCall : List (Option String) :=
  [some "10 <main>:", some "1:\tpush %rbp", some "1:\tcall 10 <main>"]

theorem linesOf_selfCall :
    linesOf .x86_64 selfCall = [.label 0x10 "main", .push 8, .call 0x10 "main"] := by
  simp only [linesOf, Text.dropLineEnd, String.toList_ofList]
  decide +kernel

theorem result_selfCall : (read { target := .x86_64, policy := {} } selfCall).result = .ok () := by
  rw [result_read, reads_start.readRows_ok_iff, linesOf_selfCall]
  decide

/-- The lines of `selfCall`, put into effect. -/
def selfCallRead : Survey where
  target := .x86_64
  policy := {}
  graph :=
    { slots := #[some { address := 0, name := "Function Pointer" },
        some { address := 0x10, name := "main", size := 8, visited := true }]
      calls := [⟨0, 1, 1⟩] }
  current := some 1

theorem applyAll_selfCall :
    ({ target := .x86_64, policy := {} } : Survey).uncounted.applyAll (linesOf .x86_64 selfCall) =
      selfCallRead := by
  rw [linesOf_selfCall]
  rfl

/-- **The limit may be exact although it is the total of an imprecise function**, where no entrance
    leads to that function. -/
theorem exact_limit_of_imprecise_selfCall :
    (read { target := .x86_64, policy := {} } selfCall).result = .ok () ∧
      (read { target := .x86_64, policy := {} } selfCall).survey.measure.2.1.bound = .exact 8 ∧
      ∃ f, (read { target := .x86_64, policy := {} }
        selfCall).survey.measure.2.1.graph.function? 1 = some f ∧
        f.bound = .atLeast 8 ∧ f.total = 8 := by
  have hmeasured := uncounted_measure_read result_selfCall
  rw [applyAll_selfCall] at hmeasured
  refine ⟨result_selfCall, ?_, ?_⟩
  · rw [← bound_uncounted, hmeasured]
    cbv
  · rw [← graph_uncounted, hmeasured]
    exact ⟨_, by cbv, rfl, rfl⟩

end Survey

end StackDepth

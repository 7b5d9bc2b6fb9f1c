import StackDepth.Proofs.Survey.Remeasuring

/-!
# Pruning again

Pruning drops the functions that are not marked and takes the marks off the others. A label marks
its function, a measurement marks all functions, and nothing else does. So what a pruning keeps is
what was labelled or measured since the one before, and a second pruning right after the first finds
no marks and drops everything.

* `recentMarks`: the addresses that were labelled or measured since the last pruning;
* `MarkedBy`: the marks of a graph are at these addresses, and nothing is called by the function
  pointer; `MarkedBy.insert`, `MarkedBy.addCall`, `MarkedBy.modify` and `MarkedBy.analyse`: what
  each change keeps of it;
* `Remembers.perform`, `Remembers.performAll`: so it is all along, whatever is done with a survey;
* `repruning_drops_all`: what one pruning leaves after any operations, and what two leave.
-/

namespace StackDepth

/-! ## 1. Marks -/

namespace CallGraph

variable {g : CallGraph} {n m : Node} {marks : List Nat} {x : Nat}

/-- There is a marked function at the address `x`. -/
def IsMarked (g : CallGraph) (x : Nat) : Prop := ∃ f, g.at? x = some f ∧ f.visited = true

/-- The functions at `marks` are marked and no others, and every call has a function as its
    caller. -/
structure MarkedBy (marks : List Nat) (g : CallGraph) : Prop where
  wellFormed : g.WellFormed
  marked : ∀ {x : Nat}, g.IsMarked x ↔ x ∈ marks
  caller : ∀ {q : Option Nat × Option Nat}, q ∈ g.pairs → ∃ x, q.1 = some x

theorem markedBy_empty : MarkedBy [] empty where
  wellFormed := wellFormed_empty
  marked := iff_of_false (fun ⟨_, hf, _⟩ => by cases hf) List.not_mem_nil
  caller hq := by cases hq

theorem WellFormed.functions_eq_nil (hg : g.WellFormed) (h : ∀ x, ¬ ∃ f, g.at? x = some f) :
    g.functions = [] := by
  refine List.eq_nil_iff_forall_not_mem.mpr fun n hn => h (g.address n) ?_
  obtain ⟨f, hf⟩ := isLive_iff.mp (mem_functions.mp hn).2
  exact ⟨f, (hg.at?_address hn).trans hf⟩

/-- A function that is entered without a label is not marked. -/
theorem MarkedBy.insert (hg : MarkedBy marks g) (address : Nat) (name : String) :
    MarkedBy marks (g.insert (Function.named address name)).2 := by
  refine ⟨hg.wellFormed.insert _, fun {x} => ?_, fun {q} hq => ?_⟩
  · rw [← hg.marked, IsMarked, IsMarked, hg.wellFormed.at?_insert]
    split
    · cases g.at? x with
      | none => exact iff_of_false (fun ⟨_, hf, hv⟩ => by cases hf; cases hv) nofun
      | some f => rfl
    · rfl
  · rw [hg.wellFormed.pairs_insert] at hq
    exact hg.caller hq

theorem MarkedBy.addCall (hg : MarkedBy marks g) (hn : n ∈ g.functions) (hm : g.isLive m = true) :
    MarkedBy marks (g.addCall n m).2 := by
  have hlive := (mem_functions.mp hn).2
  refine ⟨hg.wellFormed.addCall hlive hm, fun {x} => ?_, fun {q} hq => ?_⟩
  · rw [← hg.marked, IsMarked, IsMarked, at?_addCall]
  · rw [hg.wellFormed.pairs_addCall hlive hm, place_of_mem hn] at hq
    split at hq
    · exact hg.caller hq
    · rcases List.mem_append.mp hq with hq | hq
      · exact hg.caller hq
      · exact ⟨_, congrArg Prod.fst (List.mem_singleton.mp hq)⟩

/-- A change of one function, which may mark it. -/
theorem MarkedBy.modify (hg : MarkedBy marks g) (hn : n ∈ g.functions) {k : Function → Function}
    {more : List Nat} (hk : ∀ f, (k f).address = f.address)
    (hmore : ∀ f, g.function? n = some f →
      ((k f).visited = true ↔ f.visited = true ∨ g.address n ∈ more))
    (hsub : ∀ x ∈ more, x = g.address n) : MarkedBy (marks ++ more) (g.modify n k) := by
  refine ⟨hg.wellFormed.modify n hk, fun {x} => ?_, fun {q} hq => ?_⟩
  · rw [List.mem_append, ← hg.marked, IsMarked, IsMarked, hg.wellFormed.at?_modify hn hk]
    by_cases hx : x = g.address n
    · obtain ⟨f, hf⟩ := isLive_iff.mp (mem_functions.mp hn).2
      rw [if_pos hx, hx, hg.wellFormed.at?_address hn, hf, Option.map_some]
      simp only [Option.some.injEq, exists_eq_left', hmore f hf]
    · rw [if_neg hx, or_iff_left fun h => hx (hsub x h)]
  · rw [pairs_modify hk] at hq
    exact hg.caller hq

/-- **A measurement marks every function.** -/
theorem MarkedBy.analyse (hg : MarkedBy marks g) (p : Policy) :
    MarkedBy (g.functions.map g.address) (g.analyse p).2.1 := by
  have e := agrees_analyse p g
  have hwf := e.wellFormed hg.wellFormed
  have hpairs : (g.analyse p).2.1.pairs = g.pairs := by
    simp only [pairs, place, e.calls, e.address]
  refine ⟨hwf, fun {x} => ?_, fun {q} hq => hg.caller (hpairs ▸ hq)⟩
  rw [List.mem_map]
  constructor
  · rintro ⟨f, hf, _⟩
    obtain ⟨n, _, hn, hax, _⟩ := hwf.find?_of_at? hf
    rw [e.functions] at hn
    rw [e.address] at hax
    exact ⟨n, hn, hax⟩
  · rintro ⟨n, hn, rfl⟩
    have hvis : (g.analyse p).2.1.isVisited n = true :=
      (isVisited_analyse p g n).trans ((Analysis.walkAll_run p g).2 n hn)
    have hn' : n ∈ (g.analyse p).2.1.functions := e.functions ▸ hn
    obtain ⟨f, hf⟩ := isLive_iff.mp (mem_functions.mp hn').2
    refine ⟨f, ?_, ?_⟩
    · rw [← congrFun e.address n, hwf.at?_address hn', hf]
    · rw [isVisited, hf] at hvis
      exact hvis

end CallGraph

/-! ## 2. Any operations -/

namespace Survey

open StackDepth.Listing

variable {s : Survey} {marks : List Nat} {x : Nat}

/-- The addresses that are marked after an operation, where these are `marks` before it. -/
def marksAfter (s : Survey) (marks : List Nat) : Operation → List Nat
  | .measure => s.graph.functions.map s.graph.address
  | op => s.labelsAfter marks op

/-- The addresses that were labelled or measured since the last pruning. -/
def recentMarks (s : Survey) (marks : List Nat) : List Operation → List Nat
  | [] => marks
  | op :: ops => recentMarks (s.perform op) (s.marksAfter marks op) ops

/-- The marks of the graph are `marks`, and the current function is one of the graph. -/
structure Remembers (marks : List Nat) (s : Survey) : Prop where
  markedBy : s.graph.MarkedBy marks
  current : ∀ n, s.current = some n → n ∈ s.graph.functions

theorem remembers_uncounted : Remembers marks s.uncounted ↔ Remembers marks s :=
  ⟨fun h => ⟨h.markedBy, h.current⟩, fun h => ⟨h.markedBy, h.current⟩⟩

/-- A line inside the current function marks nothing. -/
theorem Remembers.applyIn (h : Remembers marks s) {n : Node} (hn : s.current = some n) (l : Line) :
    Remembers marks (s.applyIn n l) := by
  have hfind := h.markedBy.wellFormed.find?_iff.mpr ⟨h.current n hn, rfl⟩
  generalize s.graph.address n = y at hfind
  have hgraph : (s.applyIn n l).graph.MarkedBy marks ∧ (s.applyIn n l).graph.find? y = some n := by
    refine applyIn_induction (P := fun g => g.MarkedBy marks ∧ g.find? y = some n)
      (fun g hg => hg.1.wellFormed) ?_ ?_ ?_ ⟨h.markedBy, hfind⟩ l
    · intro g address name ⟨hg, hf⟩
      exact ⟨hg.insert address name, hg.wellFormed.find?_insert_of_some _ hf⟩
    · intro g m ⟨hg, hf⟩ hm
      exact ⟨hg.addCall (CallGraph.find?_some hf).1 hm, CallGraph.find?_addCall.trans hf⟩
    · intro g k ⟨hg, hf⟩ hk
      have hmodify : CallGraph.MarkedBy (marks ++ []) (g.modify n k) :=
        hg.modify (CallGraph.find?_some hf).1 (fun f => (hk f).1)
          (fun f _ => by rw [(hk f).2, or_iff_left List.not_mem_nil]) nofun
      rw [List.append_nil] at hmodify
      exact ⟨hmodify, (CallGraph.find?_modify fun f => (hk f).1).trans hf⟩
  refine ⟨hgraph.1, fun m hm => ?_⟩
  rw [applyIn_eq] at hm
  cases hn.symm.trans hm
  exact (CallGraph.find?_some hgraph.2).1

/-- **A label marks its function.** -/
theorem Remembers.enter (h : Remembers marks s) (x : Nat) (name : String) :
    Remembers (marks ++ [x]) (s.enter x name) := by
  have haddress : ∀ f, (s.onLabel name f).address = f.address :=
    field_rename (r := Function.address) name fun _ => rfl
  have hins : (s.graph.addFunction x name).2.MarkedBy marks := h.markedBy.insert x name
  have hfound : (s.graph.addFunction x name).2.find? x = some (s.graph.addFunction x name).1 :=
    h.markedBy.wellFormed.find?_insert (Function.named x name)
  obtain ⟨hmem, hax⟩ := CallGraph.find?_some hfound
  rw [enter_eq]
  refine ⟨hins.modify hmem haddress (fun f _ => ?_) fun y hy => ?_, fun n hn => ?_⟩
  · rw [hax]
    exact iff_of_true rfl (.inr List.mem_cons_self)
  · rw [hax, List.mem_singleton.mp hy]
  · cases hn
    exact (CallGraph.find?_some ((CallGraph.find?_modify haddress).trans hfound)).1

/-- **One line** marks what it labels. -/
theorem Remembers.apply (h : Remembers marks s) (l : Line) :
    Remembers (marks ++ Listing.labels [l]) (s.apply l).1 := by
  refine apply_induction (I := Remembers) h (fun s' hgraph hnone => ⟨?_, fun n hn => ?_⟩) h.enter
    (fun n hn => h.applyIn hn) l
  · rw [hgraph]
    exact h.markedBy
  · cases hnone.symm.trans hn

/-- **Pruning takes all marks off.** -/
theorem Remembers.prune (h : Remembers marks s) : Remembers [] s.prune.1 := by
  have hwf := h.markedBy.wellFormed
  refine ⟨⟨wellFormed_prune hwf, fun {x} => ?_, fun {q} hq => ?_⟩, fun n hn => ?_⟩
  · refine iff_of_false (fun ⟨f, hf, hv⟩ => ?_) List.not_mem_nil
    obtain ⟨f', _, rfl⟩ := (at?_prune hwf).mp hf
    cases hv
  · rw [pairs_prune, mem_pairs_kept hwf] at hq
    exact h.markedBy.caller hq.1
  · rw [prune_eq] at hn
    cases hn

theorem Remembers.measure (h : Remembers marks s) :
    Remembers (s.graph.functions.map s.graph.address) s.measure.2.1 := by
  refine ⟨h.markedBy.analyse s.policy, fun n hn => ?_⟩
  have e := CallGraph.agrees_analyse s.policy s.graph
  show n ∈ (s.graph.analyse s.policy).2.1.functions
  rw [e.functions]
  exact h.current n hn

/-- **One operation**, with or without a fault. -/
theorem Remembers.perform (h : Remembers marks s) (op : Operation) :
    Remembers (s.marksAfter marks op) (s.perform op) := by
  have hother : op ≠ .measure → Remembers (s.labelsAfter marks op) (s.perform op) :=
    perform_induction (I := Remembers) remembers_uncounted (fun l h => h.apply l) Remembers.prune h
  cases op with
  | measure => exact h.measure
  | readLine _ | read _ | prune => exact hother nofun

/-- **Any number of operations.** -/
theorem Remembers.performAll (h : Remembers marks s) (ops : List Operation) :
    Remembers (s.recentMarks marks ops) (s.performAll ops) := by
  induction ops generalizing s marks with
  | nil => exact h
  | cons op ops ih => exact ih (h.perform op)

theorem remembers_fresh (t : Target) (p : Policy) : Remembers [] (fresh t p) :=
  ⟨CallGraph.markedBy_empty, nofun⟩

/-! ## 3. What a pruning leaves -/

/-- The functions that are left are those at `marks`. -/
theorem Remembers.at?_prune (h : Remembers marks s) {f : Function} :
    s.prune.1.graph.at? x = some f ↔
      x ∈ marks ∧ ∃ f', s.graph.at? x = some f' ∧ f'.unvisited = f := by
  have hwf := h.markedBy.wellFormed
  rw [Survey.at?_prune hwf, ← h.markedBy.marked]
  constructor
  · intro ⟨f', ⟨hf, hv⟩, e⟩
    exact ⟨⟨f', hf, hv⟩, f', hf, e⟩
  · intro ⟨⟨f', hf, hv⟩, f'', hf', e⟩
    cases hf.symm.trans hf'
    exact ⟨f', ⟨hf, hv⟩, e⟩

/-- The calls that are left are those between functions at `marks`. -/
theorem Remembers.mem_pairs_prune (h : Remembers marks s) {q : Option Nat × Option Nat} :
    q ∈ s.prune.1.graph.pairs ↔
      q ∈ s.graph.pairs ∧ ∀ y, q.1 = some y ∨ q.2 = some y → y ∈ marks := by
  rw [pairs_prune, mem_pairs_kept h.markedBy.wellFormed]
  exact and_congr_right fun _ => forall₂_congr fun _ _ => h.markedBy.marked

/-- Where something is marked, its function is left. -/
theorem Remembers.functions_prune_eq_nil (h : Remembers marks s) :
    s.prune.1.graph.functions = [] ↔ marks = [] := by
  have hwf := wellFormed_prune h.markedBy.wellFormed
  constructor
  · intro hnil
    refine List.eq_nil_iff_forall_not_mem.mpr fun x hx => ?_
    obtain ⟨f, hf, _⟩ := h.markedBy.marked.mpr hx
    obtain ⟨n, _, hn, _⟩ := hwf.find?_of_at? (h.at?_prune.mpr ⟨hx, f, hf, rfl⟩)
    rw [hnil] at hn
    cases hn
  · rintro rfl
    exact hwf.functions_eq_nil fun x ⟨f, hf⟩ => List.not_mem_nil (h.at?_prune.mp hf).1

/-- **Where nothing is marked, nothing is left.** -/
theorem Remembers.prune_unmarked (h : Remembers [] s) :
    s.prune.1.graph.functions = [] ∧ s.prune.1.graph.calls = [] := by
  refine ⟨h.functions_prune_eq_nil.mpr rfl, ?_⟩
  have hpairs : s.prune.1.graph.pairs = [] := by
    refine List.eq_nil_iff_forall_not_mem.mpr fun q hq => ?_
    obtain ⟨hq, hends⟩ := h.mem_pairs_prune.mp hq
    obtain ⟨x, hx⟩ := h.markedBy.caller hq
    exact List.not_mem_nil (hends x (.inl hx))
  rw [CallGraph.pairs, List.reverse_eq_nil_iff, List.map_eq_nil_iff] at hpairs
  exact hpairs

/-- **Where all functions are marked, all are left**, and all calls. -/
theorem agrees_prune (h : ∀ n ∈ s.graph.functions, s.graph.isVisited n = true) :
    s.graph.Agrees s.prune.1.graph := by
  have hnone : phantoms s.graph = [] := by
    refine List.eq_nil_iff_forall_not_mem.mpr fun n hn => ?_
    obtain ⟨hmem, hv⟩ := mem_phantoms.mp hn
    rw [h n hmem] at hv
    cases hv
  have hkept : kept s.graph = s.graph := by rw [kept, hnone, List.foldl_nil]
  rw [prune_eq, hkept]
  exact CallGraph.agrees_foldl_modify fun _ => rfl

theorem agrees_measure_prune (s : Survey) : s.graph.Agrees s.measure.2.1.prune.1.graph := by
  have e : s.graph.Agrees s.measure.2.1.graph := CallGraph.agrees_analyse s.policy s.graph
  refine e.trans (agrees_prune fun n hn => ?_)
  have hn' : n ∈ s.graph.functions := e.functions ▸ hn
  exact (CallGraph.isVisited_analyse s.policy s.graph n).trans
    ((Analysis.walkAll_run s.policy s.graph).2 n hn')

/-- **Pruning after any operations.** Once, it leaves exactly the functions that were labelled or
    measured since the last pruning, with the calls between them. Twice in a row, it leaves nothing,
    which is the same only if nothing was labelled or measured. With a measurement between the two,
    the second drops nothing. -/
theorem repruning_drops_all (t : Target) (p : Policy) (ops : List Operation) :
    (∀ x f, ((fresh t p).performAll (ops ++ [Operation.prune])).graph.at? x = some f ↔
      x ∈ (fresh t p).recentMarks [] ops ∧
        ∃ f', ((fresh t p).performAll ops).graph.at? x = some f' ∧ f'.unvisited = f) ∧
    (∀ q, q ∈ ((fresh t p).performAll (ops ++ [Operation.prune])).graph.pairs ↔
      q ∈ ((fresh t p).performAll ops).graph.pairs ∧
        ∀ y, q.1 = some y ∨ q.2 = some y → y ∈ (fresh t p).recentMarks [] ops) ∧
    (((fresh t p).performAll (ops ++ [Operation.prune, .prune])).graph.functions = [] ∧
      ((fresh t p).performAll (ops ++ [Operation.prune, .prune])).graph.calls = []) ∧
    (((fresh t p).performAll (ops ++ [Operation.prune, .prune])).graph.functions =
        ((fresh t p).performAll (ops ++ [Operation.prune])).graph.functions ↔
      (fresh t p).recentMarks [] ops = []) ∧
    CallGraph.Agrees ((fresh t p).performAll (ops ++ [Operation.prune])).graph
      ((fresh t p).performAll (ops ++ [Operation.prune, .measure, .prune])).graph := by
  have h := (remembers_fresh t p).performAll ops
  simp only [performAll_append]
  generalize (fresh t p).performAll ops = s at h ⊢
  have hagain := h.prune.prune_unmarked
  refine ⟨fun x f => h.at?_prune, fun q => h.mem_pairs_prune, hagain, ?_, agrees_measure_prune _⟩
  show s.prune.1.prune.1.graph.functions = s.prune.1.graph.functions ↔ _
  rw [hagain.1, eq_comm]
  exact h.functions_prune_eq_nil

/-- What pruning leaves after rows. -/
theorem graph_prune_readLines (s : Survey) (raws : List String) :
    (s.performAll (raws.map .readLine ++ [Operation.prune])).graph =
        (s.uncounted.applyAll (raws.map s.lineOf)).prune.1.graph ∧
      (s.performAll (raws.map .readLine ++ [Operation.prune, .prune])).graph =
        (s.uncounted.applyAll (raws.map s.lineOf)).prune.1.prune.1.graph := by
  rw [(perform_readLines s [] raws _).1, (perform_readLines s [] raws _).1, ← uncounted_readLines,
    ← uncounted_prune, ← uncounted_prune]
  exact ⟨rfl, rfl⟩

/-- **A labelled function is lost** when phantoms are dropped twice. -/
theorem labelled_lost_by_repruning :
    (fresh .x86_64 {}).recentLabels [] (leafRows.map .readLine) = [0x20] ∧
      ((fresh .x86_64 {}).performAll
        (leafRows.map .readLine ++ [Operation.prune])).graph.functions = [1] ∧
      ((fresh .x86_64 {}).performAll
        (leafRows.map .readLine ++ [Operation.prune, .prune])).graph.functions = [] := by
  have hlabels := (perform_readLines (fresh .x86_64 {}) [] leafRows []).2
  rw [List.append_nil, map_lineOf_leafRows] at hlabels
  obtain ⟨hone, htwo⟩ := graph_prune_readLines (fresh .x86_64 {}) leafRows
  rw [hone, htwo, applyAll_leafRows]
  exact ⟨hlabels, by cbv, by cbv⟩

end Survey

end StackDepth

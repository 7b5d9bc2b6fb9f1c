import StackDepth.Proofs.Analysis.Imprecision
import StackDepth.Proofs.Analysis.Turns
import StackDepth.Proofs.Survey.Operations

/-!
# Measuring in any state

A label marks its function, a measurement marks the functions whose totals it has found, and neither
tells the marks apart. Pruning takes them all off. So a measurement passes over the functions that
were labelled since the last pruning, and these may keep a total that does not cover their size.

* `total_analyse_of_visited`, `ownSize_le_total_analyse`: what a measurement does with a function
  that is marked, and with one that is not;
* `Settled`: every mark is that of a label, or of a total that covers the size; `Settled.insert`,
  `Settled.modify`, `Settled.enter` and `Settled.analyse`: what each change keeps of it;
* `Tracks.perform`, `Tracks.performAll`: so it is all along, whatever is done with a survey;
* `total_measured`: what a measurement leaves after any operations.
-/

namespace StackDepth

open Relation (ReflTransGen)

/-! ## 1. One measurement -/

namespace Analysis

variable {p : Policy} {g : CallGraph} {a : Analysis} {n : Node}

/-- What is finished on a run gets a total that covers its size. -/
theorem ownSize_le_total_of_run (h : ReflTransGen (Step p) { graph := g } a) (hn : n ∈ g.functions)
    (hv : g.isVisited n = false) (hvis : a.graph.isVisited n = true) :
    g.ownSize n ≤ a.graph.total n := by
  induction h with
  | refl =>
    rw [hv] at hvis
    cases hvis
  | tail hrun hs ih =>
    rcases hs.visited_cases hvis with hbefore | ⟨path, rfl, _⟩
    · rw [hs.total hbefore]
      exact ih hbefore
    · rw [total_finished (agrees_of_run hrun) hn]
      exact Nat.le_add_right _ _

end Analysis

namespace CallGraph

variable {g h : CallGraph} {n m : Node} {labels more : List Nat} {x : Nat}

/-- A function that is marked keeps its total. -/
theorem total_analyse_of_visited (p : Policy) (hn : n ∈ g.functions) (hv : g.isVisited n = true) :
    (g.analyse p).2.1.total n = g.total n := by
  rw [total_analyse]
  exact (Analysis.visits_allTurns p g).total (mem_functions.mp hn).1 hv

/-- Any other function gets a total that covers its size. -/
theorem ownSize_le_total_analyse (p : Policy) (hn : n ∈ g.functions) (hv : g.isVisited n = false) :
    g.ownSize n ≤ (g.analyse p).2.1.total n := by
  obtain ⟨hrun, hvis⟩ := Analysis.walkAll_run p g
  rw [total_analyse]
  exact Analysis.ownSize_le_total_of_run hrun hn hv (hvis n hn)

/-! ## 2. Marks and labels -/

/-- If the function of `n` is marked, it was labelled or has a total that covers its size. -/
def Covered (labels : List Nat) (g : CallGraph) (n : Node) : Prop :=
  g.isVisited n = true → g.address n ∈ labels ∨ g.ownSize n ≤ g.total n

/-- A marked function at the address `x`. -/
def MarkedAt (g : CallGraph) (x : Nat) (n : Node) : Prop :=
  n ∈ g.functions ∧ g.address n = x ∧ g.isVisited n = true

/-- `labels` are marked, and all other marks are those of totals that cover the size. -/
structure Settled (labels : List Nat) (g : CallGraph) : Prop where
  wellFormed : g.WellFormed
  labelled : ∀ x ∈ labels, ∃ n, g.MarkedAt x n
  covered : ∀ n ∈ g.functions, Covered labels g n

theorem Covered.congr (hn : Covered labels g n) (e : h.function? n = g.function? n) :
    Covered labels h n := by
  unfold Covered isVisited address ownSize total at hn ⊢
  rw [e]
  exact hn

theorem Covered.mono (hn : Covered labels g n) (hsub : labels ⊆ more) : Covered more g n :=
  fun hv => (hn hv).imp_left (hsub ·)

theorem MarkedAt.congr (hn : g.MarkedAt x n) (e : h.function? n = g.function? n) :
    h.MarkedAt x n := by
  unfold MarkedAt address isVisited at hn ⊢
  rw [mem_functions, isLive] at hn ⊢
  rw [e]
  exact hn

/-- A mark is kept where what is changed keeps it. -/
theorem MarkedAt.modify (hn : g.MarkedAt x n) {k : Function → Function}
    (hk : ∀ f, (k f).address = f.address) (hv : ∀ f, f.visited = true → (k f).visited = true) :
    (g.modify m k).MarkedAt x n := by
  by_cases e : m = n
  · obtain ⟨hmem, hax, hvis⟩ := hn
    obtain ⟨f, hf⟩ := isLive_iff.mp (mem_functions.mp hmem).2
    refine ⟨?_, (address_modify hk).trans hax, ?_⟩
    · rw [mem_functions, isLive_modify]
      exact mem_functions.mp hmem
    · rw [isVisited, hf] at hvis
      rw [isVisited, function?_modify, if_pos e, hf]
      exact hv f hvis
  · exact hn.congr (by rw [function?_modify, if_neg e])

theorem settled_empty : Settled [] empty where
  wellFormed := wellFormed_empty
  labelled _ hx := by cases hx
  covered n hn := by
    obtain ⟨h0, h1⟩ := mem_functions.mp hn
    exact absurd (Nat.lt_one_iff.mp (lt_size_of_isLive h1)) h0

/-- A function that is entered without a label is not marked. -/
theorem Settled.insert (hg : Settled labels g) (address : Nat) (name : String) :
    Settled labels (g.insert (Function.named address name)).2 := by
  refine ⟨hg.wellFormed.insert _, ?_, ?_⟩
  all_goals rcases hg.wellFormed.insert_cases (Function.named address name) with
    ⟨n, _, e⟩ | ⟨_, n, h, e, hadd⟩
  all_goals rw [e]
  · exact hg.labelled
  · intro x hx
    obtain ⟨m, hm⟩ := hg.labelled x hx
    have hne : m ≠ n := by
      rintro rfl
      have hlive := (mem_functions.mp hm.1).2
      rw [hadd.fresh] at hlive
      cases hlive
    exact ⟨m, hm.congr (by rw [hadd.function?, if_neg hne])⟩
  · exact hg.covered
  · intro m hm
    by_cases hmn : m = n
    · intro hvis
      rw [isVisited, hadd.function?, if_pos hmn] at hvis
      cases hvis
    · obtain ⟨hp, hl⟩ := mem_functions.mp hm
      have hmem : m ∈ g.functions :=
        mem_functions.mpr ⟨hp, ((hadd.isLive m).mp hl).resolve_left hmn⟩
      exact (hg.covered m hmem).congr (by rw [hadd.function?, if_neg hmn])

theorem Settled.addCall (hg : Settled labels g) (hn : g.isLive n = true) (hm : g.isLive m = true) :
    Settled labels (g.addCall n m).2 where
  wellFormed := hg.wellFormed.addCall hn hm
  labelled x hx := by
    obtain ⟨k, hk⟩ := hg.labelled x hx
    exact ⟨k, hk.congr function?_addCall⟩
  covered k hk := by
    rw [mem_functions, isLive, function?_addCall] at hk
    exact (hg.covered k (mem_functions.mpr hk)).congr function?_addCall

/-- **A function that is labelled may change in any way.** -/
theorem Settled.modify (hg : Settled labels g) (hn : n ∈ g.functions)
    {k : Function → Function} (hk : ∀ f, (k f).address = f.address)
    (hv : ∀ f, f.visited = true → (k f).visited = true) (hsub : labels ⊆ more)
    (hmem : g.address n ∈ more)
    (hmore : ∀ x ∈ more, x ∈ labels ∨ x = g.address n ∧ ∀ f, (k f).visited = true) :
    Settled more (g.modify n k) where
  wellFormed := hg.wellFormed.modify n hk
  labelled x hx := by
    rcases hmore x hx with hx | ⟨rfl, hmark⟩
    · obtain ⟨m, hm⟩ := hg.labelled x hx
      exact ⟨m, hm.modify hk hv⟩
    · obtain ⟨f, hf⟩ := isLive_iff.mp (mem_functions.mp hn).2
      refine ⟨n, ?_, address_modify hk, ?_⟩
      · rw [mem_functions, isLive_modify]
        exact mem_functions.mp hn
      · rw [isVisited, function?_modify, if_pos rfl, hf]
        exact hmark f
  covered m hm := by
    by_cases e : n = m
    · intro _
      rw [address_modify hk, ← e]
      exact .inl hmem
    · rw [mem_functions, isLive_modify] at hm
      exact ((hg.covered m (mem_functions.mpr hm)).mono hsub).congr
        (by rw [function?_modify, if_neg e])

/-- **After a measurement** the functions that were not marked have totals that cover their
    sizes. -/
theorem Settled.analyse (hg : Settled labels g) (p : Policy) :
    Settled labels (g.analyse p).2.1 := by
  have e := agrees_analyse p g
  refine ⟨e.wellFormed hg.wellFormed, fun x hx => ?_, fun n hn _ => ?_⟩
  · obtain ⟨n, hn, hax, _⟩ := hg.labelled x hx
    refine ⟨n, ?_, ?_, ?_⟩
    · rw [e.functions]
      exact hn
    · rw [e.address, hax]
    · exact (isVisited_analyse p g n).trans ((Analysis.walkAll_run p g).2 n hn)
  · rw [e.functions] at hn
    rw [e.address, e.ownSize]
    cases hv : g.isVisited n with
    | true =>
      rw [total_analyse_of_visited p hn hv]
      exact hg.covered n hn hv
    | false => exact .inr (ownSize_le_total_analyse p hn hv)

end CallGraph

/-! ## 3. Any operations -/

namespace Survey

open StackDepth.Listing

variable {s : Survey} {labels : List Nat} {l : Line}

/-- The marks of the graph are settled, and the current function is labelled. -/
structure Tracks (labels : List Nat) (s : Survey) : Prop where
  settled : s.graph.Settled labels
  current : ∀ n, s.current = some n → ∃ x ∈ labels, s.graph.find? x = some n

theorem tracks_uncounted : Tracks labels s.uncounted ↔ Tracks labels s :=
  ⟨fun h => ⟨h.settled, h.current⟩, fun h => ⟨h.settled, h.current⟩⟩

/-- A line inside the current function. -/
theorem Tracks.applyIn (h : Tracks labels s) {n : Node} (hn : s.current = some n) (l : Line) :
    Tracks labels (s.applyIn n l) := by
  obtain ⟨x, hx, hfind⟩ := h.current n hn
  have hgraph : (s.applyIn n l).graph.Settled labels ∧ (s.applyIn n l).graph.find? x = some n := by
    refine applyIn_induction (P := fun g => g.Settled labels ∧ g.find? x = some n)
      (fun g hg => hg.1.wellFormed) ?_ ?_ ?_ ⟨h.settled, hfind⟩ l
    · intro g address name ⟨hg, hf⟩
      exact ⟨hg.insert address name, hg.wellFormed.find?_insert_of_some _ hf⟩
    · intro g m ⟨hg, hf⟩ hm
      have hlive := (CallGraph.mem_functions.mp (CallGraph.find?_some hf).1).2
      exact ⟨hg.addCall hlive hm, CallGraph.find?_addCall.trans hf⟩
    · intro g k ⟨hg, hf⟩ hk
      obtain ⟨hmem, hax⟩ := CallGraph.find?_some hf
      refine ⟨hg.modify hmem (fun f => (hk f).1) (fun f hv => (hk f).2.trans hv)
        (List.Subset.refl _) (hax ▸ hx) (fun y hy => .inl hy), ?_⟩
      exact (CallGraph.find?_modify fun f => (hk f).1).trans hf
  refine ⟨hgraph.1, fun m hm => ⟨x, hx, ?_⟩⟩
  rw [applyIn_eq] at hm
  cases hn.symm.trans hm
  exact hgraph.2

/-- A label. -/
theorem Tracks.enter (h : Tracks labels s) (x : Nat) (name : String) :
    Tracks (labels ++ [x]) (s.enter x name) := by
  have haddress : ∀ f, (s.onLabel name f).address = f.address :=
    field_rename (r := Function.address) name fun _ => rfl
  have hins : (s.graph.addFunction x name).2.Settled labels := h.settled.insert x name
  have hfound : (s.graph.addFunction x name).2.find? x = some (s.graph.addFunction x name).1 :=
    h.settled.wellFormed.find?_insert (Function.named x name)
  obtain ⟨hmem, hax⟩ := CallGraph.find?_some hfound
  have hx : x ∈ labels ++ [x] := List.mem_append_right _ List.mem_cons_self
  rw [enter_eq]
  refine ⟨hins.modify hmem haddress (fun _ _ => rfl) (List.subset_append_left _ _) ?_ ?_, ?_⟩
  · rw [hax]
    exact hx
  · intro y hy
    refine (List.mem_append.mp hy).imp_right fun hy => ⟨?_, fun _ => rfl⟩
    rw [hax, List.mem_singleton.mp hy]
  · intro n hn
    cases hn
    exact ⟨x, hx, (CallGraph.find?_modify haddress).trans hfound⟩

/-- **One line**: what it labels is labelled from then on. -/
theorem Tracks.apply (h : Tracks labels s) (l : Line) :
    Tracks (labels ++ Listing.labels [l]) (s.apply l).1 := by
  refine apply_induction (I := Tracks) h (fun s' hgraph hnone => ⟨?_, fun n hn => ?_⟩) h.enter
    (fun n hn => h.applyIn hn) l
  · rw [hgraph]
    exact h.settled
  · cases hnone.symm.trans hn

/-- After pruning nothing is marked. -/
theorem isVisited_prune {n : Node} (hn : n ∈ s.prune.1.graph.functions) :
    s.prune.1.graph.isVisited n = false := by
  have htwice : ∀ f : Function, f.unvisited.unvisited = f.unvisited := fun _ => rfl
  obtain ⟨f, hf⟩ := CallGraph.isLive_iff.mp (CallGraph.mem_functions.mp hn).2
  rw [CallGraph.isVisited, hf]
  rw [prune_eq] at hf
  dsimp only at hf
  rw [CallGraph.function?_foldl_modify htwice] at hf
  split at hf
  · obtain ⟨f', _, rfl⟩ := Option.map_eq_some_iff.mp hf
    rfl
  · rename_i hnode
    exact absurd (CallGraph.mem_nodes.mpr (CallGraph.isLive_iff.mpr ⟨f, hf⟩)) hnode

/-- **Pruning** settles all marks at once. -/
theorem Tracks.prune (h : Tracks labels s) : Tracks [] s.prune.1 := by
  refine ⟨⟨wellFormed_prune h.settled.wellFormed, nofun, fun n hn hv => ?_⟩, fun n hn => ?_⟩
  · rw [isVisited_prune hn] at hv
    cases hv
  · rw [prune_eq] at hn
    cases hn

/-- **A measurement.** -/
theorem Tracks.measure (h : Tracks labels s) : Tracks labels s.measure.2.1 := by
  have hsettled := h.settled.analyse s.policy
  have e := CallGraph.agrees_analyse s.policy s.graph
  refine ⟨hsettled, fun n hn => ?_⟩
  obtain ⟨x, hx, hfind⟩ := h.current n hn
  refine ⟨x, hx, hsettled.wellFormed.find?_iff.mpr ?_⟩
  rw [e.functions, e.address]
  exact CallGraph.find?_some hfind

/-- **One operation**, with or without a fault. -/
theorem Tracks.perform (h : Tracks labels s) (op : Operation) :
    Tracks (s.labelsAfter labels op) (s.perform op) := by
  by_cases hop : op = .measure
  · rw [hop]
    exact h.measure
  · exact perform_induction (I := Tracks) tracks_uncounted (fun l h => h.apply l) Tracks.prune h hop

/-- **Any number of operations.** -/
theorem Tracks.performAll (h : Tracks labels s) (ops : List Operation) :
    Tracks (s.recentLabels labels ops) (s.performAll ops) := by
  induction ops generalizing s labels with
  | nil => exact h
  | cons op ops ih => exact ih (h.perform op)

theorem tracks_fresh (t : Target) (p : Policy) : Tracks [] (fresh t p) :=
  ⟨CallGraph.settled_empty, nofun⟩

/-! ## 4. What a measurement leaves -/

/-- A number that a word holds covers, as a word, what it covers. -/
theorem toUInt64_le_toUInt64 {x y : Nat} (h : x ≤ y) (hy : y < Text.wordLimit) :
    x.toUInt64 ≤ y.toUInt64 :=
  (UInt64.ofNat_le_iff_le (Nat.lt_of_le_of_lt h hy) hy).mpr h

/-- **The totals after any operations that end with a measurement**, as words of 64 bits. A function
    that was not labelled since the last pruning has a total that covers its own size, as long as
    the total is one that a word holds: of a sum that comes to 2^64 a word keeps the rest only,
    which may be less than the size. One that was labelled since is passed over and keeps the total
    that it had. -/
theorem total_measured (t : Target) (p : Policy) (ops : List Operation) {n : Node}
    (hn : n ∈ ((fresh t p).performAll (ops ++ [Operation.measure])).graph.functions) :
    (((fresh t p).performAll (ops ++ [Operation.measure])).graph.address n ∉
        (fresh t p).recentLabels [] ops →
      ((fresh t p).performAll (ops ++ [Operation.measure])).graph.total n < Text.wordLimit →
      (((fresh t p).performAll (ops ++ [Operation.measure])).graph.ownSize n).toUInt64 ≤
        (((fresh t p).performAll (ops ++ [Operation.measure])).graph.total n).toUInt64) ∧
    (((fresh t p).performAll (ops ++ [Operation.measure])).graph.address n ∈
        (fresh t p).recentLabels [] ops →
      ((fresh t p).performAll (ops ++ [Operation.measure])).graph.total n =
        ((fresh t p).performAll ops).graph.total n) := by
  have htracks := (tracks_fresh t p).performAll ops
  rw [performAll_concat] at hn ⊢
  generalize (fresh t p).performAll ops = s at htracks hn ⊢
  have e := CallGraph.agrees_analyse s.policy s.graph
  have hn' : n ∈ s.graph.functions := e.functions ▸ hn
  have hcovered := htracks.measure.settled.covered n hn
  have hvis : s.measure.2.1.graph.isVisited n = true :=
    (CallGraph.isVisited_analyse s.policy s.graph n).trans
      ((Analysis.walkAll_run s.policy s.graph).2 n hn')
  refine ⟨fun hlabel hword => ?_, fun hlabel => ?_⟩
  · exact toUInt64_le_toUInt64 ((hcovered hvis).resolve_left hlabel) hword
  obtain ⟨m, hm, hax, hmark⟩ := htracks.settled.labelled _ hlabel
  have hmn : m = n :=
    htracks.settled.wellFormed.addressInj hm hn' (hax.trans (congrFun e.address n))
  exact CallGraph.total_analyse_of_visited s.policy hn' (hmn ▸ hmark)

/-- `main` calls `leaf`. -/
def callRows : List String :=
  ["10 <main>:", "1:\tpush %rbp", "1:\tcall 20 <leaf>", "20 <leaf>:", "1:\tsub $32,%rsp"]

def leafRows : List String := ["20 <leaf>:", "1:\tpush %rbp"]

/-- After the pruning `leaf` is labelled once more and takes more bytes. -/
def relabelled : List Operation := callRows.map .readLine ++ .prune :: leafRows.map .readLine

theorem map_lineOf_callRows (p : Policy) : callRows.map (fresh .x86_64 p).lineOf =
    [.label 0x10 "main", .push 8, .call 0x20 "leaf", .label 0x20 "leaf", .decrement 32] := by
  simp only [callRows, lineOf, List.map_cons, List.map_nil, Text.dropLineEnd, String.toList_ofList]
  decide +kernel

theorem map_lineOf_leafRows (p : Policy) :
    leafRows.map (fresh .x86_64 p).lineOf = [.label 0x20 "leaf", .push 8] := by
  simp only [leafRows, lineOf, List.map_cons, List.map_nil, Text.dropLineEnd, String.toList_ofList]
  decide +kernel

theorem perform_relabelled (p : Policy) :
    ((fresh .x86_64 p).performAll relabelled).uncounted =
        (((fresh .x86_64 p).applyAll [.label 0x10 "main", .push 8, .call 0x20 "leaf",
          .label 0x20 "leaf", .decrement 32]).prune.1.applyAll [.label 0x20 "leaf", .push 8]) ∧
      (fresh .x86_64 p).recentLabels [] relabelled = [0x20] := by
  have h := perform_pruned_between (fresh .x86_64 p) callRows leafRows
  rw [map_lineOf_callRows, map_lineOf_leafRows] at h
  exact h

/-- `main` and `leaf`, with the bytes that `leaf` takes, and which of the two are marked. -/
def callGraphOfRows (leafBytes : Nat) (mainMarked leafMarked : Bool) : CallGraph where
  slots := #[some { address := 0, name := "Function Pointer" },
    some { address := 0x10, name := "main", size := 8, visited := mainMarked },
    some { address := 0x20, name := "leaf", size := leafBytes, visited := leafMarked }]
  calls := [⟨0, 1, 2⟩]

theorem applyAll_relabelled :
    ((fresh .x86_64 {}).applyAll [.label 0x10 "main", .push 8, .call 0x20 "leaf",
      .label 0x20 "leaf", .decrement 32]).prune.1.applyAll [.label 0x20 "leaf", .push 8] =
        { fresh .x86_64 {} with graph := callGraphOfRows 40 false true, current := some 2 } := by
  have hread : (fresh .x86_64 {}).applyAll [.label 0x10 "main", .push 8, .call 0x20 "leaf",
      .label 0x20 "leaf", .decrement 32] =
      { fresh .x86_64 {} with graph := callGraphOfRows 32 true true, current := some 2 } := rfl
  have hpruned : (prune
      { fresh .x86_64 {} with graph := callGraphOfRows 32 true true, current := some 2 }).1 =
      { fresh .x86_64 {} with graph := callGraphOfRows 32 false false } := by cbv
  rw [hread, hpruned]
  rfl

theorem graph_relabelled :
    ((fresh .x86_64 {}).performAll (relabelled ++ [Operation.measure])).graph =
      (measure { fresh .x86_64 {} with
        graph := callGraphOfRows 40 false true, current := some 2 }).2.1.graph := by
  rw [performAll_concat, ← applyAll_relabelled, ← (perform_relabelled {}).1]
  rfl

/-- `main` was not labelled since the pruning, and `leaf` was, and has no total for its 40 bytes. -/
theorem total_measured_relabelled :
    (((fresh .x86_64 {}).performAll (relabelled ++ [Operation.measure])).graph.ownSize 1).toUInt64 ≤
        (((fresh .x86_64 {}).performAll (relabelled ++ [Operation.measure])).graph.total 1
          ).toUInt64 ∧
      ((fresh .x86_64 {}).performAll (relabelled ++ [Operation.measure])).graph.ownSize 2 = 40 ∧
      ((fresh .x86_64 {}).performAll (relabelled ++ [Operation.measure])).graph.total 2 =
        ((fresh .x86_64 {}).performAll relabelled).graph.total 2 := by
  have hlabels := (perform_relabelled {}).2
  have hmain :
      1 ∈ ((fresh .x86_64 {}).performAll (relabelled ++ [Operation.measure])).graph.functions ∧
      ((fresh .x86_64 {}).performAll (relabelled ++ [Operation.measure])).graph.address 1 = 0x10 ∧
      ((fresh .x86_64 {}).performAll (relabelled ++ [Operation.measure])).graph.total 1 <
        Text.wordLimit := by
    rw [graph_relabelled, CallGraph.mem_functions]
    cbv
  have hleaf :
      2 ∈ ((fresh .x86_64 {}).performAll (relabelled ++ [Operation.measure])).graph.functions ∧
      ((fresh .x86_64 {}).performAll (relabelled ++ [Operation.measure])).graph.address 2 = 0x20 ∧
      ((fresh .x86_64 {}).performAll (relabelled ++ [Operation.measure])).graph.ownSize 2 = 40 := by
    rw [graph_relabelled, CallGraph.mem_functions]
    cbv
  refine ⟨(total_measured .x86_64 {} relabelled hmain.1).1 ?_ hmain.2.2, hleaf.2.2,
    (total_measured .x86_64 {} relabelled hleaf.1).2 ?_⟩
  · rw [hmain.2.1, hlabels]
    decide
  · rw [hleaf.2.1, hlabels]
    decide

/-- The rows of `leafRows`, put into effect. -/
def leafRead : Survey :=
  { fresh .x86_64 {} with
    graph :=
      { slots := #[some { address := 0, name := "Function Pointer" },
          some { address := 0x20, name := "leaf", size := 8, visited := true }] }
    current := some 1 }

theorem applyAll_leafRows :
    (fresh .x86_64 {}).uncounted.applyAll (leafRows.map (fresh .x86_64 {}).lineOf) = leafRead := by
  rw [map_lineOf_leafRows]
  rfl

theorem graph_unpruned (s : Survey) (raws : List String) :
    (s.performAll (raws.map .readLine ++ [Operation.measure])).graph =
      (s.uncounted.applyAll (raws.map s.lineOf)).measure.2.1.graph := by
  rw [(perform_readLines s [] raws [.measure]).1, ← uncounted_readLines]
  rfl

/-- **Without a pruning a labelled function is not measured**, and its total does not cover its
    size. -/
theorem total_lt_ownSize_unpruned :
    ((fresh .x86_64 {}).performAll
        (leafRows.map .readLine ++ [Operation.measure])).graph.functions = [1] ∧
      ((fresh .x86_64 {}).performAll
          (leafRows.map .readLine ++ [Operation.measure])).graph.total 1 <
        ((fresh .x86_64 {}).performAll
          (leafRows.map .readLine ++ [Operation.measure])).graph.ownSize 1 := by
  rw [graph_unpruned, applyAll_leafRows]
  cbv

end Survey

end StackDepth

import StackDepth.Proofs.Survey.Rows

/-!
# The graph of a listing

Once all rows are read, the functions that were called but never labelled are dropped with their
calls. What is left are the labelled functions and the calls between them.

* `at?_kept`, `mem_pairs_kept`: what is left are the marked functions and the calls between them;
* `Presents`: a graph that says of a whole listing what its lines say;
* `presents_read`: so does the graph of every listing that is read without a fault.
-/

namespace StackDepth

open StackDepth.Listing

/-- The function without the mark that a label or the analysis leaves. -/
def Function.unvisited (f : Function) : Function := { f with visited := false }

theorem Function.address_unvisited (f : Function) : f.unvisited.address = f.address := rfl

namespace Survey

variable {perCall x : Nat} {lines : List Line} {g : CallGraph} {n : Node} {s : Survey}

/-! ## 1. What is dropped -/

/-- The functions that are not marked as labelled. -/
def phantoms (g : CallGraph) : List Node := g.functions.filter fun n => !g.isVisited n

/-- The graph without its phantoms. -/
def kept (g : CallGraph) : CallGraph := (phantoms g).foldl (fun g n => (g.remove n).2) g

theorem foldl_dropPhantom (ns : List Node) (s : Survey) (log : Array Event) :
    (ns.foldl (fun (s, log) n =>
      let (s, events) := dropPhantom s n
      (s, log ++ events.toArray)) (s, log)).1 =
      { s with graph := ns.foldl (fun g n => (g.remove n).2) s.graph } := by
  induction ns generalizing s log with
  | nil => rfl
  | cons n ns ih => exact ih _ _

/-- Pruning drops the phantoms and takes the marks off the others. -/
theorem prune_eq (s : Survey) : s.prune.1 =
    { s with
      graph := (kept s.graph).nodes.foldl (fun g n => g.modify n Function.unvisited) (kept s.graph)
      current := none } := by
  have hfold := foldl_dropPhantom (phantoms s.graph) s #[]
  unfold prune
  dsimp only
  rw [show s.graph.functions.filter (fun n => !s.graph.isVisited n) = phantoms s.graph from rfl,
    hfold]
  rfl

theorem mem_phantoms : n ∈ phantoms g ↔ n ∈ g.functions ∧ g.isVisited n = false := by
  rw [phantoms, List.mem_filter, Bool.not_eq_true']

/-- Where a function is, that it is dropped means that it is not marked. -/
theorem exists_phantom_iff (hg : g.WellFormed) {f : Function} (hf : g.at? x = some f) :
    (∃ n ∈ phantoms g, x = g.address n) ↔ f.visited = false := by
  obtain ⟨m, _, hm, hax, hfm⟩ := hg.find?_of_at? hf
  have hmark : g.isVisited m = f.visited := by
    rw [CallGraph.isVisited, hfm]
    rfl
  constructor
  · rintro ⟨n, hn, e⟩
    obtain ⟨hmem, hvis⟩ := mem_phantoms.mp hn
    rw [← hmark, hg.addressInj hm hmem (hax.trans e), hvis]
  · intro hv
    exact ⟨m, mem_phantoms.mpr ⟨hm, hmark.trans hv⟩, hax.symm⟩

theorem phantoms_nodup : (phantoms g).Nodup := List.Pairwise.filter _ CallGraph.functions_nodup

theorem mem_functions_of_mem_phantoms (hn : n ∈ phantoms g) : n ∈ g.functions :=
  (List.mem_filter.mp hn).1

/-- **What is left is what is marked.** -/
theorem at?_kept (hg : g.WellFormed) {f : Function} :
    (kept g).at? x = some f ↔ g.at? x = some f ∧ f.visited = true := by
  rw [kept, hg.at?_foldl_remove (fun _ => mem_functions_of_mem_phantoms) phantoms_nodup]
  split
  · rename_i h
    refine iff_of_false nofun fun ⟨hf, hv⟩ => ?_
    rw [(exists_phantom_iff hg hf).mp h] at hv
    cases hv
  · rename_i h
    refine ⟨fun hf => ⟨hf, ?_⟩, And.left⟩
    exact Bool.of_not_eq_false fun hv => h ((exists_phantom_iff hg hf).mpr hv)

/-- **The calls that are left are those between marked functions**, or from these to an unknown
    target. -/
theorem mem_pairs_kept (hg : g.WellFormed) {q : Option Nat × Option Nat} :
    q ∈ (kept g).pairs ↔ q ∈ g.pairs ∧
      ∀ y, q.1 = some y ∨ q.2 = some y → ∃ f, g.at? y = some f ∧ f.visited = true := by
  rw [kept, hg.mem_pairs_foldl_remove (fun _ => mem_functions_of_mem_phantoms) phantoms_nodup]
  refine and_congr_right fun hq => ?_
  constructor
  · intro hkept y hy
    obtain ⟨f, hf⟩ := hg.exists_at?_of_mem_pairs hq hy
    refine ⟨f, hf, Bool.of_not_eq_false fun hv => ?_⟩
    obtain ⟨n, hn, rfl⟩ := (exists_phantom_iff hg hf).mpr hv
    exact hy.elim (hkept n hn).1 (hkept n hn).2
  · intro hmarked n hn
    have hnone : ¬ ∃ f, g.at? (g.address n) = some f ∧ f.visited = true := by
      intro ⟨f, hf, hv⟩
      rw [(exists_phantom_iff hg hf).mp ⟨n, hn, rfl⟩] at hv
      cases hv
    exact ⟨fun e => hnone (hmarked _ (.inl e)), fun e => hnone (hmarked _ (.inr e))⟩

/-! ## 2. What a listing leaves -/

/-- What the graph of a whole listing holds: an entry without marks for each labelled function, and
    the calls whose target is labelled or not known. -/
structure Presents (perCall : Nat) (g : CallGraph) (lines : List Line) : Prop where
  wellFormed : g.WellFormed
  labelled : ∀ {x : Nat}, (∃ f, g.at? x = some f) ↔ Labelled lines x
  size : ∀ {x : Nat} {f : Function}, g.at? x = some f → f.size = frameBytes perCall x lines
  dynamic : ∀ {x : Nat} {f : Function}, g.at? x = some f →
    (f.dynamic = true ↔ Line.dynamic ∈ scopeOf x lines)
  unmarked : ∀ {x : Nat} {f : Function}, g.at? x = some f → f.visited = false ∧ f.imprecise = false
  pairs : ∀ {q : Option Nat × Option Nat}, q ∈ g.pairs ↔
    q ∈ callPairs lines ∧ ∀ y, q.2 = some y → Labelled lines y

/-- Nothing is called by the function pointer. -/
theorem Presents.not_calls_from_pointer (hP : Presents perCall g lines) :
    ¬ g.Calls CallGraph.pointer n := by
  intro h
  have hlive := hP.wellFormed.callsLive h
  have hmem := (hP.wellFormed.mem_pairs hlive.1 hlive.2).mpr h
  rw [CallGraph.place_pointer, hP.pairs] at hmem
  obtain ⟨x, hx⟩ := fst_of_mem_callPairs hmem.1
  cases hx

/-- The marks are those of the labels. -/
theorem Shows.marked_iff (hs : Shows perCall g lines) :
    (∃ f, g.at? x = some f ∧ f.visited = true) ↔ Labelled lines x := by
  constructor
  · intro ⟨f, hf, hv⟩
    exact (hs.entry hf).visited.mp hv
  · intro hl
    obtain ⟨f, hf⟩ := hs.labelled hl
    exact ⟨f, hf, (hs.entry hf).visited.mpr hl⟩

theorem Shows.pairs_kept (hs : Shows perCall g lines) {q : Option Nat × Option Nat} :
    q ∈ (kept g).pairs ↔ q ∈ callPairs lines ∧ ∀ y, q.2 = some y → Labelled lines y := by
  rw [mem_pairs_kept hs.wellFormed, hs.pairs, List.mem_eraseDups]
  refine and_congr_right fun hq => ?_
  simp only [hs.marked_iff]
  refine ⟨fun h y hy => h y (.inr hy), fun h y hy => hy.elim (fun hy => ?_) (h y)⟩
  -- a call stands in the scope of its caller, which is labelled
  have hq' : (some y, q.2) ∈ callPairs lines := hy ▸ hq
  obtain ⟨l, hl, _⟩ := mem_callPairs.mp hq'
  exact labelled_of_mem_scopeOf hl

theorem wellFormed_prune (hg : s.graph.WellFormed) : s.prune.1.graph.WellFormed := by
  rw [prune_eq]
  exact hg.foldl_remove.foldl_modify Function.address_unvisited

/-- Each marked function is there, without its mark. -/
theorem at?_prune (hg : s.graph.WellFormed) {f : Function} :
    s.prune.1.graph.at? x = some f ↔
      ∃ f', (s.graph.at? x = some f' ∧ f'.visited = true) ∧ f'.unvisited = f := by
  have hkept : (kept s.graph).WellFormed := hg.foldl_remove
  rw [prune_eq]
  dsimp only
  rw [hkept.at?_foldl_modify_nodes Function.address_unvisited (fun _ => rfl),
    Option.map_eq_some_iff]
  exact exists_congr fun f' => and_congr_left fun _ => at?_kept hg

/-- Each labelled function is there, without its mark. -/
theorem Shows.at?_prune (hs : Shows perCall s.graph lines) {f : Function} :
    s.prune.1.graph.at? x = some f ↔
      ∃ f', (s.graph.at? x = some f' ∧ Labelled lines x) ∧ f'.unvisited = f := by
  rw [Survey.at?_prune hs.wellFormed]
  exact exists_congr fun f' => and_congr_left fun _ =>
    and_congr_right fun hf => (hs.entry hf).visited

theorem pairs_prune (s : Survey) : s.prune.1.graph.pairs = (kept s.graph).pairs := by
  rw [prune_eq]
  exact CallGraph.pairs_foldl_modify Function.address_unvisited

/-- **The phantoms are gone, and the marks.** -/
theorem Shows.prune (hs : Shows perCall s.graph lines) :
    Presents perCall s.prune.1.graph lines := by
  refine ⟨?_, fun {x} => ⟨?_, ?_⟩, ?_, ?_, ?_, fun {q} => ?_⟩
  · exact wellFormed_prune hs.wellFormed
  · intro ⟨f, hf⟩
    obtain ⟨f', ⟨_, hl⟩, _⟩ := hs.at?_prune.mp hf
    exact hl
  · intro hl
    obtain ⟨f, hf⟩ := hs.labelled hl
    exact ⟨_, hs.at?_prune.mpr ⟨f, ⟨hf, hl⟩, rfl⟩⟩
  · intro x f hf
    obtain ⟨f', ⟨hf', _⟩, rfl⟩ := hs.at?_prune.mp hf
    exact (hs.entry hf').size
  · intro x f hf
    obtain ⟨f', ⟨hf', _⟩, rfl⟩ := hs.at?_prune.mp hf
    exact (hs.entry hf').dynamic
  · intro x f hf
    obtain ⟨f', ⟨hf', _⟩, rfl⟩ := hs.at?_prune.mp hf
    exact ⟨rfl, (hs.entry hf').imprecise⟩
  · rw [pairs_prune]
    exact hs.pairs_kept

/-! ## 3. Reading and pruning -/

theorem result_read (s : Survey) (rows : List (Option String)) :
    (s.read rows).result = (s.readRows #[] rows).result := by
  unfold read
  dsimp only
  cases hrows : (s.readRows #[] rows).result with
  | error fault => exact hrows
  | ok u => rfl

/-- A listing that is read without a fault is pruned at the end. -/
theorem survey_read {rows : List (Option String)} (h : (s.read rows).result = .ok ()) :
    (s.read rows).survey = (s.readRows #[] rows).survey.prune.1 := by
  rw [result_read] at h
  unfold read
  dsimp only
  rw [h]

theorem uncounted_prune (s : Survey) : s.prune.1.uncounted = s.uncounted.prune.1 := by
  rw [prune_eq, prune_eq]
  rfl

/-- **The verdict depends on nothing but the lines.** -/
theorem measure_read {rows : List (Option String)} (h : (s.read rows).result = .ok ()) :
    (s.read rows).survey.measure.1 =
      (s.uncounted.applyAll (linesOf s.target rows)).prune.1.measure.1 := by
  have hrows : (s.readRows #[] rows).result = .ok () := (result_read s rows).symm.trans h
  rw [survey_read h, ← uncounted_readRows hrows, ← uncounted_prune]
  rfl

/-- **The graph of a listing that is read without a fault says what its lines say**, and the survey
    keeps its policy. -/
theorem presents_read {t : Target} {p : Policy} {rows : List (Option String)}
    (h : (read { target := t, policy := p } rows).result = .ok ()) :
    (read { target := t, policy := p } rows).survey.policy = p ∧
      Presents (callBytes t p) (read { target := t, policy := p } rows).survey.graph
        (linesOf t rows) := by
  have hrows := (result_read _ rows).symm.trans h
  have hr := reads_start.readRows hrows
  rw [survey_read h]
  refine ⟨?_, hr.shows.prune⟩
  rw [prune_eq]
  exact hr.policy

end Survey

end StackDepth

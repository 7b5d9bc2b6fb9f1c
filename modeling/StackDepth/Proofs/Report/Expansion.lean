import Mathlib.Algebra.BigOperators.Group.Finset.Basic
import Mathlib.Data.List.Chain
import StackDepth.Proofs.CallGraph.Calls
import StackDepth.Proofs.Report.Outline

/-!
# Which calls the tree draws

The entries of the call tree one by one: what one of them adds to what is due, and from that what
holds of all.

* `draw`, `below`, `expandedAfter`: one entry, what is due below it, and the functions that are
  listed after it; `entries_induction`: the run;
* `openedNodes_nodup`, `opened_of_mem`: each function that shows up and has callees is opened once;
* `repeated_iff`: the entries whose callees are listed elsewhere;
* `countP_entries`, `length_entries`: how often a call is drawn, and how many entries there are;
* `treeEntries`: the entries below some roots, which are an outline (`isOutline_treeEntries`); the
  functions that show up are those that calls lead to (`mem_treeEntries_iff`), and each call of such
  a function is drawn as often as it is made (`countP_treeEntries`).
-/

namespace StackDepth.Report

variable {g : CallGraph} {d : Node × List Node} {due : List (Node × List Node)}
  {expanded : List Node} {lines : List Entry} {e : Entry} {f n m : Node}

/-! ## 1. One entry -/

/-- Callees are listed below the entry. -/
def Entry.opens (g : CallGraph) (e : Entry) : Bool :=
  !e.isCircle && !e.repeated && !(g.callees e.node).isEmpty

/-- The entry of a node with the chain above it. -/
def draw (g : CallGraph) (d : Node × List Node) (expanded : List Node) : Entry where
  node := d.1
  above := d.2
  repeated := !d.2.contains d.1 && !(g.callees d.1).isEmpty && expanded.contains d.1

/-- What is due below an entry. -/
def below (g : CallGraph) (e : Entry) : List (Node × List Node) :=
  if e.opens g then (g.callees e.node).map (·, e.path) else []

/-- The functions that are listed after an entry. -/
def expandedAfter (e : Entry) (expanded : List Node) : List Node :=
  if e.isCircle || e.repeated then expanded else e.node :: expanded

theorem repeated_draw : (draw g d expanded).repeated = true ↔
    d.1 ∉ d.2 ∧ g.callees d.1 ≠ [] ∧ d.1 ∈ expanded := by
  simp [draw, and_assoc]

theorem opens_draw : (draw g d expanded).opens g = true ↔
    d.1 ∉ d.2 ∧ g.callees d.1 ≠ [] ∧ d.1 ∉ expanded := by
  simp only [Entry.opens, Entry.isCircle, draw]
  by_cases hcircle : d.1 ∈ d.2 <;> by_cases hleaf : g.callees d.1 = [] <;>
    by_cases hlisted : d.1 ∈ expanded <;> simp [hcircle, hleaf, hlisted]

/-- A function that has callees is listed after an entry if it is before, or the entry lists it. -/
theorem mem_expandedAfter_draw (hn : g.callees n ≠ []) :
    n ∈ expandedAfter (draw g d expanded) expanded ↔
      n ∈ expanded ∨ (draw g d expanded).opens g = true ∧ d.1 = n := by
  rw [opens_draw]
  unfold expandedAfter
  split
  · rename_i hkeeps
    refine ⟨.inl, fun h => h.resolve_right fun ⟨⟨hcircle, _, hlisted⟩, _⟩ => ?_⟩
    rcases Bool.or_eq_true_iff.mp hkeeps with hc | hr
    · exact hcircle (List.contains_iff_mem.mp hc)
    · exact hlisted (repeated_draw.mp hr).2.2
  · rename_i hkeeps
    obtain ⟨hcircle, hrepeated⟩ := not_or.mp (mt Bool.or_eq_true_iff.mpr hkeeps)
    rw [List.mem_cons]
    constructor
    · rintro (rfl | hlisted)
      · have hfree : d.1 ∉ d.2 := fun hmem => hcircle (List.contains_iff_mem.mpr hmem)
        by_cases hlisted : d.1 ∈ expanded
        · exact .inl hlisted
        · exact .inr ⟨⟨hfree, hn, hlisted⟩, rfl⟩
      · exact .inl hlisted
    · rintro (hlisted | ⟨_, rfl⟩)
      · exact .inr hlisted
      · exact .inl rfl

theorem mem_below {c : Node × List Node} :
    c ∈ below g e ↔ e.opens g = true ∧ ∃ n ∈ g.callees e.node, (n, e.path) = c := by
  unfold below
  split
  · rename_i hopens
    rw [List.mem_map]
    exact (and_iff_right hopens).symm
  · rename_i hopens
    exact ⟨fun h => (List.not_mem_nil h).elim, fun h => absurd h.1 hopens⟩

/-- **One entry**, and what is due after it. -/
theorem entries_cons (g : CallGraph) (d : Node × List Node) (due : List (Node × List Node))
    (expanded : List Node) : entries g (d :: due) expanded =
      draw g d expanded :: entries g (below g (draw g d expanded) ++ due)
        (expandedAfter (draw g d expanded) expanded) := by
  obtain ⟨n, above⟩ := d
  rw [entries]
  by_cases hcircle : n ∈ above
  · simp [draw, below, expandedAfter, Entry.opens, Entry.isCircle, hcircle]
  · by_cases hleaf : g.callees n = []
    · simp [draw, below, expandedAfter, Entry.opens, Entry.isCircle, hcircle, hleaf]
    · by_cases hlisted : n ∈ expanded
      · simp [draw, below, expandedAfter, Entry.opens, Entry.isCircle, hcircle, hleaf, hlisted]
      · simp [draw, below, expandedAfter, Entry.opens, Entry.isCircle, Entry.path, hcircle, hleaf,
          hlisted]

theorem below_of_opens (h : e.opens g = true) : below g e = (g.callees e.node).map (·, e.path) :=
  if_pos h

theorem below_of_not_opens (h : ¬ e.opens g = true) : below g e = [] := if_neg h

/-- The calls that are not listed yet, with what is due, get fewer. -/
theorem due_decreases (g : CallGraph) (d : Node × List Node) (due : List (Node × List Node))
    (expanded : List Node) :
    g.unlisted (expandedAfter (draw g d expanded) expanded) +
        (below g (draw g d expanded) ++ due).length < g.unlisted expanded + (d :: due).length := by
  rw [List.length_append, List.length_cons]
  by_cases hopens : (draw g d expanded).opens g = true
  · have hnew : expanded.contains d.1 = false :=
      Bool.eq_false_iff.mpr fun h => (opens_draw.mp hopens).2.2 (List.contains_iff_mem.mp h)
    have hafter : expandedAfter (draw g d expanded) expanded = d.1 :: expanded := by
      simp only [Entry.opens, Bool.and_eq_true, Bool.not_eq_true'] at hopens
      rw [expandedAfter, hopens.1.1, hopens.1.2]
      rfl
    have hbelow : (below g (draw g d expanded)).length = (g.callees d.1).length := by
      rw [below_of_opens hopens, List.length_map]
      rfl
    have := g.unlisted_cons d.1 expanded hnew
    rw [hafter, hbelow]
    omega
  · have hle : g.unlisted (expandedAfter (draw g d expanded) expanded) ≤ g.unlisted expanded := by
      unfold expandedAfter
      split
      · exact Nat.le_refl _
      · exact g.unlisted_cons_le _ _
    rw [below_of_not_opens hopens, List.length_nil]
    omega

/-- **The run**: what holds with nothing due, and of an entry with those after it if it holds of
    those, holds of all entries. -/
@[elab_as_elim]
theorem entries_induction {motive : List (Node × List Node) → List Node → List Entry → Prop}
    (nil : ∀ expanded, motive [] expanded [])
    (cons : ∀ d due expanded lines,
      motive (below g (draw g d expanded) ++ due) (expandedAfter (draw g d expanded) expanded)
        lines →
      motive (d :: due) expanded (draw g d expanded :: lines)) :
    ∀ (due : List (Node × List Node)) (expanded : List Node),
      motive due expanded (entries g due expanded)
  | [], expanded => by
    rw [entries]
    exact nil expanded
  | d :: due, expanded => by
    rw [entries_cons]
    exact cons d due expanded _ (entries_induction nil cons _ _)
termination_by due expanded => g.unlisted expanded + due.length
decreasing_by exact due_decreases g d due expanded

/-! ## 2. The outline -/

/-- The node of an entry with the chain above it. -/
def Entry.drawn (e : Entry) : Node × List Node := (e.node, e.above)

/-- What holds of all that is due and is handed down to callees holds of all entries. -/
theorem entries_forall {P : Node × List Node → Prop}
    (hcall : ∀ n above m, P (n, above) → g.Calls n m → P (m, n :: above))
    (hdue : ∀ d ∈ due, P d) : ∀ e ∈ entries g due expanded, P e.drawn := by
  induction due, expanded using entries_induction (g := g) with
  | nil expanded => exact nofun
  | cons d due expanded lines ih =>
    have hd := hdue d List.mem_cons_self
    intro e he
    rcases List.mem_cons.mp he with rfl | he
    · exact hd
    · refine ih (fun c hc => ?_) e he
      rcases List.mem_append.mp hc with hc | hc
      · obtain ⟨_, m, hm, rfl⟩ := mem_below.mp hc
        exact hcall d.1 d.2 m hd (CallGraph.mem_callees.mp hm)
      · exact hdue c (List.mem_cons_of_mem d hc)

/-- From one that is due to the next, the chain above gets no longer. -/
def Recedes (d d' : Node × List Node) : Prop := d'.2 <:+ d.2

theorem recedes_below (h : (d :: due).IsChain Recedes) :
    (below g (draw g d expanded) ++ due).IsChain Recedes := by
  obtain ⟨hnext, hdue⟩ := List.isChain_cons.mp h
  refine List.isChain_append.mpr ⟨?_, hdue, fun c hc d' hd' => ?_⟩
  · unfold below
    split
    · exact (List.isChain_map _).mpr (List.pairwise_of_forall fun _ _ => List.suffix_refl _).isChain
    · exact .nil
  · obtain ⟨_, m, _, rfl⟩ := mem_below.mp (List.mem_of_getLast? hc)
    exact (hnext d' hd').trans (List.suffix_cons _ _)

/-- The entries of what is due: the first is of the first that is due, and from one to the next the
    chain above goes on with the first if that is opened. -/
structure Unfolds (g : CallGraph) (due : List (Node × List Node)) (lines : List Entry) : Prop where
  head : (lines[0]?).map Entry.drawn = due[0]?
  next : ∀ k e e', lines[k]? = some e → lines[k + 1]? = some e' →
    e'.above <:+ e.above ∨ e.opens g = true ∧ e'.above = e.path
  opens : ∀ k e, lines[k]? = some e → e.opens g = true →
    ∃ e', lines[k + 1]? = some e' ∧ e'.above = e.path

/-- What follows an entry that is opened. -/
theorem Unfolds.child (h : Unfolds g (below g e ++ due) lines) (hopens : e.opens g = true) :
    ∃ e', lines[0]? = some e' ∧ e'.above = e.path := by
  have hhead := h.head
  rw [below_of_opens hopens] at hhead
  cases hcallees : g.callees e.node with
  | nil =>
    rw [Entry.opens, hcallees] at hopens
    exact absurd hopens (by simp)
  | cons m ms =>
    rw [hcallees] at hhead
    obtain ⟨e', he', hdrawn⟩ := Option.map_eq_some_iff.mp hhead
    exact ⟨e', he', congrArg Prod.snd hdrawn⟩

/-- **One entry more.** -/
theorem Unfolds.cons (h : Unfolds g (below g e ++ due) lines)
    (hdue : ∀ d' ∈ due.head?, Recedes e.drawn d') : Unfolds g (e.drawn :: due) (e :: lines) where
  head := rfl
  next k e₁ e₂ h₁ h₂ := by
    cases k with
    | zero =>
      cases h₁
      by_cases hopens : e.opens g = true
      · obtain ⟨e', he', hpath⟩ := h.child hopens
        cases he'.symm.trans h₂
        exact .inr ⟨hopens, hpath⟩
      · have hhead := h.head
        rw [below_of_not_opens hopens, List.nil_append,
          show lines[0]? = some e₂ from h₂, Option.map_some] at hhead
        exact .inl (hdue e₂.drawn (List.head?_eq_getElem? ▸ hhead.symm))
    | succ k => exact h.next k e₁ e₂ h₁ h₂
  opens k e₁ h₁ hopens := by
    cases k with
    | zero =>
      cases h₁
      exact h.child hopens
    | succ k => exact h.opens k e₁ h₁ hopens

theorem unfolds_entries (hdue : due.IsChain Recedes) : Unfolds g due (entries g due expanded) := by
  induction due, expanded using entries_induction (g := g) with
  | nil expanded => exact ⟨rfl, nofun, nofun⟩
  | cons d due expanded lines ih =>
    exact (ih (recedes_below hdue)).cons (List.isChain_cons.mp hdue).1

/-- The entries at the left edge are those that are due there. -/
theorem filter_entries :
    ((entries g due expanded).filter (fun e => e.above.isEmpty)).map Entry.node =
      (due.filter (fun d => d.2.isEmpty)).map Prod.fst := by
  induction due, expanded using entries_induction (g := g) with
  | nil expanded => rfl
  | cons d due expanded lines ih =>
    have hbelow : (below g (draw g d expanded)).filter (fun d => d.2.isEmpty) = [] := by
      refine List.filter_eq_nil_iff.mpr fun c hc => ?_
      obtain ⟨_, m, _, rfl⟩ := mem_below.mp hc
      exact Bool.false_ne_true
    rw [List.filter_append, hbelow, List.nil_append] at ih
    rw [List.filter_cons, List.filter_cons]
    change (List.map Entry.node (if d.2.isEmpty = true then _ else _)) = _
    split
    · rw [List.map_cons, List.map_cons, ih]
      rfl
    · exact ih

/-! ## 3. Opened once -/

/-- The functions of the entries that list callees. -/
def openedNodes (g : CallGraph) (lines : List Entry) : List Node :=
  (lines.filter (Entry.opens g)).map Entry.node

theorem openedNodes_cons : openedNodes g (e :: lines) =
    if e.opens g then e.node :: openedNodes g lines else openedNodes g lines := by
  unfold openedNodes
  rw [List.filter_cons]
  split
  · rfl
  · rfl

theorem mem_openedNodes : n ∈ openedNodes g lines ↔
    ∃ e ∈ lines, e.opens g = true ∧ e.node = n := by
  simp only [openedNodes, List.mem_map, List.mem_filter, and_assoc]

theorem callees_ne_nil_of_opens (h : e.opens g = true) : g.callees e.node ≠ [] := by
  intro hnil
  rw [Entry.opens, hnil] at h
  exact absurd h (by simp)

/-- **No function is opened twice**, nor one that was listed before. -/
theorem openedNodes_nodup : (openedNodes g (entries g due expanded)).Nodup ∧
    ∀ n ∈ openedNodes g (entries g due expanded), n ∉ expanded := by
  induction due, expanded using entries_induction (g := g) with
  | nil expanded => exact ⟨List.nodup_nil, nofun⟩
  | cons d due expanded lines ih =>
    obtain ⟨hnodup, hnew⟩ := ih
    have hnot : ∀ n ∈ openedNodes g lines,
        ¬ (n ∈ expanded ∨ (draw g d expanded).opens g = true ∧ d.1 = n) := by
      intro n hn
      obtain ⟨e, _, hopens, rfl⟩ := mem_openedNodes.mp hn
      rw [← mem_expandedAfter_draw (callees_ne_nil_of_opens hopens)]
      exact hnew _ hn
    rw [openedNodes_cons]
    split
    · rename_i hopens
      refine ⟨List.nodup_cons.mpr ⟨fun hn => hnot _ hn (.inr ⟨hopens, rfl⟩), hnodup⟩, ?_⟩
      intro n hn
      rcases List.mem_cons.mp hn with rfl | hn
      · exact (opens_draw.mp hopens).2.2
      · exact fun hlisted => hnot n hn (.inl hlisted)
    · exact ⟨hnodup, fun n hn hlisted => hnot n hn (.inl hlisted)⟩

/-- The chains above what is due have listed functions only. -/
def Listed (due : List (Node × List Node)) (expanded : List Node) : Prop :=
  ∀ d ∈ due, ∀ n ∈ d.2, n ∈ expanded

theorem subset_expandedAfter : expanded ⊆ expandedAfter e expanded := by
  unfold expandedAfter
  split
  · exact List.Subset.refl _
  · exact List.subset_cons_self _ _

theorem Listed.below (h : Listed (d :: due) expanded) :
    Listed (below g (draw g d expanded) ++ due) (expandedAfter (draw g d expanded) expanded) := by
  intro c hc n hn
  rcases List.mem_append.mp hc with hc | hc
  · obtain ⟨hopens, m, _, rfl⟩ := mem_below.mp hc
    rcases List.mem_cons.mp hn with rfl | hn
    · exact (mem_expandedAfter_draw (callees_ne_nil_of_opens hopens)).mpr (.inr ⟨hopens, rfl⟩)
    · exact subset_expandedAfter (h d List.mem_cons_self n hn)
  · exact subset_expandedAfter (h c (List.mem_cons_of_mem d hc) n hn)

/-- **A function that shows up and has callees is opened**, unless it was listed before. -/
theorem opened_of_mem (hdue : Listed due expanded) (hn : g.callees n ≠ [])
    (hmem : n ∈ (entries g due expanded).map Entry.node) :
    n ∈ expanded ∨ n ∈ openedNodes g (entries g due expanded) := by
  induction due, expanded using entries_induction (g := g) with
  | nil expanded => cases hmem
  | cons d due expanded lines ih =>
    rw [mem_openedNodes]
    rcases List.mem_cons.mp hmem with rfl | hmem
    · by_cases hcircle : d.1 ∈ d.2
      · exact .inl (hdue d List.mem_cons_self _ hcircle)
      · by_cases hlisted : d.1 ∈ expanded
        · exact .inl hlisted
        · exact .inr ⟨_, List.mem_cons_self, opens_draw.mpr ⟨hcircle, hn, hlisted⟩, rfl⟩
    · rcases ih hdue.below hmem with hlisted | hopened
      · refine ((mem_expandedAfter_draw hn).mp hlisted).imp_right ?_
        rintro ⟨hopens, rfl⟩
        exact ⟨_, List.mem_cons_self, hopens, rfl⟩
      · obtain ⟨e, he, hopens, rfl⟩ := mem_openedNodes.mp hopened
        exact .inr ⟨e, List.mem_cons_of_mem _ he, hopens, rfl⟩

/-- **The entries whose callees are listed elsewhere** are those of functions that are not in the
    chain above, have callees, and were listed before or are opened further up. -/
theorem repeated_iff {i : Nat} (he : (entries g due expanded)[i]? = some e) :
    e.repeated = true ↔ e.node ∉ e.above ∧ g.callees e.node ≠ [] ∧
      (e.node ∈ expanded ∨ ∃ k < i, ∃ q, (entries g due expanded)[k]? = some q ∧
        q.node = e.node ∧ q.opens g = true) := by
  induction due, expanded using entries_induction (g := g) generalizing i with
  | nil expanded => cases he
  | cons d due expanded lines ih =>
    cases i with
    | zero =>
      cases he
      refine repeated_draw.trans (and_congr_right fun _ => and_congr_right fun _ => ?_)
      exact ⟨.inl, fun h => h.resolve_right fun ⟨k, hk, _⟩ => absurd hk (Nat.not_lt_zero k)⟩
    | succ i =>
      rw [ih he]
      refine and_congr_right fun _ => and_congr_right fun hcallees => ?_
      rw [mem_expandedAfter_draw hcallees, or_assoc]
      refine or_congr_right ⟨?_, ?_⟩
      · rintro (⟨hopens, hnode⟩ | ⟨k, hk, q, hq⟩)
        · exact ⟨0, Nat.succ_pos i, _, rfl, hnode, hopens⟩
        · exact ⟨k + 1, Nat.succ_lt_succ hk, q, hq⟩
      · rintro ⟨k, hk, q, hq, hnode, hopens⟩
        cases k with
        | zero =>
          cases hq
          exact .inl ⟨hopens, hnode⟩
        | succ k => exact .inr ⟨k, Nat.lt_of_succ_lt_succ hk, q, hq, hnode, hopens⟩

/-! ## 4. Calls -/

/-- Below `f` as its caller stands `m`. -/
def isCall (f m : Node) (d : Node × List Node) : Bool := d.1 == m && d.2.head? == some f

theorem countP_below : (below g e).countP (isCall f m) =
    if e.opens g = true ∧ e.node = f then (g.callees f).count m else 0 := by
  by_cases hopens : e.opens g = true
  · rw [below_of_opens hopens, List.countP_map]
    by_cases hnode : e.node = f
    · rw [if_pos ⟨hopens, hnode⟩, hnode, List.count]
      refine List.countP_congr fun c _ => ?_
      simp [isCall, Entry.path, hnode]
    · rw [if_neg fun h => hnode h.2, List.countP_eq_zero]
      intro c _
      simp [isCall, Entry.path, hnode]
  · rw [below_of_not_opens hopens, if_neg fun h => hopens h.1, List.countP_nil]

/-- **How often a call is drawn**: as often as it is due, and once more for each time that it is
    made and its caller is opened. -/
theorem countP_entries : (entries g due expanded).countP (isCall f m ∘ Entry.drawn) =
    due.countP (isCall f m) +
      (openedNodes g (entries g due expanded)).count f * (g.callees f).count m := by
  induction due, expanded using entries_induction (g := g) with
  | nil expanded => simp [openedNodes]
  | cons d due expanded lines ih =>
    rw [List.countP_append, countP_below] at ih
    rw [List.countP_cons, ih, List.countP_cons, openedNodes_cons]
    change _ + (if isCall f m d then 1 else 0) = _
    by_cases hopens : (draw g d expanded).opens g = true
    · by_cases hnode : (draw g d expanded).node = f
      · rw [if_pos ⟨hopens, hnode⟩, if_pos hopens, hnode, List.count_cons_self, Nat.succ_mul]
        omega
      · rw [if_neg fun h => hnode h.2, if_pos hopens, List.count_cons_of_ne hnode]
        omega
    · rw [if_neg fun h => hopens h.1, if_neg hopens]
      omega

/-- **How many entries there are**: one for all that is due, and one for each callee of what is
    opened. -/
theorem length_entries : (entries g due expanded).length = due.length +
    ((openedNodes g (entries g due expanded)).flatMap g.callees).length := by
  induction due, expanded using entries_induction (g := g) with
  | nil expanded => rfl
  | cons d due expanded lines ih =>
    rw [List.length_append] at ih
    rw [List.length_cons, ih, List.length_cons, openedNodes_cons]
    by_cases hopens : (draw g d expanded).opens g = true
    · rw [if_pos hopens, List.flatMap_cons, List.length_append, below_of_opens hopens,
        List.length_map]
      omega
    · rw [if_neg hopens, below_of_not_opens hopens, List.length_nil]
      omega

theorem exists_entry_of_due (hd : d ∈ due) : ∃ e ∈ entries g due expanded, e.drawn = d := by
  induction due, expanded using entries_induction (g := g) with
  | nil expanded => cases hd
  | cons d' due expanded lines ih =>
    rcases List.mem_cons.mp hd with rfl | hd
    · exact ⟨_, List.mem_cons_self, rfl⟩
    · obtain ⟨e, he, hdrawn⟩ := ih (List.mem_append_right _ hd)
      exact ⟨e, List.mem_cons_of_mem _ he, hdrawn⟩

/-! ## 5. Below the roots -/

variable {roots : List Node}

/-- The entries below the nodes `roots`. -/
def treeEntries (g : CallGraph) (roots : List Node) : List Entry := entries g (roots.map (·, [])) []

/-- **The tree is an outline**, whose opened lines are those that list callees. -/
theorem isOutline_treeEntries (g : CallGraph) (roots : List Node) :
    IsOutline (fun e => e.opens g = true) (treeEntries g roots) := by
  have hdue : (roots.map (·, ([] : List Node))).IsChain Recedes :=
    (List.isChain_map _).mpr (List.pairwise_of_forall fun _ _ => List.suffix_refl _).isChain
  have h : Unfolds g _ (treeEntries g roots) := unfolds_entries hdue
  refine ⟨fun e he => ?_, h.next, h.opens⟩
  have hhead := h.head
  rw [he, Option.map_some] at hhead
  obtain ⟨n, _, hn⟩ := List.mem_map.mp (List.mem_of_getElem? hhead.symm)
  exact (congrArg Prod.snd hn).symm

/-- The roots are what stands at the left edge. -/
theorem filter_treeEntries :
    ((treeEntries g roots).filter (fun e => e.above.isEmpty)).map Entry.node = roots := by
  have hroots : (roots.map (·, ([] : List Node))).filter (fun d => d.2.isEmpty) =
      roots.map (·, []) := by
    refine List.filter_eq_self.mpr fun d hd => ?_
    obtain ⟨n, _, rfl⟩ := List.mem_map.mp hd
    rfl
  rw [treeEntries, filter_entries, hroots, List.map_map]
  exact List.map_id roots

/-- The function of an entry and the chain above it, each called by the next. -/
theorem isChain_path (he : e ∈ treeEntries g roots) : e.path.IsChain (fun a b => g.Calls b a) := by
  refine entries_forall (P := fun d => (d.1 :: d.2).IsChain fun a b => g.Calls b a) ?_ ?_ e he
  · intro n above m hchain hcall
    exact List.isChain_cons_cons.mpr ⟨hcall, hchain⟩
  · intro d hd
    obtain ⟨n, _, rfl⟩ := List.mem_map.mp hd
    exact List.isChain_singleton n

theorem listed_roots : Listed (roots.map (·, [])) [] := by
  intro d hd n hn
  obtain ⟨_, _, rfl⟩ := List.mem_map.mp hd
  cases hn

/-- Nothing that stands at the left edge is drawn as a call. -/
theorem countP_roots : (roots.map (·, ([] : List Node))).countP (isCall f m) = 0 := by
  rw [List.countP_map, List.countP_eq_zero]
  intro n _
  simp [isCall]

/-- **The functions that are opened** are those that show up and have callees. -/
theorem mem_openedNodes_iff : n ∈ openedNodes g (treeEntries g roots) ↔
    n ∈ (treeEntries g roots).map Entry.node ∧ g.callees n ≠ [] := by
  constructor
  · intro hn
    obtain ⟨e, he, hopens, rfl⟩ := mem_openedNodes.mp hn
    exact ⟨List.mem_map_of_mem he, callees_ne_nil_of_opens hopens⟩
  · rintro ⟨hmem, hn⟩
    exact (opened_of_mem listed_roots hn hmem).resolve_left (List.not_mem_nil)

/-- **A call of a function that shows up is drawn as often as it is made.** -/
theorem countP_treeEntries (hf : f ∈ (treeEntries g roots).map Entry.node) :
    (treeEntries g roots).countP (isCall f m ∘ Entry.drawn) = (g.callees f).count m := by
  rw [treeEntries, countP_entries, countP_roots, Nat.zero_add]
  by_cases hcallees : g.callees f = []
  · rw [hcallees, List.count_nil, Nat.mul_zero]
  · have hopened := mem_openedNodes_iff.mpr ⟨hf, hcallees⟩
    rw [treeEntries] at hopened
    rw [List.count_eq_one_of_mem openedNodes_nodup.1 hopened, Nat.one_mul]

/-- **The functions that show up are those that calls lead to.** -/
theorem mem_treeEntries_iff : n ∈ (treeEntries g roots).map Entry.node ↔
    ∃ r ∈ roots, g.Reaches r n := by
  constructor
  · intro hn
    obtain ⟨e, he, rfl⟩ := List.mem_map.mp hn
    refine entries_forall (P := fun d => ∃ r ∈ roots, g.Reaches r d.1) ?_ ?_ e he
    · rintro n above m ⟨r, hr, hreach⟩ hcall
      exact ⟨r, hr, hreach.tail hcall⟩
    · intro d hd
      obtain ⟨r, hr, rfl⟩ := List.mem_map.mp hd
      exact ⟨r, hr, .refl⟩
  · rintro ⟨r, hr, hreach⟩
    induction hreach with
    | refl =>
      have hdue : (r, []) ∈ roots.map (·, ([] : List Node)) := List.mem_map_of_mem hr
      obtain ⟨e, he, hdrawn⟩ := exists_entry_of_due hdue
      exact List.mem_map.mpr ⟨e, he, congrArg Prod.fst hdrawn⟩
    | tail _ hcall ih =>
      have hpos := List.count_pos_iff.mpr (CallGraph.mem_callees.mpr hcall)
      rw [← countP_treeEntries ih, List.countP_pos_iff] at hpos
      obtain ⟨e, he, hdrawn⟩ := hpos
      exact List.mem_map.mpr ⟨e, he, beq_iff_eq.mp (Bool.and_eq_true_iff.mp hdrawn).1⟩

/-- **The number of entries**: one for each root, and one for each call of what shows up. -/
theorem length_treeEntries : (treeEntries g roots).length = roots.length +
    ∑ n ∈ ((treeEntries g roots).map Entry.node).toFinset, (g.callees n).length := by
  have hsub : (openedNodes g (treeEntries g roots)).toFinset ⊆
      ((treeEntries g roots).map Entry.node).toFinset := by
    intro n hn
    rw [List.mem_toFinset] at hn ⊢
    exact (mem_openedNodes_iff.mp hn).1
  have hleaf : ∀ n ∈ ((treeEntries g roots).map Entry.node).toFinset,
      n ∉ (openedNodes g (treeEntries g roots)).toFinset → (g.callees n).length = 0 := by
    intro n hn hnot
    rw [List.mem_toFinset] at hn hnot
    refine List.length_eq_zero_iff.mpr (Classical.byContradiction fun hne => ?_)
    exact hnot (mem_openedNodes_iff.mpr ⟨hn, hne⟩)
  rw [← Finset.sum_subset hsub hleaf, treeEntries, List.sum_toFinset _ openedNodes_nodup.1,
    length_entries, List.length_map, List.length_flatMap]

end StackDepth.Report

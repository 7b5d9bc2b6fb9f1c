import StackDepth.Proofs.Analysis.CycleReport
import StackDepth.Proofs.Report.Expansion
import StackDepth.Proofs.Survey.Refusals

/-!
# The call tree

Every call that can be reached from a regarded entrance is drawn once, below its caller.

* `CallGraph.Orderly`: no call is there twice, and none is made through the function pointer; in
  every survey that operations lead to (`Survey.Reached.orderly`), where the function pointer
  therefore takes no part in a measurement (`Survey.Reached.measure_eq`);
* `isCycle_of_recursive`: the analysis marks what calls lead back to;
* `startsWith_entryLine`, `marks_entryLine`: what a line starts with, and the marks at its end;
* `IsCallTree`: what the lines are; `tree_shows_each_call_once`: the tree of every survey that was
  measured.
-/

namespace StackDepth

open Relation (TransGen)

/-! ## 1. Each call once -/

namespace CallGraph

variable {g h : CallGraph} {a b n : Node}

/-- Each call is there once, and none is made through the function pointer. -/
structure Orderly (g : CallGraph) : Prop where
  distinct : g.calls.Pairwise fun c c' => ¬ (c.caller = c'.caller ∧ c.callee = c'.callee)
  caller : ∀ c ∈ g.calls, c.caller ≠ pointer

theorem Orderly.congr (hg : g.Orderly) (e : h.calls = g.calls) : h.Orderly := by
  refine ⟨?_, ?_⟩
  · rw [e]
    exact hg.distinct
  · rw [e]
    exact hg.caller

theorem Orderly.insert (hg : g.Orderly) (hwf : g.WellFormed) (f : Function) :
    (g.insert f).2.Orderly := by
  rcases hwf.insert_cases f with ⟨n, _, e⟩ | ⟨_, n, h, e, hadd⟩
  · rw [e]
    exact hg
  · rw [e]
    exact hg.congr hadd.calls

theorem Orderly.addCall (hg : g.Orderly) (ha : a ≠ pointer) : (g.addCall a b).2.Orderly := by
  unfold CallGraph.addCall
  split
  · exact hg
  · rename_i hnew
    have hdistinct : ∀ c ∈ g.calls, ¬ (a = c.caller ∧ b = c.callee) := by
      rintro c hc ⟨ha, hb⟩
      exact hnew (hasCall_iff.mpr ⟨c, hc, ha.symm, hb.symm⟩)
    split
    all_goals
      refine ⟨List.pairwise_cons.mpr ⟨hdistinct, hg.distinct⟩, fun c hc => ?_⟩
      rcases List.mem_cons.mp hc with rfl | hc
      · exact ha
      · exact hg.caller c hc

theorem Orderly.remove (hg : g.Orderly) (n : Node) : (g.remove n).2.Orderly := by
  by_cases hn : n = pointer
  · subst hn
    exact hg
  · cases hl : g.isLive n with
    | false =>
      rw [remove_of_not_live hl]
      exact hg
    | true =>
      refine ⟨?_, ?_⟩
      · rw [calls_remove hn hl]
        exact hg.distinct.filter _
      · rw [calls_remove hn hl]
        exact fun c hc => hg.caller c (List.mem_filter.mp hc).1

theorem Orderly.foldl_remove {ns : List Node} (hg : g.Orderly) :
    (ns.foldl (fun g n => (g.remove n).2) g).Orderly := by
  induction ns generalizing g with
  | nil => exact hg
  | cons n ns ih => exact ih (hg.remove n)

theorem calls_foldl_modify {ns : List Node} {f : Function → Function} :
    (ns.foldl (fun g n => g.modify n f) g).calls = g.calls := by
  induction ns generalizing g with
  | nil => rfl
  | cons n ns ih => exact ih

theorem Orderly.callees_nodup (hg : g.Orderly) (n : Node) : (g.callees n).Nodup := by
  unfold callees recentCallees
  rw [List.nodup_reverse, List.Nodup, List.pairwise_map, List.pairwise_filter]
  refine hg.distinct.imp fun hne hc hc' he => ?_
  exact hne ⟨(beq_iff_eq.mp hc).trans (beq_iff_eq.mp hc').symm, he⟩

theorem Orderly.not_calls_from_pointer (hg : g.Orderly) (b : Node) : ¬ g.Calls pointer b := by
  rintro ⟨c, hc, hcaller, _⟩
  exact hg.caller c hc hcaller

/-- **The analysis marks what calls lead back to.** -/
theorem isCycle_of_recursive (p : Policy) (hg : g.WellFormed) (hn : g.Recursive n) :
    (g.analyse p).2.1.isCycle n = true := by
  have e := Analysis.agrees_walkAll p g
  have hmem : n ∈ g.cycles.flatten := hg.mem_flatten_cycles.mpr hn
  rw [analyse_graph, isCycle_spreadImprecision, walked, isCycle_markCycle, e.cycles, e.isLive]
  exact .inr ⟨hmem, isLive_of_mem_cycles hmem⟩

end CallGraph

namespace Survey

open StackDepth.Listing

variable {s : Survey} {labels : List Nat}

theorem Tracks.orderly_applyIn (h : Tracks labels s) (ho : s.graph.Orderly) {n : Node}
    (hn : s.current = some n) (l : Line) : (s.applyIn n l).graph.Orderly := by
  obtain ⟨x, _, hfind⟩ := h.current n hn
  have hlive : ∀ {g : CallGraph}, g.find? x = some n → n ≠ CallGraph.pointer ∧ g.isLive n = true :=
    fun hf => CallGraph.mem_functions.mp (CallGraph.find?_some hf).1
  refine (applyIn_induction (P := fun g => (g.WellFormed ∧ g.find? x = some n) ∧ g.Orderly)
    (fun g hg => hg.1.1) ?_ ?_ ?_ ⟨⟨h.settled.wellFormed, hfind⟩, ho⟩ l).2
  · rintro g address name ⟨⟨hwf, hf⟩, hg⟩
    exact ⟨⟨hwf.insert _, hwf.find?_insert_of_some _ hf⟩, hg.insert hwf _⟩
  · rintro g m ⟨⟨hwf, hf⟩, hg⟩ hm
    exact ⟨⟨hwf.addCall (hlive hf).2 hm, CallGraph.find?_addCall.trans hf⟩,
      hg.addCall (hlive hf).1⟩
  · rintro g k ⟨⟨hwf, hf⟩, hg⟩ hk
    exact ⟨⟨hwf.modify n fun f => (hk f).1, (CallGraph.find?_modify fun f => (hk f).1).trans hf⟩,
      hg.congr rfl⟩

/-- **One line.** -/
theorem Tracks.orderly_apply (h : Tracks labels s) (ho : s.graph.Orderly) (l : Line) :
    (s.apply l).1.graph.Orderly := by
  refine @apply_induction s (fun _ s => s.graph.Orderly) labels ho ?_ ?_ ?_ l
  · intro s' hgraph _
    rw [hgraph]
    exact ho
  · intro x name
    have hins := ho.insert h.settled.wellFormed (Function.named x name)
    rw [enter_eq]
    exact hins.congr rfl
  · exact fun n hn => h.orderly_applyIn ho hn

theorem orderly_prune (ho : s.graph.Orderly) : s.prune.1.graph.Orderly := by
  have hkept : (kept s.graph).Orderly := ho.foldl_remove
  rw [prune_eq]
  exact hkept.congr CallGraph.calls_foldl_modify

/-- **One operation**, with or without a fault. -/
theorem Tracks.orderly_perform (h : Tracks labels s) (ho : s.graph.Orderly) (op : Operation) :
    (s.perform op).graph.Orderly := by
  by_cases hop : op = .measure
  · rw [hop]
    exact ho.congr (CallGraph.agrees_analyse s.policy s.graph).calls
  · refine (perform_induction (I := fun labels s => Tracks labels s ∧ s.graph.Orderly) ?_ ?_ ?_
      ⟨h, ho⟩ hop).2
    · intro labels s
      exact and_congr_left fun _ => tracks_uncounted
    · exact fun l hs => ⟨hs.1.apply l, hs.1.orderly_apply hs.2 l⟩
    · exact fun hs => ⟨hs.1.prune, orderly_prune hs.2⟩

/-- **In every survey that operations lead to, each call is there once** and has a function as its
    caller. -/
theorem Reached.orderly (h : Reached s) : s.graph.Orderly := by
  induction h with
  | fresh t p => exact ⟨List.Pairwise.nil, nofun⟩
  | perform s op hs ih =>
    obtain ⟨labels, htracks⟩ := hs.tracks
    exact htracks.orderly_perform ih op

/-- **Whatever operations come before, a measurement takes the function pointer for no part of any
    cycle**: it finds its groups among the functions alone, and what leads to an imprecise function
    by one search. -/
theorem Reached.measure_eq (h : Reached s) :
    s.measure.1.cycles = s.graph.functionCycles ∧
      s.measure.2.1.graph = ((Analysis.walkAll s.policy s.graph).graph.markCycle
        s.graph.functionCycles.flatten).spreadAtOnce := by
  obtain ⟨labels, htracks⟩ := h.tracks
  have hwf := htracks.settled.wellFormed
  have hp := h.orderly.not_calls_from_pointer
  have hcycles := hwf.cycles_eq_functionCycles hp
  refine ⟨(CallGraph.cycles_analyse s.policy s.graph).trans hcycles, ?_⟩
  have ewalk := Analysis.agrees_walkAll s.policy s.graph
  have e := ewalk.trans (CallGraph.agrees_markCycle s.graph.functionCycles.flatten)
  have hpointer : ∀ b, ¬ ((Analysis.walkAll s.policy s.graph).graph.markCycle
      s.graph.functionCycles.flatten).Calls CallGraph.pointer b := by
    rw [e.calls_eq]
    exact hp
  rw [← (e.wellFormed hwf).spreadImprecision_eq_spreadAtOnce hpointer, ← hcycles, ← ewalk.cycles]
  rfl

end Survey

/-! ## 2. Marks at the end of a line -/

namespace Report

variable {g : CallGraph} {e : Entry} {f : Function} {text start : String}

def EndsIn (text mark : String) : Prop := mark.toList <:+ text.toList

def StartsWith (text start : String) : Prop := start.toList <+: text.toList

theorem startsWith_self (text : String) : StartsWith text text := List.prefix_refl _

theorem StartsWith.append (h : StartsWith text start) (more : String) :
    StartsWith (text ++ more) start := by
  rw [StartsWith, String.toList_append]
  exact h.trans (List.prefix_append _ _)

theorem StartsWith.append_left (h : StartsWith text start) (before : String) :
    StartsWith (before ++ text) (before ++ start) := by
  rw [StartsWith, String.toList_append, String.toList_append]
  exact (List.prefix_append_right_inj _).mpr h

/-- The line has the mark of a circle, which only the mark of a dynamic frame can follow. -/
def CarriesCircle (text : String) : Prop :=
  EndsIn text " CIRCLE\n" ∨ EndsIn text " CIRCLE DYNAMIC\n"

/-- The text ends in a character that no mark ends in. -/
def EndsPlain (text : String) : Prop :=
  ∃ before x, text.toList = before ++ [x] ∧ x ∉ ['C', 'E', '.']

theorem EndsPlain.append (h : EndsPlain text) (before : String) : EndsPlain (before ++ text) := by
  obtain ⟨chars, x, htext, hx⟩ := h
  refine ⟨before.toList ++ chars, x, ?_, hx⟩
  rw [String.toList_append, htext, List.append_assoc]

theorem endsPlain_decimal (n : Nat) : EndsPlain (Text.decimal n) := by
  have hne : Nat.toDigits 10 n ≠ [] := Text.toDigits_ne_nil (by decide)
  have hdigit : ∀ d < 10, Nat.digitChar d ∉ ['C', 'E', '.'] := by decide
  refine ⟨(Nat.toDigits 10 n).dropLast, (Nat.toDigits 10 n).getLast hne, ?_, ?_⟩
  · rw [Text.decimal, String.toList_ofList, List.dropLast_concat_getLast]
  · exact Text.of_mem_toDigits (P := (· ∉ ['C', 'E', '.'])) (by decide) hdigit
      (List.getLast_mem hne)

theorem endsPlain_bound (b : Bound) : EndsPlain b.text := by
  cases b with
  | exact n => exact endsPlain_decimal n
  | atLeast n => exact (endsPlain_decimal n).append ">"

theorem endsPlain_describe (f : Function) (circle : Bool) : EndsPlain (describe f circle) := by
  unfold describe
  split
  · rw [String.append_empty]
    exact (endsPlain_bound f.bound).append _
  · refine EndsPlain.append ⟨(" (" ++ Text.decimal f.size).toList, ')', ?_, by decide⟩ _
    rw [String.toList_append]
    rfl

/-- A text with marks and the end of the line. -/
def withMarks (text : String) (circle dynamic again : Bool) : String :=
  text ++ (if circle then " CIRCLE" else "") ++ (if dynamic then " DYNAMIC" else "") ++
    (if again then " ..." else "") ++ "\n"

/-- **The marks can be told from the end of the line**, as no circle is also marked as repeated. -/
theorem marks_iff (h : EndsPlain text) {circle dynamic again : Bool}
    (hone : circle = true → again = false) :
    (EndsIn (withMarks text circle dynamic again) " ...\n" ↔ again = true) ∧
      (CarriesCircle (withMarks text circle dynamic again) ↔ circle = true) := by
  obtain ⟨before, x, htext, hx⟩ := h
  obtain ⟨hC, hE, hdot⟩ : 'C' ≠ x ∧ 'E' ≠ x ∧ '.' ≠ x := by simpa [eq_comm] using hx
  -- read from the end, each mark differs from what stands there in its place
  simp only [withMarks, CarriesCircle, EndsIn, ← List.reverse_prefix, String.toList_append,
    List.reverse_append, htext]
  cases circle <;> cases dynamic <;> cases again <;> simp [hC, hE, hdot] at hone ⊢

/-- How a node is called in the tree. -/
def title (g : CallGraph) (n : Node) : String :=
  if n == CallGraph.pointer then "Unknown Function Pointer"
  else Text.hexAddress (g.address n) ++ " " ++ g.name n

/-- What stands before the marks. -/
def bodyLine (f : Function) (e : Entry) : String :=
  indent e.depth ++
    (if e.node == CallGraph.pointer then "Unknown Function Pointer" else describe f e.isCircle)

theorem entryLine_eq (hf : g.function? e.node = some f) : entryLine g e =
    withMarks (bodyLine f e) (f.cycle && e.isCircle) f.dynamic e.repeated := by
  rw [entryLine, hf]
  rfl

theorem endsPlain_bodyLine (f : Function) (e : Entry) : EndsPlain (bodyLine f e) := by
  refine EndsPlain.append ?_ _
  split
  · exact ⟨"Unknown Function Pointe".toList, 'r', rfl, by decide⟩
  · exact endsPlain_describe f e.isCircle

/-- **A line starts with its depth and its function.** -/
theorem startsWith_entryLine (hf : g.function? e.node = some f) :
    StartsWith (entryLine g e) (indent e.depth ++ title g e.node) := by
  have hbody : StartsWith (bodyLine f e) (indent e.depth ++ title g e.node) := by
    refine StartsWith.append_left ?_ _
    unfold title
    split
    · exact List.prefix_refl _
    · rw [CallGraph.address_of_function? hf, CallGraph.name, hf]
      exact ((startsWith_self _).append _).append _ |>.append _
  rw [entryLine_eq hf]
  exact (((hbody.append _).append _).append _).append _

/-- **The marks of a line**, where only what is marked as lying on a cycle is drawn as a circle. -/
theorem marks_entryLine (hf : g.function? e.node = some f)
    (hcycle : e.isCircle = true → f.cycle = true) (hone : e.isCircle = true → e.repeated = false) :
    (EndsIn (entryLine g e) " ...\n" ↔ e.repeated = true) ∧
      (CarriesCircle (entryLine g e) ↔ e.isCircle = true) := by
  have hcircle : (f.cycle && e.isCircle) = e.isCircle := by
    cases hc : e.isCircle with
    | false => exact Bool.and_false _
    | true => rw [hcycle hc, Bool.and_true]
  rw [entryLine_eq hf, hcircle]
  exact marks_iff (endsPlain_bodyLine f e) hone

/-! ## 3. Lines -/

/-- What counts one is at one place. -/
theorem existsUnique_of_countP {α : Type} {l : List α} {p : α → Bool} (h : l.countP p = 1) :
    ∃! i : Nat, ∃ a, l[i]? = some a ∧ p a = true := by
  induction l with
  | nil => cases h
  | cons x l ih =>
    by_cases hx : p x = true
    · rw [List.countP_cons_of_pos hx, Nat.add_eq_right, List.countP_eq_zero] at h
      refine ⟨0, ⟨x, rfl, hx⟩, ?_⟩
      rintro i ⟨a, ha, hpa⟩
      cases i with
      | zero => rfl
      | succ i => exact absurd hpa (h a (List.mem_of_getElem? ha))
    · rw [List.countP_cons_of_neg hx] at h
      obtain ⟨i, hi, hunique⟩ := ih h
      refine ⟨i + 1, hi, ?_⟩
      rintro k ⟨a, ha, hpa⟩
      cases k with
      | zero =>
        cases ha
        exact absurd hpa hx
      | succ k => exact congrArg Nat.succ (hunique k ⟨a, ha, hpa⟩)

section Lines

variable {roots : List Node} {i : Nat} {a b : Node}

/-- What a measurement leaves in the graph, as far as the tree depends on it. -/
structure Measured (g : CallGraph) : Prop where
  wellFormed : g.WellFormed
  orderly : g.Orderly
  marked : ∀ n, g.Recursive n → g.isCycle n = true

/-- **One line at the left edge for each root**, and deeper lines after it. -/
theorem exists_root_blocks : ∃ blocks : List (Entry × List Entry),
    treeEntries g roots = blocks.flatMap (fun b => b.1 :: b.2) ∧
      blocks.map (fun b => b.1.node) = roots ∧
      ∀ b ∈ blocks, b.1.depth = 0 ∧ ∀ e ∈ b.2, 1 ≤ e.depth := by
  obtain ⟨blocks, hlines, hfirst, hdeeper⟩ := (isOutline_treeEntries g roots).exists_blocks
  refine ⟨blocks, hlines, ?_, fun b hb => ⟨?_, hdeeper b hb⟩⟩
  · have hnodes := congrArg (List.map Entry.node) hfirst
    rw [filter_treeEntries, List.map_map] at hnodes
    exact hnodes
  · have hmem : b.1 ∈ blocks.map Prod.fst := List.mem_map_of_mem hb
    rw [hfirst, List.mem_filter] at hmem
    exact List.length_eq_zero_iff.mpr (List.isEmpty_iff.mp hmem.2)

/-- **The parent of a line is one of a caller.** -/
theorem exists_caller {d : Nat} (hd : depthAt (treeEntries g roots) i = some (d + 1)) :
    ∃ j a b, IsParent (treeEntries g roots) j i ∧ nodeAt (treeEntries g roots) j = some a ∧
      nodeAt (treeEntries g roots) i = some b ∧ g.Calls a b := by
  obtain ⟨e, he, hdepth⟩ := Option.map_eq_some_iff.mp hd
  have hne : e.above ≠ [] := by
    intro hnil
    rw [Entry.depth, hnil] at hdepth
    cases hdepth
  obtain ⟨j, p, hparent, hj, hpath, _⟩ := (isOutline_treeEntries g roots).exists_parent he hne
  refine ⟨j, p.node, e.node, hparent, nodeAt_of_getElem? hj, nodeAt_of_getElem? he, ?_⟩
  have hchain := isChain_path (List.mem_of_getElem? he)
  rw [Entry.path, hpath] at hchain
  exact (List.isChain_cons_cons.mp hchain).1

/-- A call of what shows up is drawn at one place. -/
theorem existsUnique_line (ho : g.Orderly) (ha : ∃ r ∈ roots, g.Reaches r a) (hab : g.Calls a b) :
    ∃! i, nodeAt (treeEntries g roots) i = some b ∧
      ∃ j, IsParent (treeEntries g roots) j i ∧ nodeAt (treeEntries g roots) j = some a := by
  have houtline := isOutline_treeEntries g roots
  have hcount : (treeEntries g roots).countP (isCall a b ∘ Entry.drawn) = 1 := by
    rw [countP_treeEntries (mem_treeEntries_iff.mpr ha)]
    exact List.count_eq_one_of_mem (ho.callees_nodup a) (CallGraph.mem_callees.mpr hab)
  refine (existsUnique_congr fun i => ?_).mp (existsUnique_of_countP hcount)
  constructor
  · rintro ⟨e, he, hcall⟩
    obtain ⟨hnode, hhead⟩ := Bool.and_eq_true_iff.mp hcall
    rw [nodeAt_of_getElem? he]
    exact ⟨congrArg some (beq_iff_eq.mp hnode),
      (houtline.parent_node_iff he).mpr (beq_iff_eq.mp hhead)⟩
  · rintro ⟨hnode, hparent⟩
    obtain ⟨e, he, rfl⟩ := Option.map_eq_some_iff.mp hnode
    refine ⟨e, he, Bool.and_eq_true_iff.mpr ⟨beq_self_eq_true _, beq_iff_eq.mpr ?_⟩⟩
    exact (houtline.parent_node_iff he).mp hparent

theorem isLive_of_mem (hg : g.WellFormed) (hroots : ∀ r ∈ roots, g.isLive r = true)
    (he : e ∈ treeEntries g roots) : g.isLive e.node = true := by
  refine entries_forall (P := fun d => g.isLive d.1 = true) ?_ ?_ e he
  · exact fun n above m _ hcall => (hg.callsLive hcall).2
  · intro d hd
    obtain ⟨r, hr, rfl⟩ := List.mem_map.mp hd
    exact hroots r hr

/-- Calls lead from each function of a chain to the one that it starts with. -/
theorem transGen_of_chain {n m : Node} {above : List Node}
    (h : (n :: above).IsChain fun a b => g.Calls b a) (hm : m ∈ above) : TransGen g.Calls m n := by
  induction above generalizing n with
  | nil => cases hm
  | cons a above ih =>
    obtain ⟨hcall, hchain⟩ := List.isChain_cons_cons.mp h
    rcases List.mem_cons.mp hm with rfl | hm
    · exact .single hcall
    · exact (ih hchain hm).tail hcall

/-- **What is drawn as a circle is recursive.** -/
theorem recursive_of_isCircle (he : e ∈ treeEntries g roots) (hc : e.isCircle = true) :
    g.Recursive e.node :=
  transGen_of_chain (isChain_path he) (List.contains_iff_mem.mp hc)

theorem startsWith_line (hg : Measured g) (hroots : ∀ r ∈ roots, g.isLive r = true)
    (he : e ∈ treeEntries g roots) :
    StartsWith (entryLine g e) (indent e.depth ++ title g e.node) := by
  obtain ⟨f, hf⟩ := CallGraph.isLive_iff.mp (isLive_of_mem hg.wellFormed hroots he)
  exact startsWith_entryLine hf

/-- **The marks of a line of the tree.** -/
theorem marks_line (hg : Measured g) (hroots : ∀ r ∈ roots, g.isLive r = true)
    (hi : (treeEntries g roots)[i]? = some e) :
    (EndsIn (entryLine g e) " ...\n" ↔ e.repeated = true) ∧
      (CarriesCircle (entryLine g e) ↔ e.isCircle = true) := by
  have he := List.mem_of_getElem? hi
  obtain ⟨f, hf⟩ := CallGraph.isLive_iff.mp (isLive_of_mem hg.wellFormed hroots he)
  refine marks_entryLine hf (fun hc => ?_) fun hc => Bool.eq_false_iff.mpr fun hr => ?_
  · have hcycle := hg.marked e.node (recursive_of_isCircle he hc)
    rw [CallGraph.isCycle, hf] at hcycle
    exact hcycle
  · exact ((repeated_iff hi).mp hr).1 (List.contains_iff_mem.mp hc)

/-- **Callees are left out that are drawn below an earlier line**, but not of a circle. -/
theorem repeated_iff_parent (hi : (treeEntries g roots)[i]? = some e) :
    e.repeated = true ↔ g.callees e.node ≠ [] ∧
      (∃ k < i, nodeAt (treeEntries g roots) k = some e.node ∧
        ∃ m, IsParent (treeEntries g roots) k m) ∧ e.node ∉ e.above := by
  have houtline := isOutline_treeEntries g roots
  have hopened : (∃ k < i, ∃ q, (treeEntries g roots)[k]? = some q ∧ q.node = e.node ∧
      q.opens g = true) ↔ ∃ k < i, nodeAt (treeEntries g roots) k = some e.node ∧
        ∃ m, IsParent (treeEntries g roots) k m := by
    refine exists_congr fun k => and_congr_right fun _ => ?_
    constructor
    · rintro ⟨q, hq, hnode, hopens⟩
      exact ⟨hnode ▸ nodeAt_of_getElem? hq, (houtline.exists_child_iff hq).mpr hopens⟩
    · rintro ⟨hnode, hchild⟩
      obtain ⟨q, hq, hqe⟩ := Option.map_eq_some_iff.mp hnode
      exact ⟨q, hq, hqe, (houtline.exists_child_iff hq).mp hchild⟩
  rw [← hopened, repeated_iff hi, or_iff_right List.not_mem_nil, and_comm, and_assoc]
  rfl

end Lines

/-! ## 4. The tree -/

/-- The lines of a call tree below the entrances that are regarded: `roots` are these, by ascending
    address. -/
structure IsCallTree (s : Survey) (roots : List Node) (lines : List Entry) : Prop where
  mem_roots : ∀ n, n ∈ roots ↔
    n ∈ s.graph.functions ∧ s.graph.callers n = [] ∧ s.graph.isRegarded s.policy n = true
  sorted : roots.Pairwise fun n m => s.graph.address n < s.graph.address m
  text : tree s = String.join (lines.map (entryLine s.graph))
  /-- A line shows how deep it is and what function it is about. -/
  shows : ∀ e ∈ lines, StartsWith (entryLine s.graph e) (indent e.depth ++ title s.graph e.node)
  /-- One line at the left edge for each root, and deeper lines after it. -/
  blocks : ∃ blocks : List (Entry × List Entry), lines = blocks.flatMap (fun b => b.1 :: b.2) ∧
    blocks.map (fun b => b.1.node) = roots ∧ ∀ b ∈ blocks, b.1.depth = 0 ∧ ∀ e ∈ b.2, 1 ≤ e.depth
  /-- Above a deeper line is one of a caller. -/
  parent : ∀ i d, depthAt lines i = some (d + 1) → ∃ j a b, IsParent lines j i ∧
    nodeAt lines j = some a ∧ nodeAt lines i = some b ∧ s.graph.Calls a b
  /-- A call that can be reached is drawn once. -/
  once : ∀ a b, (∃ r ∈ roots, s.graph.Reaches r a) → s.graph.Calls a b →
    ∃! i, nodeAt lines i = some b ∧ ∃ j, IsParent lines j i ∧ nodeAt lines j = some a
  length : ∃ reached : Finset Node, (∀ n, n ∈ reached ↔ ∃ r ∈ roots, s.graph.Reaches r n) ∧
    lines.length = roots.length + ∑ n ∈ reached, (s.graph.callees n).length
  /-- A circle is a function that stands further up on the way to the left edge. -/
  circle : ∀ i e, lines[i]? = some e → (CarriesCircle (entryLine s.graph e) ↔
    ∃ j, TransGen (IsParent lines) j i ∧ nodeAt lines j = some e.node)
  /-- Callees are left out that are drawn below an earlier line. -/
  again : ∀ i e, lines[i]? = some e → (EndsIn (entryLine s.graph e) " ...\n" ↔
    s.graph.callees e.node ≠ [] ∧
      (∃ k < i, nodeAt lines k = some e.node ∧ ∃ m, IsParent lines k m) ∧
      ¬ ∃ j, TransGen (IsParent lines) j i ∧ nodeAt lines j = some e.node)

theorem mem_treeRoots {s : Survey} {n : Node} : n ∈ treeRoots s ↔
    n ∈ s.graph.functions ∧ s.graph.callers n = [] ∧ s.graph.isRegarded s.policy n = true := by
  rw [treeRoots, List.mem_filter, CallGraph.mem_entrances, and_assoc]
  rfl

theorem isLive_of_mem_treeRoots {s : Survey} : ∀ r ∈ treeRoots s, s.graph.isLive r = true :=
  fun _ hr => (CallGraph.mem_functions.mp (mem_treeRoots.mp hr).1).2

/-- **The tree of a survey whose graph was measured.** -/
theorem Measured.isCallTree {s : Survey} (hg : Measured s.graph) :
    IsCallTree s (treeRoots s) (treeEntries s.graph (treeRoots s)) where
  mem_roots _ := mem_treeRoots
  sorted := (hg.wellFormed.functions_sorted.filter _).filter _
  text := rfl
  shows _ he := startsWith_line hg isLive_of_mem_treeRoots he
  blocks := exists_root_blocks
  parent _ _ := exists_caller
  once _ _ := existsUnique_line hg.orderly
  length := by
    refine ⟨_, fun n => ?_, length_treeEntries⟩
    rw [List.mem_toFinset, mem_treeEntries_iff]
  circle i e hi := by
    rw [(marks_line hg isLive_of_mem_treeRoots hi).2, Entry.isCircle, List.contains_iff_mem]
    exact (isOutline_treeEntries _ _).mem_above_iff hi
  again i e hi := by
    rw [(marks_line hg isLive_of_mem_treeRoots hi).1, repeated_iff_parent hi,
      (isOutline_treeEntries _ _).mem_above_iff hi]

/-- **The call tree shows every call that can be reached exactly once**: the tree of any survey that
    operations lead to, measured under any policy and shown under any other. -/
theorem tree_shows_each_call_once {s t : Survey} {p : Policy} (hs : s.Reached)
    (ht : t.graph = (s.graph.analyse p).2.1) :
    IsCallTree t (treeRoots t) (treeEntries t.graph (treeRoots t)) := by
  obtain ⟨labels, htracks⟩ := hs.tracks
  have hwf := htracks.settled.wellFormed
  have e := CallGraph.agrees_analyse p s.graph
  have hg : Measured t.graph := by
    rw [ht]
    refine ⟨e.wellFormed hwf, hs.orderly.congr e.calls, fun n hn => ?_⟩
    rw [CallGraph.Recursive, e.calls_eq] at hn
    exact CallGraph.isCycle_of_recursive p hwf hn
  exact hg.isCallTree

/-- A function that calls itself, and one that two others call. -/
def sharedCallee : List (Option String) :=
  [some "10 <main>:", some "1:\tcall 20 <walk>", some "1:\tcall 30 <leaf>", some "20 <walk>:",
    some "1:\tcall 20 <walk>", some "1:\tcall 30 <leaf>", some "30 <leaf>:",
    some "1:\tcall *%rax"]

theorem linesOf_sharedCallee : Listing.linesOf .x86_64 sharedCallee =
    [.label 0x10 "main", .call 0x20 "walk", .call 0x30 "leaf", .label 0x20 "walk",
      .call 0x20 "walk", .call 0x30 "leaf", .label 0x30 "leaf", .pointerCall] := by
  simp only [sharedCallee, Listing.linesOf, Text.dropLineEnd, String.toList_ofList]
  decide +kernel

theorem result_sharedCallee :
    ((Survey.fresh .x86_64 {}).read sharedCallee).result = .ok () := by
  rw [Survey.result_read, Survey.reads_start.readRows_ok_iff, linesOf_sharedCallee]
  decide

/-- The tree of a listing that is read without a fault depends on its lines only. -/
theorem tree_read {s : Survey} {rows : List (Option String)} (h : (s.read rows).result = .ok ()) :
    tree (s.read rows).survey.measure.2.1 =
      tree (s.uncounted.applyAll (Listing.linesOf s.target rows)).prune.1.measure.2.1 := by
  have hrows : (s.readRows #[] rows).result = .ok () := (Survey.result_read s rows).symm.trans h
  rw [Survey.survey_read h, ← Survey.uncounted_readRows hrows, ← Survey.uncounted_prune]
  rfl

/-- The lines of `sharedCallee`, put into effect. -/
def sharedCalleeRead : Survey :=
  { Survey.fresh .x86_64 {} with
    graph :=
      { slots := #[some { address := 0, name := "Function Pointer" },
          some { address := 0x10, name := "main", visited := true },
          some { address := 0x20, name := "walk", visited := true },
          some { address := 0x30, name := "leaf", visited := true }]
        calls := [⟨4, 3, 0⟩, ⟨3, 2, 3⟩, ⟨2, 2, 2⟩, ⟨1, 1, 3⟩, ⟨0, 1, 2⟩] }
    current := some 3 }

theorem applyAll_sharedCallee :
    (Survey.fresh .x86_64 {}).uncounted.applyAll (Listing.linesOf .x86_64 sharedCallee) =
      sharedCalleeRead := by
  rw [linesOf_sharedCallee]
  rfl

/-- The graph of `sharedCallee` once it is measured. -/
def sharedCalleeMeasured : CallGraph where
  slots := #[some { address := 0, name := "Function Pointer", visited := true },
    some { address := 0x10, name := "main", imprecise := true, visited := true },
    some { address := 0x20, name := "walk", imprecise := true, cycle := true, visited := true },
    some { address := 0x30, name := "leaf", imprecise := true, visited := true }]
  calls := [⟨4, 3, 0⟩, ⟨3, 2, 3⟩, ⟨2, 2, 2⟩, ⟨1, 1, 3⟩, ⟨0, 1, 2⟩]

theorem measure_sharedCallee :
    sharedCalleeRead.prune.1.measure.2.1.graph = sharedCalleeMeasured ∧
      treeRoots sharedCalleeRead.prune.1.measure.2.1 = [1] := by
  cbv

theorem entries_sharedCallee : entries sharedCalleeMeasured ([1].map (·, [])) [] =
    [⟨1, [], false⟩, ⟨2, [1], false⟩, ⟨2, [2, 1], false⟩, ⟨3, [2, 1], false⟩,
      ⟨0, [3, 2, 1], false⟩, ⟨3, [1], true⟩] := by
  cbv

theorem tree_sharedCallee :
    tree ((Survey.fresh .x86_64 {}).perform (.read sharedCallee)).measure.2.1 =
      "0x10 main >0 (0)\n-> 0x20 walk >0 (0)\n   -> 0x20 walk >0 CIRCLE\n" ++
      "   -> 0x30 leaf >0 (0)\n      -> Unknown Function Pointer\n-> 0x30 leaf >0 (0) ...\n" := by
  rw [Survey.perform, tree_read result_sharedCallee,
    show (Survey.fresh .x86_64 {}).target = .x86_64 from rfl, applyAll_sharedCallee, tree,
    measure_sharedCallee.1, measure_sharedCallee.2, entries_sharedCallee]
  decide +kernel

/-- A circle, a function whose callees are left out the second time, and the function pointer. -/
theorem tree_shows_each_call_once_shared :
    IsCallTree ((Survey.fresh .x86_64 {}).perform (.read sharedCallee)).measure.2.1
        (treeRoots ((Survey.fresh .x86_64 {}).perform (.read sharedCallee)).measure.2.1)
        (treeEntries ((Survey.fresh .x86_64 {}).perform (.read sharedCallee)).measure.2.1.graph
          (treeRoots ((Survey.fresh .x86_64 {}).perform (.read sharedCallee)).measure.2.1)) ∧
      tree ((Survey.fresh .x86_64 {}).perform (.read sharedCallee)).measure.2.1 =
        "0x10 main >0 (0)\n-> 0x20 walk >0 (0)\n   -> 0x20 walk >0 CIRCLE\n" ++
        "   -> 0x30 leaf >0 (0)\n      -> Unknown Function Pointer\n-> 0x30 leaf >0 (0) ...\n" :=
  ⟨tree_shows_each_call_once (.perform _ _ (.fresh _ _)) rfl, tree_sharedCallee⟩

end Report

end StackDepth

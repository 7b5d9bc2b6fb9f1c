import StackDepth.Proofs.Analysis.Imprecision
import StackDepth.Proofs.Analysis.Totals
import StackDepth.Proofs.Survey.Pruning

/-!
# Soundness of a precise verdict

What a precise verdict promises of the listing it was made from: every chain of calls that starts
where nothing calls fits the limit, turns back to none of its functions, and meets no line whose
effect on the stack is unknown.

* `IsCallChain.sound_of_precise`: so it is in the graph, whose entrances lead to no doubtful
  function;
* `Presents.calls_iff`, `Presents.ownSize`, …: what the graph holds, read off the lines;
* `precise_limit_sound`: so it is in the listing.
-/

namespace StackDepth

open StackDepth.Listing

/-! ## 1. In the graph -/

namespace CallGraph

variable {p : Policy} {g : CallGraph} {f n m : Node}

/-- A chain without recursion turns back to none of its nodes. -/
theorem nodup_of_chain {chain : List Node} (h : chain.IsChain g.Calls)
    (hfree : ∀ n ∈ chain, ¬ g.Recursive n) : chain.Nodup := by
  induction chain with
  | nil => exact List.nodup_nil
  | cons n rest ih =>
    have hrest := ih h.of_cons fun m hm => hfree m (List.mem_cons_of_mem n hm)
    refine List.nodup_cons.mpr ⟨fun hn => ?_, hrest⟩
    cases rest with
    | nil => cases hn
    | cons b rest =>
      obtain ⟨hcall, hrest⟩ := List.isChain_cons_cons.mp h
      exact hfree n List.mem_cons_self (.head' hcall (reaches_of_chain_cons hrest hn))

theorem limit_analyse (p : Policy) (g : CallGraph) :
    (g.analyse p).1.limit = (g.analyse p).2.1.limit := by
  dsimp only [analyse]

theorem total_le_limit (p : Policy) (hn : n ∈ g.functions) :
    (g.analyse p).2.1.total n ≤ (g.analyse p).1.limit := by
  rw [limit_analyse, limit]
  have hnode : n ∈ (g.analyse p).2.1.functionNodes := by
    rw [(agrees_analyse p g).functionNodes]
    exact mem_functionNodes.mpr (mem_functions.mp hn)
  exact le_foldr_max (List.mem_map_of_mem hnode)

/-- **In a graph with a precise verdict**, a chain from an entrance fits the limit, turns back to
    none of its functions and leads to none whose frame or callee is unknown, where all functions
    are regarded. -/
theorem IsCallChain.sound_of_precise (hg : g.WellFormed) (hp : ∀ b, ¬ g.Calls pointer b)
    (hv : ∀ n ∈ g.functions, g.isVisited n = false)
    (hi : ∀ n ∈ g.functions, g.isImprecise n = false) (hregard : p.regardStartup = true)
    (hprecise : (g.analyse p).1.precise = true) (hentry : g.callers f = []) {chain : List Node}
    (h : g.IsCallChain f chain) :
    g.chainSize chain ≤ (g.analyse p).1.limit ∧ chain.Nodup ∧
      ∀ n ∈ chain, g.isDynamic n = false ∧ ¬ g.Calls n pointer := by
  obtain ⟨rest, rfl⟩ : ∃ rest, chain = f :: rest := List.head?_eq_some_iff.mp h.head
  have hf : f ∈ g.functions := h.functions f List.mem_cons_self
  have hsure : ¬ g.IsDoubted p f := by
    rw [← isImprecise_analyse p hg hp hv hi hf]
    exact (precise_analyse p g).mp hprecise f hf hentry
  have hreach : ∀ {m}, m ∈ f :: rest → g.Reaches f m := reaches_of_chain_cons h.calls
  have hfree : g.RecursionFree f := fun m hm hrec =>
    hsure ⟨m, hrec.mem_functions hg hp, hm, .inl hrec⟩
  refine ⟨?_, nodup_of_chain h.calls fun n hn => hfree n (hreach hn), fun n hn => ?_⟩
  · have htotal : g.chainSize (f :: rest) ≤ (g.analyse p).2.1.total f := by
      rw [total_analyse]
      exact (isGreatest_total_walkAll p hg hv hf hfree).2 ⟨_, h, rfl⟩
    exact Nat.le_trans htotal (total_le_limit p hf)
  · have hmem := h.functions n hn
    have hregarded : g.isRegarded p n = true := by
      obtain ⟨k, hk⟩ := isLive_iff.mp (mem_functions.mp hmem).2
      rw [isRegarded, hk]
      show p.regards k = true
      rw [Policy.regards, hregard, Bool.true_or]
    refine ⟨Bool.eq_false_iff.mpr fun hd => ?_, fun hc => ?_⟩
    · exact hsure ⟨n, hmem, hreach hn, .inr ⟨hregarded, .inl hd⟩⟩
    · exact hsure ⟨n, hmem, hreach hn, .inr ⟨hregarded, .inr hc⟩⟩

end CallGraph

/-! ## 2. The graph and the lines -/

namespace Survey

open CallGraph (pointer)

variable {perCall x y : Nat} {lines : List Line} {g : CallGraph} {n m : Node}

/-- A line of the function at `x` calls the one at `y`. -/
def DirectCall (lines : List Line) (x y : Nat) : Prop := ∃ name, Line.call y name ∈ scopeOf x lines

theorem directCall_iff : DirectCall lines x y ↔ (some x, some y) ∈ callPairs lines := by
  rw [mem_callPairs]
  constructor
  · intro ⟨name, h⟩
    exact ⟨_, h, rfl⟩
  · intro ⟨l, hl, e⟩
    rcases Line.callee?_eq_some e with ⟨_, name, e', rfl⟩ | ⟨e', _⟩
    · cases e'
      exact ⟨name, hl⟩
    · cases e'

theorem pointerCall_mem_iff :
    Line.pointerCall ∈ scopeOf x lines ↔ (some x, none) ∈ callPairs lines := by
  rw [mem_callPairs]
  constructor
  · intro h
    exact ⟨_, h, rfl⟩
  · intro ⟨l, hl, e⟩
    rcases Line.callee?_eq_some e with ⟨_, _, e', _⟩ | ⟨_, rfl⟩
    · cases e'
    · exact hl

namespace Presents

variable (hP : Presents perCall g lines)
include hP

/-- A function that is labelled has a node. -/
theorem exists_node (hx : Labelled lines x) : ∃ n ∈ g.functions, g.address n = x := by
  obtain ⟨f, hf⟩ := hP.labelled.mpr hx
  obtain ⟨n, _, hn, hax, _⟩ := hP.wellFormed.find?_of_at? hf
  exact ⟨n, hn, hax⟩

/-- A node has the entry of its address. -/
theorem exists_entry (hn : n ∈ g.functions) :
    ∃ f, g.function? n = some f ∧ g.at? (g.address n) = some f := by
  obtain ⟨f, hf⟩ := CallGraph.isLive_iff.mp (CallGraph.mem_functions.mp hn).2
  exact ⟨f, hf, (hP.wellFormed.at?_address hn).trans hf⟩

theorem ownSize (hn : n ∈ g.functions) : g.ownSize n = frameBytes perCall (g.address n) lines := by
  obtain ⟨f, hf, hat⟩ := hP.exists_entry hn
  rw [CallGraph.ownSize, hf, ← hP.size hat]
  rfl

theorem isDynamic (hn : n ∈ g.functions) :
    g.isDynamic n = true ↔ Line.dynamic ∈ scopeOf (g.address n) lines := by
  obtain ⟨f, hf, hat⟩ := hP.exists_entry hn
  rw [CallGraph.isDynamic, hf, ← hP.dynamic hat]
  rfl

theorem isVisited (hn : n ∈ g.functions) : g.isVisited n = false := by
  obtain ⟨f, hf, hat⟩ := hP.exists_entry hn
  rw [CallGraph.isVisited, hf]
  exact (hP.unmarked hat).1

theorem isImprecise (hn : n ∈ g.functions) : g.isImprecise n = false := by
  obtain ⟨f, hf, hat⟩ := hP.exists_entry hn
  rw [CallGraph.isImprecise, hf]
  exact (hP.unmarked hat).2

/-- The calls between functions are the direct calls of the lines. -/
theorem calls_iff (hn : n ∈ g.functions) (hm : m ∈ g.functions) :
    g.Calls n m ↔ DirectCall lines (g.address n) (g.address m) := by
  rw [← hP.wellFormed.mem_pairs (CallGraph.mem_functions.mp hn).2 (CallGraph.mem_functions.mp hm).2,
    CallGraph.place_of_mem hn, CallGraph.place_of_mem hm, hP.pairs, directCall_iff]
  refine and_iff_left fun y hy => ?_
  obtain ⟨f, _, hat⟩ := hP.exists_entry hm
  cases hy
  exact hP.labelled.mp ⟨f, hat⟩

/-- The calls of the function pointer's node are the indirect calls. -/
theorem calls_pointer_iff (hn : n ∈ g.functions) :
    g.Calls n pointer ↔ Line.pointerCall ∈ scopeOf (g.address n) lines := by
  rw [← hP.wellFormed.mem_pairs (CallGraph.mem_functions.mp hn).2 hP.wellFormed.pointerLive,
    CallGraph.place_of_mem hn, CallGraph.place_pointer, hP.pairs, pointerCall_mem_iff]
  exact and_iff_left nofun

/-- What no line calls is an entrance. -/
theorem callers_eq_nil (hn : n ∈ g.functions) (h : ∀ y, ¬ DirectCall lines y (g.address n)) :
    g.callers n = [] := by
  refine CallGraph.callers_eq_nil_iff.mpr fun a hc => ?_
  have ha := hP.wellFormed.caller_mem_functions (fun _ => hP.not_calls_from_pointer) hc
  exact h _ ((hP.calls_iff ha hn).mp hc)

/-- **A chain of direct calls between labelled functions is a chain of the graph.** -/
theorem exists_chain {xs : List Nat} (hlabel : ∀ y ∈ x :: xs, Labelled lines y)
    (hchain : (x :: xs).IsChain (DirectCall lines)) :
    ∃ n chain, g.IsCallChain n chain ∧ g.address n = x ∧ chain.map g.address = x :: xs := by
  induction xs generalizing x with
  | nil =>
    obtain ⟨n, hn, hax⟩ := hP.exists_node (hlabel x List.mem_cons_self)
    exact ⟨n, [n], CallGraph.isCallChain_singleton hn, hax, by rw [List.map_singleton, hax]⟩
  | cons y xs ih =>
    obtain ⟨hcall, hrest⟩ := List.isChain_cons_cons.mp hchain
    obtain ⟨m, chain, hm, hay, hmap⟩ := ih (fun z hz => hlabel z (List.mem_cons_of_mem x hz)) hrest
    obtain ⟨n, hn, hax⟩ := hP.exists_node (hlabel x List.mem_cons_self)
    have hmem : m ∈ g.functions := hm.functions m (List.mem_of_head? hm.head)
    refine ⟨n, n :: chain, hm.cons hn ((hP.calls_iff hn hmem).mpr ?_), hax, ?_⟩
    · rw [hax, hay]
      exact hcall
    · rw [List.map_cons, hax, hmap]

end Presents

/-! ## 3. In the listing -/

/-- **A precise verdict is sound.** A listing is read without a fault, and its verdict under a
    policy that regards every function is precise. Then along every chain of direct calls between
    labelled functions, from one that no line calls, the lines take no more than the limit from the
    stack, no function comes twice, and no line has an unknown frame or an unknown callee. -/
theorem precise_limit_sound {t : Target} {p : Policy} {rows : List (Option String)}
    (hregard : p.regardStartup = true)
    (hread : (read { target := t, policy := p } rows).result = .ok ())
    (hprecise : (read { target := t, policy := p } rows).survey.measure.1.precise = true)
    {x : Nat} {xs : List Nat} (hlabel : ∀ y ∈ x :: xs, Labelled (linesOf t rows) y)
    (hentry : ∀ y, ¬ DirectCall (linesOf t rows) y x)
    (hchain : (x :: xs).IsChain (DirectCall (linesOf t rows))) :
    ((x :: xs).map fun y => frameBytes (callBytes t p) y (linesOf t rows)).sum ≤
        (read { target := t, policy := p } rows).survey.measure.1.limit ∧
      (x :: xs).Nodup ∧
      ∀ y ∈ x :: xs, ∀ l ∈ scopeOf y (linesOf t rows), l ≠ .dynamic ∧ l ≠ .pointerCall := by
  obtain ⟨hpolicy, hP⟩ := presents_read hread
  generalize (read { target := t, policy := p } rows).survey = s at hpolicy hP hprecise ⊢
  subst hpolicy
  obtain ⟨n, chain, hn, hax, hmap⟩ := hP.exists_chain hlabel hchain
  have hmem : ∀ m ∈ chain, m ∈ s.graph.functions := hn.functions
  have hnf : n ∈ s.graph.functions := hmem n (List.mem_of_head? hn.head)
  obtain ⟨hsize, hnodup, hsure⟩ := hn.sound_of_precise hP.wellFormed
    (fun _ => hP.not_calls_from_pointer) (fun _ => hP.isVisited) (fun _ => hP.isImprecise) hregard
    hprecise (hP.callers_eq_nil hnf (hax ▸ hentry))
  rw [← hmap, List.map_map]
  refine ⟨?_, hnodup.map_on fun a ha b hb => hP.wellFormed.addressInj (hmem a ha) (hmem b hb), ?_⟩
  · have hsum : chain.map s.graph.ownSize =
        chain.map ((fun y => frameBytes (callBytes t s.policy) y (linesOf t rows)) ∘
          s.graph.address) := List.map_congr_left fun m hm => hP.ownSize (hmem m hm)
    rw [← hsum]
    exact hsize
  · intro y hy l hl
    obtain ⟨m, hm, rfl⟩ := List.mem_map.mp hy
    obtain ⟨hdynamic, hpointer⟩ := hsure m hm
    refine ⟨fun e => ?_, fun e => ?_⟩
    · rw [e, ← hP.isDynamic (hmem m hm), hdynamic] at hl
      cases hl
    · rw [e, ← hP.calls_pointer_iff (hmem m hm)] at hl
      exact hpointer hl

/-- A program of two functions, the second of which calls one that the listing does not hold. -/
def twoFunctions : List (Option String) :=
  [some "10 <main>:", some "1:\tpush %rbp", some "1:\tcall 20 <leaf>", some "20 <leaf>:",
    some "1:\tsub $32,%rsp", some "1:\tcall 30 <far>"]

theorem linesOf_twoFunctions : linesOf .x86_64 twoFunctions =
    [.label 0x10 "main", .push 8, .call 0x20 "leaf", .label 0x20 "leaf", .decrement 32,
      .call 0x30 "far"] := by
  simp only [linesOf, Text.dropLineEnd, String.toList_ofList]
  decide +kernel

theorem result_twoFunctions (p : Policy) :
    (read { target := .x86_64, policy := p } twoFunctions).result = .ok () := by
  rw [result_read, reads_start.readRows_ok_iff, linesOf_twoFunctions]
  decide

/-- The lines of `twoFunctions`, put into effect. -/
def twoFunctionsRead (counted : Bool) : Survey :=
  let perCall := bif counted then 8 else 0
  { target := .x86_64
    policy := { countReturnAddress := counted }
    graph :=
      { slots := #[some { address := 0, name := "Function Pointer" },
          some { address := 0x10, name := "main", size := 8 + perCall, visited := true },
          some { address := 0x20, name := "leaf", size := 32 + perCall, visited := true },
          some { address := 0x30, name := "far" }]
        calls := [⟨1, 2, 3⟩, ⟨0, 1, 2⟩] }
    current := some 2 }

theorem applyAll_twoFunctions (counted : Bool) :
    ({ target := .x86_64, policy := { countReturnAddress := counted } } : Survey).uncounted.applyAll
      (linesOf .x86_64 twoFunctions) = twoFunctionsRead counted := by
  rw [linesOf_twoFunctions]
  cases counted with
  | false => rfl
  | true => rfl

theorem measure_twoFunctions :
    (read { target := .x86_64, policy := { countReturnAddress := true } }
      twoFunctions).survey.measure.1 = ⟨true, 56, []⟩ := by
  rw [measure_read (result_twoFunctions _), applyAll_twoFunctions]
  cbv

/-- The frames of the two functions fill the limit: 8 and 32 bytes, and 8 for each of two calls. -/
theorem precise_limit_sound_twoFunctions :
    (read { target := .x86_64, policy := { countReturnAddress := true } } twoFunctions).result =
        .ok () ∧
      ([0x10, 0x20].map fun y => frameBytes (callBytes .x86_64 { countReturnAddress := true }) y
        (linesOf .x86_64 twoFunctions)).sum ≤
          (read { target := .x86_64, policy := { countReturnAddress := true } }
            twoFunctions).survey.measure.1.limit ∧
      [0x10, 0x20].Nodup ∧
      ∀ y ∈ [0x10, 0x20], ∀ l ∈ scopeOf y (linesOf .x86_64 twoFunctions),
        l ≠ .dynamic ∧ l ≠ .pointerCall := by
  refine ⟨result_twoFunctions _, precise_limit_sound rfl (result_twoFunctions _) ?_ ?_ ?_ ?_⟩
  · rw [measure_twoFunctions]
  · rw [linesOf_twoFunctions]
    intro y hy
    rcases List.mem_pair.mp hy with rfl | rfl
    · exact ⟨"main", by decide⟩
    · exact ⟨"leaf", by decide⟩
  · intro y ⟨name, h⟩
    have hmem := mem_lines_of_mem_scopeOf h
    rw [linesOf_twoFunctions] at hmem
    simp at hmem
  · rw [linesOf_twoFunctions, List.isChain_pair]
    exact ⟨"leaf", by decide⟩

end Survey

end StackDepth

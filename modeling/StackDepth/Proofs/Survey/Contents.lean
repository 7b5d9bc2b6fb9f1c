import Mathlib.Data.UInt
import StackDepth.Proofs.Survey.Headings
import StackDepth.Proofs.Survey.Pruning

/-!
# The contents of a listing

What reading makes of a listing, in full: where it stops, and otherwise what the call graph holds of
every function, down to the order of its calls.

* `calleesOf`: the calls of a function in the order of their first lines;
  `Shows.map_place_callees_prune`: so they stand in the graph once the phantoms are gone;
* `Describes`: a graph that is the one of a listing;
* `frameWord`, `Describes.size_word`: what a word of 64 bits holds of the size of a function;
* `read_exact`: how reading ends, and that its graph describes the listing.
-/

namespace StackDepth

open StackDepth.Listing

/-! ## 1. Calls in order -/

section Lists

variable {α β : Type} [BEq α] [LawfulBEq α] [BEq β] [LawfulBEq β]

theorem eraseDups_filter (p : α → Bool) (xs : List α) :
    (xs.filter p).eraseDups = xs.eraseDups.filter p := by
  induction xs using List.reverseRecOn with
  | nil => rfl
  | append_singleton xs a ih =>
    rw [List.filter_append, Survey.eraseDups_concat]
    by_cases ha : p a = true
    · have hone : [a].filter p = [a] := List.filter_cons_of_pos ha
      rw [hone, Survey.eraseDups_concat, ih]
      simp only [List.mem_filter, ha, and_true]
      split
      · rfl
      · rw [List.filter_append, hone]
    · have hnone : [a].filter p = [] := List.filter_cons_of_neg ha
      rw [hnone, List.append_nil, ih]
      split
      · rfl
      · rw [List.filter_append, hnone, List.append_nil]

/-- Where no two elements are mapped to one, nothing else is erased. -/
theorem eraseDups_map {f : α → β} {xs : List α} (hf : ∀ a ∈ xs, ∀ b ∈ xs, f a = f b → a = b) :
    (xs.map f).eraseDups = xs.eraseDups.map f := by
  induction xs using List.reverseRecOn with
  | nil => rfl
  | append_singleton xs a ih =>
    have hxs : ∀ b ∈ xs, b ∈ xs ++ [a] := fun b hb => List.mem_append_left _ hb
    have ha : a ∈ xs ++ [a] := List.mem_append_right _ List.mem_cons_self
    have hmem : f a ∈ xs.eraseDups.map f ↔ a ∈ xs.eraseDups := by
      rw [List.mem_map]
      constructor
      · rintro ⟨b, hb, e⟩
        rw [← hf b (hxs b (List.mem_eraseDups.mp hb)) a ha e]
        exact hb
      · exact fun h => ⟨a, h, rfl⟩
    rw [List.map_append, List.map_singleton, Survey.eraseDups_concat, Survey.eraseDups_concat,
      ih fun b hb c hc => hf b (hxs b hb) c (hxs c hc)]
    simp only [hmem]
    split
    · rfl
    · rw [List.map_append, List.map_singleton]

end Lists

/-- The address that the line labels. -/
def Line.labelled? : Line → Option Nat
  | .label address _ => some address
  | _ => none

namespace Listing

variable {lines : List Line} {x : Nat}

/-- The addresses of the labels. -/
def labels (lines : List Line) : List Nat := lines.filterMap Line.labelled?

theorem mem_labels : x ∈ labels lines ↔ Labelled lines x := by
  rw [labels, List.mem_filterMap]
  constructor
  · rintro ⟨l, hl, e⟩
    cases l with
    | label address name =>
      cases e
      exact ⟨name, hl⟩
    | fileFormat _ | sectionStart _ | push _ | decrement _ | dynamic | call _ _ | pointerCall
    | potential | other => cases e
  · rintro ⟨name, hl⟩
    exact ⟨_, hl, rfl⟩

/-- A place that stays: the function pointer, or an address with a label. -/
def stays (lines : List Line) (place : Option Nat) : Bool :=
  place.all fun x => decide (x ∈ labels lines)

theorem stays_iff {place : Option Nat} :
    stays lines place = true ↔ ∀ x, place = some x → Labelled lines x := by
  cases place with
  | none => exact iff_of_true rfl nofun
  | some x => simp [stays, mem_labels]

/-- What the function at `x` calls, in the order of the first lines that do so, each once. -/
def calleesOf (x : Nat) (lines : List Line) : List (Option Nat) :=
  (((scopeOf x lines).filterMap Line.callee?).eraseDups).filter (stays lines)

/-- The calls of the listing from `x` are those of the lines that stand in it. -/
theorem map_snd_callPairs (x : Nat) (lines : List Line) :
    ((callPairs lines).filter (·.1 == some x)).map (·.2) =
      (scopeOf x lines).filterMap Line.callee? := by
  rw [callPairs, scopeOf]
  induction placed lines with
  | nil => rfl
  | cons q rest ih =>
    by_cases hx : q.1 = x
    · cases hq : q.2.callee? with
      | none => simp [hx, hq, ih]
      | some y => simp [hx, hq, ih]
    · cases hq : q.2.callee? with
      | none => simp [hx, hq, ih]
      | some y => simp [hx, hq, ih]

end Listing

namespace Survey

variable {t : Target} {p : Policy} {s : Survey} {perCall x : Nat} {lines : List Line}
  {g : CallGraph} {n : Node}

/-- The calls that stay keep their order. -/
theorem Shows.pairs_kept_eq (hs : Shows perCall g lines) :
    (kept g).pairs = (callPairs lines).eraseDups.filter fun q => stays lines q.2 := by
  have hkept := hs.wellFormed.pairs_foldl_remove (fun _ => mem_functions_of_mem_phantoms)
    (phantoms_nodup (g := g))
  change (kept g).pairs = _ at hkept
  rw [hkept, ← hs.pairs]
  refine List.filter_congr fun q hq => ?_
  have hcall : q ∈ callPairs lines := List.mem_eraseDups.mp (hs.pairs ▸ hq)
  have hstays := hs.pairs_kept (q := q)
  rw [hkept, List.mem_filter, and_iff_right hq, and_iff_right hcall, ← stays_iff] at hstays
  exact Bool.eq_iff_iff.mpr hstays

/-- **The calls of a function in the graph are those of its lines**, in the order of the first lines
    that make them. -/
theorem Shows.map_place_callees_prune (hs : Shows perCall s.graph lines)
    (hn : n ∈ s.prune.1.graph.functions) :
    (s.prune.1.graph.callees n).map s.prune.1.graph.place =
      calleesOf (s.prune.1.graph.address n) lines := by
  have hlive := (CallGraph.mem_functions.mp hn).2
  rw [hs.prune.wellFormed.map_place_callees hlive, CallGraph.place_of_mem hn, pairs_prune,
    hs.pairs_kept_eq, calleesOf, ← map_snd_callPairs, eraseDups_map, eraseDups_filter,
    List.filter_map, List.filter_filter, List.filter_filter]
  · refine congrArg _ (List.filter_congr fun q _ => ?_)
    exact Bool.and_comm ..
  · -- all these calls have the same caller
    intro q hq r hr e
    have hq1 := beq_iff_eq.mp (List.mem_filter.mp hq).2
    have hr1 := beq_iff_eq.mp (List.mem_filter.mp hr).2
    exact Prod.ext (hq1.trans hr1.symm) e

/-! ## 2. The graph of a listing -/

/-- The graph is the one of the listing. -/
structure Describes (perCall : Nat) (g : CallGraph) (lines : List Line) : Prop where
  /-- The functions stand at the labelled addresses, by address, one at each. -/
  functions : g.functions.map g.address = (labels lines).toFinset.sort (· ≤ ·)
  /-- A function takes the bytes of its lines. -/
  size : ∀ n f, n ∈ g.functions → g.function? n = some f →
    f.size = frameBytes perCall (g.address n) lines
  dynamic : ∀ n f, n ∈ g.functions → g.function? n = some f →
    (f.dynamic = true ↔ Line.dynamic ∈ scopeOf (g.address n) lines)
  /-- It calls what its lines call, in the order of the first lines that do so. -/
  callees : ∀ n, n ∈ g.functions → (g.callees n).map g.place = calleesOf (g.address n) lines
  /-- Nothing is called by the function pointer. -/
  pointer : g.callees CallGraph.pointer = []
  /-- It has the file and the section that are in effect at its last label. -/
  headings : ∀ n f, n ∈ g.functions → g.function? n = some f →
    ∃ before name after, lines = before ++ .label (g.address n) name :: after ∧
      ¬ Labelled after (g.address n) ∧ f.file = fileAfter before ∧
      f.sectionName = sectionAfter before
  /-- Nothing is measured and nothing is marked. -/
  unmarked : ∀ n f, n ∈ g.functions → g.function? n = some f →
    f.total = 0 ∧ f.imprecise = false ∧ f.cycle = false ∧ f.visited = false

/-- **Pruning leaves the graph of the listing.** -/
theorem Notes.describes (hn : Notes s lines) (hs : Shows perCall s.graph lines) :
    Describes perCall s.prune.1.graph lines := by
  have hP := hs.prune
  have hat : ∀ {n f}, n ∈ s.prune.1.graph.functions → s.prune.1.graph.function? n = some f →
      s.prune.1.graph.at? (s.prune.1.graph.address n) = some f :=
    fun hn' hf => (hP.wellFormed.at?_address hn').trans hf
  have hparticulars : ∀ {n f}, n ∈ s.prune.1.graph.functions →
      s.prune.1.graph.function? n = some f →
      f.particulars = s.graph.particulars (s.prune.1.graph.address n) := by
    intro n f hn' hf
    obtain ⟨f', ⟨hf', _⟩, rfl⟩ := hs.at?_prune.mp (hat hn' hf)
    exact (CallGraph.particulars_of_at? hf').symm
  refine ⟨?_, ?_, ?_, ?_, ?_, ?_, ?_⟩
  · refine hP.wellFormed.map_address_functions fun x => ?_
    rw [hP.labelled, List.mem_toFinset, mem_labels]
  · exact fun n f hn' hf => hP.size (hat hn' hf)
  · exact fun n f hn' hf => hP.dynamic (hat hn' hf)
  · exact fun n hn' => hs.map_place_callees_prune hn'
  · exact List.eq_nil_iff_forall_not_mem.mpr fun m hm =>
      hP.not_calls_from_pointer (CallGraph.mem_callees.mp hm)
  · intro n f hn' hf
    obtain ⟨before, name, after, hlines, hlast⟩ :=
      (hP.labelled.mp ⟨f, hat hn' hf⟩).exists_last
    obtain ⟨hfile, hsection⟩ := hn.labelled before _ name after hlines hlast
    rw [← hparticulars hn' hf] at hfile hsection
    exact ⟨before, name, after, hlines, hlast, hfile, hsection⟩
  · intro n f hn' hf
    obtain ⟨htotal, hcycle⟩ := hn.unmeasured (s.prune.1.graph.address n)
    rw [← hparticulars hn' hf] at htotal hcycle
    obtain ⟨hvisited, himprecise⟩ := hP.unmarked (hat hn' hf)
    exact ⟨htotal, himprecise, hcycle, hvisited⟩

/-- The bytes of the lines of the function at `x`, added up in a word of 64 bits. -/
def frameWord (perCall x : Nat) (lines : List Line) : UInt64 :=
  ((scopeOf x lines).map fun l => (l.bytes perCall).toUInt64).sum

theorem toUInt64_frameBytes (perCall x : Nat) (lines : List Line) :
    (frameBytes perCall x lines).toUInt64 = frameWord perCall x lines := by
  unfold frameBytes frameWord
  induction scopeOf x lines with
  | nil => rfl
  | cons l scope ih =>
    rw [List.map_cons, List.sum_cons, List.map_cons, List.sum_cons, ← ih]
    exact UInt64.ofNat_add _ _

/-- **Added up in a word, the lines come to the size as well**: to the size itself while it is below
    2^64, and otherwise to what a word keeps of it. -/
theorem Describes.size_word (h : Describes perCall g lines) {n : Node} {f : Function}
    (hn : n ∈ g.functions) (hf : g.function? n = some f) :
    f.size.toUInt64 = frameWord perCall f.address lines ∧
      (f.size < Text.wordLimit → (frameWord perCall f.address lines).toNat = f.size) := by
  have hword : f.size.toUInt64 = frameWord perCall f.address lines := by
    rw [h.size n f hn hf, toUInt64_frameBytes, CallGraph.address, hf]
    rfl
  refine ⟨hword, fun hlt => ?_⟩
  rw [← hword]
  exact UInt64.toNat_ofNat_of_lt' hlt

/-- **What reading makes of a listing.** It stops with a fault at the first row that needs a
    function and has no label after the last heading before it, and then gives the number and the
    text of that row. Otherwise it stops where a row is no text. Otherwise it leaves the graph of
    the listing. A word that the bytes of a function are added up in holds its size while that is
    below 2^64, and after that what is left of it. -/
theorem read_exact (t : Target) (p : Policy) (rows : List (Option String)) :
    ((∃ k text, (read { target := t, policy := p } rows).result =
        .error (.outsideFunction k text)) ↔ ∃ i raw, StrayAt t [] rows i raw) ∧
    (∀ k text, (read { target := t, policy := p } rows).result =
        .error (.outsideFunction k text) →
      ∃ i raw, StrayAt t [] rows i raw ∧ k = i + 1 ∧ text = Text.dropLineEnd raw ∧
        ∀ j r, StrayAt t [] rows j r → i ≤ j) ∧
    ((∀ i raw, ¬ StrayAt t [] rows i raw) → none ∈ rows →
      (read { target := t, policy := p } rows).result = .error (.unreadable .invalidText)) ∧
    ((∀ i raw, ¬ StrayAt t [] rows i raw) → none ∉ rows →
      (read { target := t, policy := p } rows).result = .ok () ∧
        Describes (callBytes t p) (read { target := t, policy := p } rows).survey.graph
          (linesOf t rows) ∧
        ∀ n f, n ∈ (read { target := t, policy := p } rows).survey.graph.functions →
          (read { target := t, policy := p } rows).survey.graph.function? n = some f →
          f.size.toUInt64 = frameWord (callBytes t p) f.address (linesOf t rows) ∧
            (f.size < Text.wordLimit →
              (frameWord (callBytes t p) f.address (linesOf t rows)).toNat = f.size)) := by
  have hend := (reads_start (t := t) (p := p)).result_readRows rows #[]
  rw [← result_read] at hend
  rcases hend with ⟨i, raw, hresult, hstray, hleast⟩ | ⟨hnone, hresult⟩
  · rw [show (({ target := t, policy := p } : Survey).lineNumber + i + 1) = i + 1
      by simp] at hresult
    refine ⟨iff_of_true ⟨_, _, hresult⟩ ⟨i, raw, hstray⟩, fun k text h => ?_,
      fun h => absurd hstray (h i raw), fun h => absurd hstray (h i raw)⟩
    rw [hresult] at h
    cases h
    exact ⟨i, raw, hstray, rfl, rfl, hleast⟩
  · have hfault : ∀ k text, (read { target := t, policy := p } rows).result ≠
        .error (.outsideFunction k text) := by
      intro k text e
      rw [hresult] at e
      split at e <;> cases e
    refine ⟨iff_of_false (fun ⟨k, text, h⟩ => hfault k text h) (fun ⟨i, raw, h⟩ => hnone i raw h),
      fun k text h => absurd h (hfault k text), fun _ hrow => ?_, fun _ hrow => ?_⟩
    · rw [hresult, if_pos hrow]
    · rw [if_neg hrow] at hresult
      have hrows := (result_read _ rows).symm.trans hresult
      have hdescribes : Describes (callBytes t p)
          (read { target := t, policy := p } rows).survey.graph (linesOf t rows) := by
        rw [survey_read hresult]
        exact (notes_readRows hrows).describes (reads_start.readRows hrows).shows
      exact ⟨hresult, hdescribes, fun n f hn hf => hdescribes.size_word hn hf⟩

/-- A function at address 0 that is labelled in two sections, and calls one that has no label. -/
def twoScopes : List (Option String) :=
  [some "a.out:     file format elf64-x86-64", some "Disassembly of section .init:",
    some "0 <start>:", some "1:\tcall 30 <far>", some "1:\tcall *%rax", some "20 <leaf>:",
    some "1:\tpush %rbp", some "Disassembly of section .text:", some "0 <start>:",
    some "1:\tcall 20 <leaf>", some "1:\tcall *%rax", some "1:\tsub %rax,%rsp"]

theorem linesOf_twoScopes : linesOf .x86_64 twoScopes =
    [.fileFormat "a.out", .sectionStart ".init", .label 0 "start", .call 0x30 "far", .pointerCall,
      .label 0x20 "leaf", .push 8, .sectionStart ".text", .label 0 "start", .call 0x20 "leaf",
      .pointerCall, .dynamic] := by
  simp only [linesOf, Text.dropLineEnd, String.toList_ofList]
  decide +kernel

/-- A line that no label precedes since the heading. -/
def strayPush : List (Option String) :=
  [some "0 <start>:", some "Disassembly of section .text:", some "1:\tpush %rbp"]

theorem strayAt_strayPush : StrayAt .x86_64 [] strayPush 2 "1:\tpush %rbp" where
  row := rfl
  text := by simp [strayPush]
  needs := by
    simp only [Line.ofRow, Text.dropLineEnd, String.toList_ofList]
    decide +kernel
  outside := by
    rw [outside_iff]
    simp only [linesOf, Text.dropLineEnd, String.toList_ofList]
    decide +kernel

theorem read_exact_twoScopes :
    ((∀ i raw, ¬ StrayAt .x86_64 [] twoScopes i raw) ∧ none ∉ twoScopes ∧
      (read { target := .x86_64, policy := {} } twoScopes).result = .ok () ∧
      Describes (callBytes .x86_64 {})
        (read { target := .x86_64, policy := {} } twoScopes).survey.graph
        (linesOf .x86_64 twoScopes) ∧
      calleesOf 0 (linesOf .x86_64 twoScopes) = [none, some 0x20]) ∧
    ∃ k text, (read { target := .x86_64, policy := {} } strayPush).result =
      .error (.outsideFunction k text) := by
  obtain ⟨hfault, _, _, hok⟩ := read_exact .x86_64 {} twoScopes
  have hresult : (read { target := .x86_64, policy := {} } twoScopes).result = .ok () := by
    rw [result_read, reads_start.readRows_ok_iff, linesOf_twoScopes]
    decide
  have hnone : ∀ i raw, ¬ StrayAt .x86_64 [] twoScopes i raw := by
    intro i raw h
    obtain ⟨k, text, e⟩ := hfault.mpr ⟨i, raw, h⟩
    rw [hresult] at e
    cases e
  have htext : none ∉ twoScopes := by simp [twoScopes]
  refine ⟨⟨hnone, htext, hresult, (hok hnone htext).2.1, ?_⟩,
    (read_exact .x86_64 {} strayPush).1.mpr ⟨2, _, strayAt_strayPush⟩⟩
  rw [linesOf_twoScopes]
  decide +kernel

end Survey

end StackDepth

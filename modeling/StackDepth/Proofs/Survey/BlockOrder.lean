import Mathlib.Algebra.BigOperators.Group.List.Basic
import StackDepth.Proofs.Analysis.Renumbering
import StackDepth.Proofs.Ledger
import StackDepth.Proofs.Survey.Contents
import StackDepth.Proofs.Survey.Soundness

/-!
# The order of the functions in a listing

A listing of one section is a block for each function: a label and the lines up to the next one. In
which order the blocks come decides the slots of the functions, the order of their calls and the
walks of the analysis, but not what is found at an address.

* `scopeOf_perm`, `callPairs_perm`: lines that stand in the same functions, in another order;
  `Presents.sameTable`: graphs of such lines have the same table;
* `ledger_readRows`: what is counted while rows are read;
* `Block`, `placedFrom_blocks`, `accepted_blocks`: the lines of a listing in blocks;
* `block_order_irrelevant`: what does not depend on the order of the blocks.
-/

namespace StackDepth

open StackDepth.Listing

/-! ## 1. The same lines in another order -/

namespace Listing

variable {lines lines' : List Line} {x : Nat}

/-- A label stands in the function that it opens. -/
theorem label_mem_placedFrom {current : Option Nat} {name : String}
    (h : Line.label x name ∈ lines) : (x, Line.label x name) ∈ placedFrom current lines := by
  induction lines generalizing current with
  | nil => cases h
  | cons l rest ih =>
    rw [placedFrom, List.mem_append]
    rcases List.mem_cons.mp h with rfl | h
    · exact .inl List.mem_cons_self
    · exact .inr (ih h)

theorem labelled_iff_mem_placed : Labelled lines x ↔ ∃ l, (x, l) ∈ placed lines := by
  constructor
  · rintro ⟨name, h⟩
    exact ⟨_, label_mem_placedFrom h⟩
  · rintro ⟨l, h⟩
    exact labelled_of_mem_scopeOf (mem_scopeOf.mpr h)

section Perm

variable (hperm : (placed lines).Perm (placed lines'))

include hperm

theorem labelled_perm : Labelled lines' x ↔ Labelled lines x := by
  rw [labelled_iff_mem_placed, labelled_iff_mem_placed]
  exact exists_congr fun l => hperm.mem_iff.symm

theorem scopeOf_perm : (scopeOf x lines).Perm (scopeOf x lines') := (hperm.filter _).map _

theorem frameBytes_perm (perCall : Nat) :
    frameBytes perCall x lines' = frameBytes perCall x lines :=
  (((scopeOf_perm hperm).map _).sum_eq).symm

theorem callPairs_perm : (callPairs lines).Perm (callPairs lines') := hperm.filterMap _

end Perm

end Listing

namespace Survey

variable {t : Target} {p : Policy} {perCall : Nat} {g h : CallGraph} {lines lines' : List Line}

/-- **Graphs of the same lines in another order have the same table.** -/
theorem Presents.sameTable (hg : Presents perCall g lines) (hh : Presents perCall h lines')
    (hperm : (placed lines).Perm (placed lines')) : g.SameTable h := by
  have hsome : ∀ {x}, (∃ f, h.at? x = some f) ↔ ∃ f, g.at? x = some f := fun {x} => by
    rw [hh.labelled, hg.labelled, labelled_perm hperm]
  have hfield : ∀ {β : Type} (r : Function → β),
      (∀ {x f f'}, g.at? x = some f → h.at? x = some f' → r f' = r f) →
      ∀ x, (h.at? x).map r = (g.at? x).map r := by
    intro β r hr x
    cases hf : g.at? x with
    | none =>
      cases hf' : h.at? x with
      | none => rfl
      | some f' =>
        obtain ⟨f, e⟩ := hsome.mp ⟨f', hf'⟩
        rw [hf] at e
        cases e
    | some f =>
      obtain ⟨f', hf'⟩ := hsome.mpr ⟨f, hf⟩
      rw [hf']
      exact congrArg some (hr hf hf')
  refine ⟨hg.wellFormed, hh.wellFormed, hfield _ fun hf hf' => ?_, hfield _ fun hf hf' => ?_,
    fun q => ?_⟩
  · rw [hh.size hf', hg.size hf, frameBytes_perm hperm]
  · rw [Bool.eq_iff_iff, hh.dynamic hf', hg.dynamic hf, (scopeOf_perm hperm).mem_iff]
  · rw [hh.pairs, hg.pairs, (callPairs_perm hperm).mem_iff]
    exact and_congr_right fun _ => forall₂_congr fun y _ => labelled_perm hperm

/-- The graph of a listing that was read is marked by no analysis. -/
theorem fresh_read {rows : List (Option String)}
    (h : (read { target := t, policy := p } rows).result = .ok ()) :
    (read { target := t, policy := p } rows).survey.graph.Fresh := by
  obtain ⟨_, hP⟩ := presents_read h
  have hrows := (result_read _ rows).symm.trans h
  have hD : Describes (callBytes t p) (read { target := t, policy := p } rows).survey.graph
      (linesOf t rows) := by
    rw [survey_read h]
    exact (notes_readRows hrows).describes (reads_start.readRows hrows).shows
  refine ⟨fun _ => hP.not_calls_from_pointer, fun _ => hP.isVisited, fun _ => hP.isImprecise,
    fun n hn => ?_⟩
  obtain ⟨f, hf⟩ := CallGraph.isLive_iff.mp (CallGraph.mem_functions.mp hn).2
  rw [CallGraph.isCycle, hf]
  exact (hD.unmarked n f hn hf).2.2.1

/-! ## 2. What is counted -/

/-- What a row adds to the ledger. -/
def counted? (t : Target) (raw : String) : Option (String × Impact) :=
  (mnemonic? (Text.dropLineEnd raw).toList).map fun name => (name, (Line.ofRow t raw).impact)

/-- The ledger with what some rows add to it. -/
def countAll (ledger : Ledger) (counts : List (String × Impact)) : Ledger :=
  counts.foldl (fun l q => l.add q.1 q.2) ledger

theorem ledger_apply (s : Survey) (l : Line) : (s.apply l).1.ledger = s.ledger :=
  field_apply (fun _ _ _ _ _ => rfl) s l

theorem ledger_tally (s : Survey) (text : String) (l : Line) : (s.tally text l).1.ledger =
    countAll s.ledger ((mnemonic? text.toList).map fun name => (name, l.impact)).toList := by
  unfold tally
  cases mnemonic? text.toList with
  | none => rfl
  | some name => rfl

theorem ledger_take {s : Survey} {text : String} {r : Reading}
    (h : ¬ (r.line.needsFunction && s.current.isNone) = true) : (s.take text r).survey.ledger =
      countAll s.ledger ((mnemonic? text.toList).map fun name => (name, r.line.impact)).toList := by
  unfold take
  rw [if_neg h]
  exact (ledger_apply _ _).trans (ledger_tally _ _ _)

theorem ledger_readLine {s : Survey} {raw : String}
    (h : ¬ ((s.lineOf raw).needsFunction && s.current.isNone) = true) :
    (s.readLine raw).survey.ledger = countAll s.ledger (counted? s.target raw).toList := by
  rw [readLine_eq]
  exact ledger_take h

/-- **Reading rows counts each of them**, one after the other. -/
theorem ledger_readRows {s : Survey} {rows : List String} {log : Array Event}
    (h : (s.readRows log (rows.map some)).result = .ok ()) :
    (s.readRows log (rows.map some)).survey.ledger =
      countAll s.ledger (rows.filterMap (counted? s.target)) := by
  induction rows generalizing s log with
  | nil => rfl
  | cons raw rest ih =>
    rw [List.map_cons, readRows_cons] at h ⊢
    by_cases hc : ((s.lineOf raw).needsFunction && s.current.isNone) = true
    · rw [readLine_refused hc] at h
      cases h
    · obtain ⟨hok, _, htarget⟩ := readLine_accepted hc
      rw [hok] at h ⊢
      dsimp only at h ⊢
      rw [ih h, htarget, ledger_readLine hc, List.filterMap_cons, countAll, countAll, countAll,
        ← List.foldl_append]
      cases counted? s.target raw with
      | none => rfl
      | some q => rfl

theorem ledger_read {rows : List String}
    (h : (read { target := t, policy := p } (rows.map some)).result = .ok ()) :
    (read { target := t, policy := p } (rows.map some)).survey.ledger =
      countAll {} (rows.filterMap (counted? t)) := by
  rw [survey_read h, prune_eq]
  exact ledger_readRows ((result_read _ _).symm.trans h)

end Survey

/-! ## 3. Blocks -/

/-- The rows of one function: a label, and rows that open no function, section or file. -/
structure Block (t : Target) where
  label : String
  body : List String
  address : Nat
  name : String
  isLabel : Line.ofRow t label = .label address name
  inside : ∀ raw ∈ body, (Line.ofRow t raw).isHeading = false ∧ (Line.ofRow t raw).labelled? = none

namespace Block

variable {t : Target}

def rows (b : Block t) : List String := b.label :: b.body

def lines (b : Block t) : List Line := b.rows.map (Line.ofRow t)

/-- A line that is no heading and no label leaves the listing in its function. -/
theorem scope_of_inside {l : Line} (h : l.isHeading = false ∧ l.labelled? = none) (c : Option Nat) :
    l.scope c = c := by
  obtain ⟨hheading, hlabel⟩ := h
  cases l with
  | fileFormat _ | sectionStart _ => cases hheading
  | label _ _ => cases hlabel
  | push _ | decrement _ | dynamic | call _ _ | pointerCall | potential | other => rfl

theorem placedFrom_inside {x : Nat} {body rest : List Line}
    (h : ∀ l ∈ body, ∀ c, l.scope c = c) : placedFrom (some x) (body ++ rest) =
      body.map (x, ·) ++ placedFrom (some x) rest := by
  induction body with
  | nil => rfl
  | cons l body ih =>
    rw [List.cons_append, placedFrom, h l List.mem_cons_self,
      ih fun k hk => h k (List.mem_cons_of_mem l hk)]
    rfl

theorem accepted_inside {x : Nat} {body rest : List Line} (h : ∀ l ∈ body, ∀ c, l.scope c = c) :
    accepted (some x) (body ++ rest) = accepted (some x) rest := by
  induction body with
  | nil => rfl
  | cons l body ih =>
    rw [List.cons_append, accepted, h l List.mem_cons_self, Option.isNone_some, Bool.and_false,
      ih fun k hk => h k (List.mem_cons_of_mem l hk)]
    rfl

theorem scope_body (b : Block t) : ∀ l ∈ b.body.map (Line.ofRow t), ∀ c, l.scope c = c := by
  intro l hl c
  obtain ⟨raw, hraw, rfl⟩ := List.mem_map.mp hl
  exact scope_of_inside (b.inside raw hraw) c

theorem lines_eq (b : Block t) :
    b.lines = .label b.address b.name :: b.body.map (Line.ofRow t) := by
  rw [lines, rows, List.map_cons, b.isLabel]

/-- **The lines of a block stand in its function**, wherever the block is. -/
theorem placedFrom_blocks (blocks : List (Block t)) (current : Option Nat) :
    placedFrom current (blocks.flatMap lines) =
      blocks.flatMap fun b => b.lines.map (b.address, ·) := by
  induction blocks generalizing current with
  | nil => rfl
  | cons b blocks ih =>
    rw [List.flatMap_cons, List.flatMap_cons, lines_eq, List.cons_append, placedFrom]
    show _ ++ placedFrom (some b.address) _ = _
    rw [placedFrom_inside b.scope_body, ih]
    rfl

/-- No line of a block stands outside of every function. -/
theorem accepted_blocks (blocks : List (Block t)) (current : Option Nat) :
    accepted current (blocks.flatMap lines) = true := by
  induction blocks generalizing current with
  | nil => rfl
  | cons b blocks ih =>
    rw [List.flatMap_cons, lines_eq, List.cons_append, accepted]
    show (true && accepted (some b.address) _) = true
    rw [accepted_inside b.scope_body, ih]
    rfl

end Block

/-! ## 4. Listings in blocks -/

namespace Listing

variable {t : Target}

/-- The rows of a listing: a file, a section and the blocks of its functions. -/
def rowsOfBlocks (fileRow sectionRow : String) (blocks : List (Block t)) : List String :=
  fileRow :: sectionRow :: blocks.flatMap Block.rows

variable {fileRow sectionRow : String} {blocks blocks' : List (Block t)}

theorem linesOf_map_some (rows : List String) :
    linesOf t (rows.map some) = rows.map (Line.ofRow t) := by
  rw [linesOf, List.filterMap_map]
  exact congrFun (List.filterMap_eq_map (f := Line.ofRow t)) rows

theorem linesOf_rowsOfBlocks : linesOf t ((rowsOfBlocks fileRow sectionRow blocks).map some) =
    Line.ofRow t fileRow :: Line.ofRow t sectionRow :: blocks.flatMap Block.lines := by
  rw [linesOf_map_some, rowsOfBlocks, List.map_cons, List.map_cons, List.map_flatMap]
  rfl

theorem rowsOfBlocks_perm (h : blocks.Perm blocks') :
    (rowsOfBlocks fileRow sectionRow blocks).Perm (rowsOfBlocks fileRow sectionRow blocks') :=
  ((h.flatMap_right _).cons _).cons _

end Listing

namespace Survey

variable {t : Target} {p : Policy} {fileRow sectionRow : String} {blocks blocks' : List (Block t)}

/-- What two measurements have in common that differ in the slots of the functions and in the order
    of their calls. -/
structure SameByAddress (m m' : Verdict × Survey × List Event) : Prop where
  graph : m.2.1.graph.AlikeByAddress m'.2.1.graph
  precise : m'.1.precise = m.1.precise
  cycles : m'.1.cycles.map (·.map m'.2.1.graph.address) = m.1.cycles.map (·.map m.2.1.graph.address)
  ledger : m'.2.1.ledger = m.2.1.ledger

/-- A listing in blocks is read without a fault. -/
theorem result_blocks {file name : String} (hfile : Line.ofRow t fileRow = .fileFormat file)
    (hsection : Line.ofRow t sectionRow = .sectionStart name) (blocks : List (Block t)) :
    (read { target := t, policy := p }
      ((rowsOfBlocks fileRow sectionRow blocks).map some)).result = .ok () := by
  rw [result_read, reads_start.readRows_ok_iff, linesOf_rowsOfBlocks, hfile, hsection]
  refine ⟨fun row hrow => ?_, Block.accepted_blocks blocks none⟩
  obtain ⟨raw, _, rfl⟩ := List.mem_map.mp hrow
  rfl

/-- The lines of the blocks stand in the same functions, whatever the order. -/
theorem placed_blocks_perm {file name : String} (hfile : Line.ofRow t fileRow = .fileFormat file)
    (hsection : Line.ofRow t sectionRow = .sectionStart name) (hperm : blocks.Perm blocks') :
    (placed (linesOf t ((rowsOfBlocks fileRow sectionRow blocks).map some))).Perm
      (placed (linesOf t ((rowsOfBlocks fileRow sectionRow blocks').map some))) := by
  have hplaced : ∀ blocks : List (Block t),
      placed (linesOf t ((rowsOfBlocks fileRow sectionRow blocks).map some)) =
        blocks.flatMap fun b => b.lines.map (b.address, ·) := by
    intro blocks
    rw [linesOf_rowsOfBlocks, hfile, hsection]
    exact Block.placedFrom_blocks blocks none
  rw [hplaced, hplaced]
  exact hperm.flatMap_right _

/-- Surveys whose graphs have the same table are measured alike. -/
theorem sameByAddress_measure {s s' : Survey} (hpolicy : s'.policy = s.policy)
    (hregard : s.policy.regardStartup = true) (e : s.graph.SameTable s'.graph)
    (hfresh : s.graph.Fresh) (hfresh' : s'.graph.Fresh) (hledger : s'.ledger = s.ledger) :
    SameByAddress s.measure s'.measure := by
  unfold measure
  rw [hpolicy]
  exact ⟨e.alike_analyse hfresh hfresh' hregard, e.precise_analyse hfresh hfresh' hregard,
    e.map_cycles_analyse hfresh hfresh', hledger⟩

/-- **The order of the functions does not matter.** A listing is a file heading, a section heading
    and blocks, each a label and lines that are no label and no heading. Under a policy that regards
    every function, in whatever order the blocks come, the listing is read without a fault, and its
    measurement gives the same addresses, at each address the same size, marks and callees and, if
    no recursion can be reached, the same total, and the same precision, cycles by address and
    ledger. -/
theorem block_order_irrelevant (hregard : p.regardStartup = true) {file name : String}
    (hfile : Line.ofRow t fileRow = .fileFormat file)
    (hsection : Line.ofRow t sectionRow = .sectionStart name) (hperm : blocks.Perm blocks') :
    (read { target := t, policy := p }
        ((rowsOfBlocks fileRow sectionRow blocks).map some)).result = .ok () ∧
      (read { target := t, policy := p }
        ((rowsOfBlocks fileRow sectionRow blocks').map some)).result = .ok () ∧
      SameByAddress
        (read { target := t, policy := p }
          ((rowsOfBlocks fileRow sectionRow blocks).map some)).survey.measure
        (read { target := t, policy := p }
          ((rowsOfBlocks fileRow sectionRow blocks').map some)).survey.measure := by
  have hread := result_blocks (p := p) hfile hsection blocks
  have hread' := result_blocks (p := p) hfile hsection blocks'
  obtain ⟨hpolicy, hP⟩ := presents_read hread
  obtain ⟨hpolicy', hP'⟩ := presents_read hread'
  refine ⟨hread, hread', sameByAddress_measure (hpolicy'.trans hpolicy.symm) ?_
    (hP.sameTable hP' (placed_blocks_perm hfile hsection hperm)) (fresh_read hread)
    (fresh_read hread') ?_⟩
  · rw [hpolicy]
    exact hregard
  · rw [ledger_read hread', ledger_read hread]
    exact (Ledger.foldl_add_perm ((rowsOfBlocks_perm hperm).filterMap _) _).symm

/-- Calls a function that comes before or after it, and one that calls itself. -/
def mainBlock : Block .x86_64 where
  label := "10 <main>:"
  body := ["1:\tpush %rbp", "1:\tcall 20 <leaf>", "1:\tcall 30 <loop>"]
  address := 0x10
  name := "main"
  isLabel := by decide +kernel
  inside := by decide +kernel

/-- Makes an indirect call. -/
def leafBlock : Block .x86_64 where
  label := "20 <leaf>:"
  body := ["1:\tsub $32,%rsp", "1:\tcall *%rax"]
  address := 0x20
  name := "leaf"
  isLabel := by decide +kernel
  inside := by decide +kernel

/-- Calls itself. -/
def loopBlock : Block .x86_64 where
  label := "30 <loop>:"
  body := ["1:\tpush %rbp", "1:\tcall 30 <loop>"]
  address := 0x30
  name := "loop"
  isLabel := by decide +kernel
  inside := by decide +kernel

theorem ofRow_headings :
    Line.ofRow .x86_64 "a.out:     file format elf64-x86-64" = .fileFormat "a.out" ∧
      Line.ofRow .x86_64 "Disassembly of section .text:" = .sectionStart ".text" := by
  decide +kernel

theorem lines_blocks :
    mainBlock.lines = [.label 0x10 "main", .push 8, .call 0x20 "leaf", .call 0x30 "loop"] ∧
      leafBlock.lines = [.label 0x20 "leaf", .decrement 32, .pointerCall] ∧
      loopBlock.lines = [.label 0x30 "loop", .push 8, .call 0x30 "loop"] := by
  decide +kernel

/-- The function of a block, with the bytes that it takes. -/
def functionRead (b : Block .x86_64) (size : Nat) : Function where
  address := b.address
  name := b.name
  file := some "a.out"
  sectionName := some ".text"
  size
  visited := true

/-- The functions of three blocks and their calls, put into effect. -/
def blocksRead (first second third : Function) (calls : List Call) : Survey where
  target := .x86_64
  policy := {}
  graph :=
    { slots := #[some { address := 0, name := "Function Pointer" }, some first, some second,
        some third]
      calls }
  file := some "a.out"
  sectionName := some ".text"
  current := some 3

theorem applyAll_blocks :
    ({ target := .x86_64, policy := {} } : Survey).uncounted.applyAll
        (.fileFormat "a.out" :: .sectionStart ".text" ::
          [mainBlock, leafBlock, loopBlock].flatMap Block.lines) =
        blocksRead (functionRead mainBlock 8) (functionRead leafBlock 32) (functionRead loopBlock 8)
          [⟨3, 3, 3⟩, ⟨2, 2, 0⟩, ⟨1, 1, 3⟩, ⟨0, 1, 2⟩] ∧
      ({ target := .x86_64, policy := {} } : Survey).uncounted.applyAll
        (.fileFormat "a.out" :: .sectionStart ".text" ::
          [loopBlock, leafBlock, mainBlock].flatMap Block.lines) =
        blocksRead (functionRead loopBlock 8) (functionRead leafBlock 32) (functionRead mainBlock 8)
          [⟨3, 3, 1⟩, ⟨2, 3, 2⟩, ⟨1, 2, 0⟩, ⟨0, 1, 1⟩] := by
  obtain ⟨hmain, hleaf, hloop⟩ := lines_blocks
  simp only [List.flatMap_cons, List.flatMap_nil, hmain, hleaf, hloop]
  exact ⟨rfl, rfl⟩

/-- In the second order the function that calls itself has another node, and `main` comes last. -/
theorem block_order_irrelevant_reversed :
    (read { target := .x86_64, policy := {} }
        ((rowsOfBlocks "a.out:     file format elf64-x86-64" "Disassembly of section .text:"
          [mainBlock, leafBlock, loopBlock]).map some)).survey.measure.1 = ⟨false, 40, [[3]]⟩ ∧
      (read { target := .x86_64, policy := {} }
        ((rowsOfBlocks "a.out:     file format elf64-x86-64" "Disassembly of section .text:"
          [loopBlock, leafBlock, mainBlock]).map some)).survey.measure.1 = ⟨false, 40, [[1]]⟩ ∧
      SameByAddress
        (read { target := .x86_64, policy := {} }
          ((rowsOfBlocks "a.out:     file format elf64-x86-64" "Disassembly of section .text:"
            [mainBlock, leafBlock, loopBlock]).map some)).survey.measure
        (read { target := .x86_64, policy := {} }
          ((rowsOfBlocks "a.out:     file format elf64-x86-64" "Disassembly of section .text:"
            [loopBlock, leafBlock, mainBlock]).map some)).survey.measure := by
  obtain ⟨hfile, hsection⟩ := ofRow_headings
  have hperm : [mainBlock, leafBlock, loopBlock].Perm [loopBlock, leafBlock, mainBlock] :=
    (List.reverse_perm [mainBlock, leafBlock, loopBlock]).symm
  obtain ⟨hread, hread', hsame⟩ := block_order_irrelevant (p := {}) rfl hfile hsection hperm
  refine ⟨?_, ?_, hsame⟩
  · rw [measure_read hread, linesOf_rowsOfBlocks, hfile, hsection, applyAll_blocks.1]
    cbv
  · rw [measure_read hread', linesOf_rowsOfBlocks, hfile, hsection, applyAll_blocks.2]
    cbv

end Survey

end StackDepth

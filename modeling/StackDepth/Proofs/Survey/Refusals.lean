import StackDepth.Proofs.Survey.Remeasuring
import StackDepth.Proofs.Survey.Strays
import StackDepth.Proofs.Text.Readers

/-!
# Refused rows

A row is refused if it needs a function and none is current. What is refused leaves no trace but in
the number of rows, and what is accepted acts on a function that is there, in every survey that
operations lead to.

* `Reached`, `Reached.current`: the surveys that operations lead to, and that the current function
  of each is one of its graph;
* `exists_error_iff`, `readLine_error`, `readLine_ok`: when a row is refused, and what is left of it
  then and otherwise;
* `Accepts`, `RefusedAfter`: rows that are accepted one after the other, and the first that is not;
* `result_read_iff`, `RefusedAfter.survey_read`: reading a listing ends with that row, and leaves
  what the rows up to it leave one by one.
-/

namespace StackDepth

open StackDepth.Listing

namespace Survey

variable {s : Survey} {raw text : String} {before raws : List String}
  {rows : List (Option String)} {number : Nat} {log : Array Event}

/-! ## 1. Surveys that operations lead to -/

inductive Reached : Survey → Prop where
  | fresh (t : Target) (p : Policy) : Reached (fresh t p)
  | perform (s : Survey) (op : Operation) (h : Reached s) : Reached (s.perform op)

theorem Reached.tracks (h : Reached s) : ∃ labels, Tracks labels s := by
  induction h with
  | fresh t p => exact ⟨[], tracks_fresh t p⟩
  | perform s op _ ih =>
    obtain ⟨labels, hs⟩ := ih
    exact ⟨_, hs.perform op⟩

/-- **The current function is a function of the graph.** -/
theorem Reached.current (h : Reached s) {n : Node} (hn : s.current = some n) :
    n ≠ CallGraph.pointer ∧ s.graph.isLive n = true := by
  obtain ⟨labels, hs⟩ := h.tracks
  obtain ⟨x, _, hfind⟩ := hs.current n hn
  exact CallGraph.mem_functions.mp (CallGraph.find?_some hfind).1

/-! ## 2. One row -/

theorem refuses_iff : ((s.lineOf raw).needsFunction && s.current.isNone) = true ↔
    (s.lineOf raw).needsFunction = true ∧ s.current = none := by
  rw [Bool.and_eq_true, Option.isNone_iff_eq_none]

/-- **A row is refused exactly if it needs a function and none is current.** -/
theorem exists_error_iff : (∃ fault, (s.readLine raw).result = .error fault) ↔
    (s.lineOf raw).needsFunction = true ∧ s.current = none := by
  rw [← refuses_iff]
  constructor
  · intro ⟨fault, hfault⟩
    refine Classical.byContradiction fun h => ?_
    rw [(readLine_accepted h).1] at hfault
    cases hfault
  · exact fun h => ⟨_, readLine_refused h⟩

/-- **What is left of a refused row** is its number, which the fault has with the text. -/
theorem readLine_error {fault : Fault} (h : (s.readLine raw).result = .error fault) :
    fault = .outsideFunction (s.lineNumber + 1) (Text.dropLineEnd raw) ∧
      (s.readLine raw).survey = { s with lineNumber := s.lineNumber + 1 } := by
  have href := refuses_iff.mpr (exists_error_iff.mp ⟨fault, h⟩)
  refine ⟨?_, survey_readLine_refused href⟩
  rw [readLine_refused href] at h
  cases h
  rfl

/-- A row that is accepted gives its line, and where that needs a function there is a current
    one. -/
theorem readLine_ok {line : Line} (h : (s.readLine raw).result = .ok line) :
    line = s.lineOf raw ∧ (line.needsFunction = true → ∃ n, s.current = some n) := by
  have hnot : ¬ ((s.lineOf raw).needsFunction && s.current.isNone) = true := by
    intro href
    rw [readLine_refused href] at h
    cases h
  have hline : line = s.lineOf raw := Except.ok.inj (h.symm.trans (readLine_accepted hnot).1)
  refine ⟨hline, fun hneeds => Option.ne_none_iff_exists'.mp fun hnone => ?_⟩
  rw [hline] at hneeds
  exact hnot (refuses_iff.mpr ⟨hneeds, hnone⟩)

/-! ## 3. Rows one after the other -/

/-- Each row is accepted when its turn comes. -/
def Accepts (s : Survey) : List String → Prop
  | [] => True
  | raw :: raws =>
    (∃ line, (s.readLine raw).result = .ok line) ∧ Accepts (s.readLine raw).survey raws

/-- A listing of such rows is read without a fault. -/
theorem accepts_iff : s.Accepts raws ↔ (s.readRows log (raws.map some)).result = .ok () := by
  induction raws generalizing s log with
  | nil => exact iff_of_true trivial rfl
  | cons raw raws ih =>
    rw [List.map_cons, readRows_cons, Accepts]
    cases (s.readLine raw).result with
    | error fault => exact iff_of_false (fun h => nomatch h.1) nofun
    | ok line => exact (and_iff_right ⟨line, rfl⟩).trans ih

/-- Of the rows of a listing those `before` are accepted, and `raw`, which follows them, is not. -/
structure RefusedAfter (s : Survey) (rows : List (Option String)) (before : List String)
    (raw : String) : Prop where
  rows : (before ++ [raw]).map some <+: rows
  accepted : s.Accepts before
  needs : (s.lineOf raw).needsFunction = true
  outside : (s.readLines before).current = none

/-- The first row is the one that is refused. -/
theorem refusedAfter_nil : RefusedAfter s (some raw :: rows) [] raw ↔
    (s.lineOf raw).needsFunction = true ∧ s.current = none :=
  ⟨fun h => ⟨h.needs, h.outside⟩,
    fun h => ⟨⟨rows, rfl⟩, trivial, h.1, h.2⟩⟩

/-- The first row is accepted, and a later one is refused. -/
theorem refusedAfter_cons {first : String} {row : Option String} :
    RefusedAfter s (row :: rows) (first :: before) raw ↔
      row = some first ∧ (∃ line, (s.readLine first).result = .ok line) ∧
        RefusedAfter (s.readLine first).survey rows before raw := by
  constructor
  · intro h
    have hrows := h.rows
    rw [List.cons_append, List.map_cons, List.cons_prefix_cons] at hrows
    refine ⟨hrows.1.symm, h.accepted.1, hrows.2, h.accepted.2, ?_, ?_⟩
    · rw [lineOf_readLine]
      exact h.needs
    · rw [← readLines_cons]
      exact h.outside
  · intro ⟨hrow, hline, h⟩
    have hneeds := h.needs
    have houtside := h.outside
    rw [lineOf_readLine] at hneeds
    rw [← readLines_cons] at houtside
    refine ⟨?_, ⟨hline, h.accepted⟩, hneeds, houtside⟩
    rw [List.cons_append, List.map_cons, hrow]
    exact List.cons_prefix_cons.mpr ⟨rfl, h.rows⟩

-- sealed, so that comparing two surveys does not read the row
seal readLine in
/-- **How a listing is refused**: after the rows up to one that needs a function where there is
    none, with the number and the text of that row. -/
theorem RefusedAfter.readRows (h : RefusedAfter s rows before raw) (log : Array Event) :
    (s.readRows log rows).result =
        .error (.outsideFunction (s.lineNumber + (before.length + 1)) (Text.dropLineEnd raw)) ∧
      (s.readRows log rows).survey = s.readLines (before ++ [raw]) := by
  induction before generalizing s rows log with
  | nil =>
    obtain ⟨rest, rfl⟩ := h.rows
    have href := refuses_iff.mpr ⟨h.needs, h.outside⟩
    rw [List.nil_append, List.map_cons, List.cons_append, readRows_cons, readLine_refused href,
      readLines_cons]
    exact ⟨rfl, rfl⟩
  | cons first before ih =>
    cases rows with
    | nil => exact absurd h.rows.length_le (by simp)
    | cons row rest =>
      obtain ⟨rfl, ⟨line, hline⟩, hrest⟩ := refusedAfter_cons.mp h
      obtain ⟨hresult, hsurvey⟩ := ih hrest (log ++ (s.readLine first).log.toArray)
      rw [readRows_cons, hline, List.cons_append, readLines_cons, List.length_cons]
      dsimp only
      rw [hresult, hsurvey, lineNumber_readLine]
      exact ⟨by rw [Nat.add_assoc, Nat.add_comm 1], rfl⟩

/-- **Where a listing ends with such a fault**, there is such a row. -/
theorem exists_refusedAfter
    (h : (s.readRows log rows).result = .error (.outsideFunction number text)) :
    ∃ before raw, s.RefusedAfter rows before raw := by
  induction rows generalizing s log with
  | nil => cases h
  | cons row rest ih =>
    cases row with
    | none => cases h
    | some first =>
      rw [readRows_cons] at h
      cases hr : (s.readLine first).result with
      | error fault => exact ⟨[], first, refusedAfter_nil.mpr (exists_error_iff.mp ⟨fault, hr⟩)⟩
      | ok line =>
        rw [hr] at h
        obtain ⟨before, raw, hrest⟩ := ih h
        exact ⟨first :: before, raw, refusedAfter_cons.mpr ⟨rfl, ⟨line, hr⟩, hrest⟩⟩

/-- **Reading a listing ends with such a fault exactly if a row is refused.** -/
theorem result_read_iff : (s.read rows).result = .error (.outsideFunction number text) ↔
    ∃ before raw, s.RefusedAfter rows before raw ∧
      number = s.lineNumber + (before.length + 1) ∧ text = Text.dropLineEnd raw := by
  rw [result_read]
  constructor
  · intro h
    obtain ⟨before, raw, hrefused⟩ := exists_refusedAfter h
    rw [(hrefused.readRows #[]).1] at h
    cases h
    exact ⟨before, raw, hrefused, rfl, rfl⟩
  · rintro ⟨before, raw, hrefused, rfl, rfl⟩
    exact (hrefused.readRows #[]).1

theorem performAll_readLine (s : Survey) (raws : List String) :
    s.performAll (raws.map .readLine) = s.readLines raws := by
  have h := (perform_readLines s [] raws []).1
  rw [List.append_nil] at h
  exact h

/-- **A listing that is refused is not pruned**: it leaves what its rows leave one by one, up to the
    one that is refused. -/
theorem RefusedAfter.survey_read (h : RefusedAfter s rows before raw) :
    (s.read rows).survey = s.performAll ((before ++ [raw]).map .readLine) := by
  have hresult := (result_read s rows).trans (h.readRows #[]).1
  have hsurvey := (survey_readRows s #[] rows).symm.trans (h.readRows #[]).2
  rw [survey_read_of_error hresult, hsurvey, performAll_readLine]

/-! ## 4. Every survey, every row, every listing -/

/-- **Refusals, exactly**, in every survey that operations lead to. The current function is one of
    the graph and not the function pointer. A row is refused if and only if its line needs a
    function and none is current; then nothing changes but the number of rows, and the fault has
    that number and the text of the row. A row that is accepted has a function to act on if it needs
    one. A listing ends with such a fault if and only if the row after some that are accepted is
    refused, and what it leaves is what these rows leave one by one. -/
theorem refusals_exact (hs : Reached s) (raw : String) (rows : List (Option String)) :
    (∀ n, s.current = some n → n ≠ CallGraph.pointer ∧ s.graph.isLive n = true) ∧
      ((∃ fault, (s.readLine raw).result = .error fault) ↔
        (s.lineOf raw).needsFunction = true ∧ s.current = none) ∧
      (∀ fault, (s.readLine raw).result = .error fault →
        (s.readLine raw).survey = { s with lineNumber := s.lineNumber + 1 } ∧
          ∃ text, Text.IsRow text raw ∧ fault = .outsideFunction (s.lineNumber + 1) text) ∧
      (∀ line, (s.readLine raw).result = .ok line → line = s.lineOf raw ∧
        (line.needsFunction = true →
          ∃ n, s.current = some n ∧ n ≠ CallGraph.pointer ∧ s.graph.isLive n = true)) ∧
      (∀ number text, (s.read rows).result = .error (.outsideFunction number text) ↔
        ∃ before raw, s.RefusedAfter rows before raw ∧
          number = s.lineNumber + (before.length + 1) ∧ Text.IsRow text raw) ∧
      ∀ before raw, s.RefusedAfter rows before raw →
        (s.read rows).survey = s.performAll ((before ++ [raw]).map .readLine) := by
  refine ⟨fun n hn => hs.current hn, exists_error_iff, fun fault h => ?_, fun line h => ?_,
    fun number text => ?_, fun before raw h => h.survey_read⟩
  · obtain ⟨hfault, hsurvey⟩ := readLine_error h
    exact ⟨hsurvey, _, Text.isRow_iff.mpr rfl, hfault⟩
  · obtain ⟨hline, hcurrent⟩ := readLine_ok h
    refine ⟨hline, fun hneeds => ?_⟩
    obtain ⟨n, hn⟩ := hcurrent hneeds
    exact ⟨n, hn, hs.current hn⟩
  · simp only [Text.isRow_iff]
    exact result_read_iff

/-- A push in `main`, and then a section without a label. -/
def scopedRows : List String := ["10 <main>:", "1:\tpush %rbp", "Disassembly of section .fini:"]

theorem map_lineOf_scopedRows : scopedRows.map (fresh .x86_64 {}).lineOf =
    [.label 0x10 "main", .push 8, .sectionStart ".fini"] := by
  simp only [scopedRows, lineOf, List.map_cons, List.map_nil, Text.dropLineEnd,
    String.toList_ofList]
  decide +kernel

theorem lineOf_strayRow : (fresh .x86_64 {}).lineOf "1:\tpush %rbp\r\n" = .push 8 := by
  simp only [lineOf, Text.dropLineEnd, String.toList_ofList]
  decide +kernel

seal readLine in
/-- A push after the section is refused, as it is before all rows, and the listing is left where it
    ends, with `main` not pruned. -/
theorem refusals_exact_strayRow :
    ((fresh .x86_64 {}).readLine "1:\tpush %rbp\r\n").survey =
        { fresh .x86_64 {} with lineNumber := 1 } ∧
      ((fresh .x86_64 {}).read ((scopedRows ++ ["1:\tpush %rbp\r\n"]).map some)).result =
        .error (.outsideFunction 4 "1:\tpush %rbp") ∧
      ((fresh .x86_64 {}).read ((scopedRows ++ ["1:\tpush %rbp\r\n"]).map some)).survey =
        (fresh .x86_64 {}).performAll ((scopedRows ++ ["1:\tpush %rbp\r\n"]).map .readLine) ∧
      ((fresh .x86_64 {}).performAll
        ((scopedRows ++ ["1:\tpush %rbp\r\n"]).map .readLine)).graph.isVisited 1 = true := by
  obtain ⟨_, hrefused, hleft, _, hread, hsurvey⟩ := refusals_exact (Reached.fresh .x86_64 {})
    "1:\tpush %rbp\r\n" ((scopedRows ++ ["1:\tpush %rbp\r\n"]).map some)
  have hneeds : ((fresh .x86_64 {}).lineOf "1:\tpush %rbp\r\n").needsFunction = true := by
    rw [lineOf_strayRow]
    rfl
  have haccepts : (fresh .x86_64 {}).Accepts scopedRows := by
    have hlines : linesOf .x86_64 (scopedRows.map some) =
        [.label 0x10 "main", .push 8, .sectionStart ".fini"] := map_lineOf_scopedRows
    have hread : ((fresh .x86_64 {}).readRows #[] (scopedRows.map some)).result = .ok () := by
      refine reads_start.readRows_ok_iff.mpr ⟨by simp, ?_⟩
      rw [hlines]
      rfl
    exact accepts_iff.mpr hread
  have hafter : (fresh .x86_64 {}).RefusedAfter ((scopedRows ++ ["1:\tpush %rbp\r\n"]).map some)
      scopedRows "1:\tpush %rbp\r\n" := by
    refine ⟨⟨[], List.append_nil _⟩, haccepts, hneeds, ?_⟩
    have h := congrArg Survey.current (uncounted_readLines (fresh .x86_64 {}) scopedRows)
    rw [map_lineOf_scopedRows] at h
    exact h.trans rfl
  obtain ⟨fault, hfault⟩ := hrefused.mpr ⟨hneeds, rfl⟩
  refine ⟨(hleft fault hfault).1, (hread _ _).mpr ⟨_, _, hafter, rfl, ?_⟩, hsurvey _ _ hafter, ?_⟩
  · rw [Text.isRow_iff, Text.dropLineEnd]
    decide +kernel
  · have h := congrArg Survey.graph
      (uncounted_readLines (fresh .x86_64 {}) (scopedRows ++ ["1:\tpush %rbp\r\n"]))
    rw [List.map_append, map_lineOf_scopedRows, List.map_singleton, lineOf_strayRow] at h
    rw [performAll_readLine]
    exact (congrArg (CallGraph.isVisited · 1) h).trans rfl

end Survey

end StackDepth

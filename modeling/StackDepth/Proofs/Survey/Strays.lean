import StackDepth.Proofs.Survey.Rows

/-!
# Strays

A line that acts on a function needs a label between itself and the last heading before it. The
first row without one ends the reading, and the fault has the number of the row and its text.

* `Outside`, `outside_iff`: no label stands after the last heading, said of the lines alone;
* `StrayAt`: a row that needs a function and has none;
* `lineNumber_readLine`: the survey counts every row;
* `Reads.result_readRows`: reading ends with a fault at the first stray row, or at a row that is no
  text, or not at all.
-/

namespace StackDepth

open StackDepth.Listing

namespace Line

/-- The line opens a file or a section. -/
def isHeading : Line → Bool
  | fileFormat _ | sectionStart _ => true
  | _ => false

/-- The line that a row holds. -/
def ofRow (target : Target) (raw : String) : Line :=
  (Dialect.of target).classify (Text.dropLineEnd raw).toList

end Line

/-! ## 1. Outside every function -/

namespace Listing

variable {lines : List Line} {l : Line}

/-- After every label there is a heading. -/
def Outside (lines : List Line) : Prop :=
  ∀ before x name after, lines = before ++ .label x name :: after → ∃ l ∈ after, l.isHeading = true

theorem outside_nil : Outside [] := by
  intro before x name after e
  cases before <;> cases e

/-- Where a list with one more element is split, that element is where it is split or stands at the
    end of what follows. -/
theorem concat_eq_append_cons {before after : List Line} {k : Line}
    (e : lines ++ [l] = before ++ k :: after) :
    (lines = before ∧ l = k ∧ after = []) ∨
      ∃ rest, lines = before ++ k :: rest ∧ after = rest ++ [l] := by
  rcases List.eq_nil_or_concat after with rfl | ⟨rest, m, rfl⟩
  · obtain ⟨hlines, hlast⟩ := List.append_inj' e rfl
    exact .inl ⟨hlines, List.singleton_inj.mp hlast, rfl⟩
  · rw [List.concat_eq_append, ← List.cons_append, ← List.append_assoc] at e
    obtain ⟨hlines, hlast⟩ := List.append_inj' e rfl
    rw [List.singleton_inj.mp hlast]
    exact .inr ⟨rest, hlines, List.concat_eq_append⟩

/-- After a heading all is outside. -/
theorem outside_concat_of_isHeading (hl : l.isHeading = true) : Outside (lines ++ [l]) := by
  intro before x name after e
  rcases concat_eq_append_cons e with ⟨_, rfl, _⟩ | ⟨rest, _, rfl⟩
  · cases hl
  · exact ⟨l, List.mem_append_right _ List.mem_cons_self, hl⟩

theorem not_outside_label (x : Nat) (name : String) : ¬ Outside (lines ++ [.label x name]) := by
  intro h
  obtain ⟨l, hl, _⟩ := h lines x name [] rfl
  exact List.not_mem_nil hl

/-- Any other line leaves the listing outside or inside. -/
theorem outside_concat (hl : l.isHeading = false) (hlabel : ∀ x name, l ≠ .label x name) :
    Outside (lines ++ [l]) ↔ Outside lines := by
  constructor
  · intro h before x name after e
    obtain ⟨k, hk, hheading⟩ := h before x name (after ++ [l]) (by
      rw [e, List.append_assoc, List.cons_append])
    rcases List.mem_append.mp hk with hk | hk
    · exact ⟨k, hk, hheading⟩
    · rw [List.mem_singleton.mp hk, hl] at hheading
      cases hheading
  · intro h before x name after e
    rcases concat_eq_append_cons e with ⟨_, hl', _⟩ | ⟨rest, hlines, rfl⟩
    · exact absurd hl' (hlabel x name)
    · obtain ⟨k, hk, hheading⟩ := h before x name rest hlines
      exact ⟨k, List.mem_append_left _ hk, hheading⟩

/-- **No label stands after the last heading exactly if the listing is in no function.** -/
theorem outside_iff : Outside lines ↔ scopeAfter lines = none := by
  induction lines using List.reverseRecOn with
  | nil => exact iff_of_true outside_nil rfl
  | append_singleton lines l ih =>
    rw [scopeAfter_concat]
    cases l with
    | fileFormat _ | sectionStart _ => exact iff_of_true (outside_concat_of_isHeading rfl) rfl
    | label x name => exact iff_of_false (not_outside_label x name) nofun
    | push _ | decrement _ | dynamic | call _ _ | pointerCall | potential | other =>
      exact (outside_concat rfl fun _ _ e => by cases e).trans ih

end Listing

/-! ## 2. Stray rows -/

variable {t : Target} {p : Policy} {lines : List Line} {rows : List (Option String)} {i : Nat}
  {raw row : String}

/-- Row `i`, counted from 0, of the `rows` that follow `lines` needs a function and stands outside
    of every function. All rows before it are text. -/
structure StrayAt (t : Target) (lines : List Line) (rows : List (Option String)) (i : Nat)
    (raw : String) : Prop where
  row : rows[i]? = some (some raw)
  text : none ∉ rows.take i
  needs : (Line.ofRow t raw).needsFunction = true
  outside : Outside (lines ++ linesOf t (rows.take i))

theorem not_strayAt_nil : ¬ StrayAt t lines [] i raw := fun h => nomatch h.row

theorem not_strayAt_none : ¬ StrayAt t lines (none :: rows) i raw := by
  intro h
  cases i with
  | zero => cases h.row
  | succ i => exact h.text List.mem_cons_self

theorem strayAt_zero : StrayAt t lines (some row :: rows) 0 raw ↔
    row = raw ∧ (Line.ofRow t row).needsFunction = true ∧ Outside lines := by
  constructor
  · intro h
    have hrow : row = raw := Option.some.inj (Option.some.inj h.row)
    refine ⟨hrow, hrow ▸ h.needs, ?_⟩
    have houtside := h.outside
    rw [List.take_zero] at houtside
    exact (List.append_nil lines) ▸ houtside
  · rintro ⟨rfl, hneeds, houtside⟩
    exact ⟨rfl, List.not_mem_nil, hneeds, (List.append_nil lines).symm ▸ houtside⟩

theorem strayAt_succ : StrayAt t lines (some row :: rows) (i + 1) raw ↔
    StrayAt t (lines ++ [Line.ofRow t row]) rows i raw := by
  have hlines : lines ++ linesOf t ((some row :: rows).take (i + 1)) =
      lines ++ [Line.ofRow t row] ++ linesOf t (rows.take i) := by
    rw [List.append_assoc]
    rfl
  have htext : none ∉ (some row :: rows).take (i + 1) ↔ none ∉ rows.take i := by
    rw [List.take_succ_cons, List.mem_cons, or_iff_right nofun]
  constructor
  · intro h
    exact ⟨h.row, htext.mp h.text, h.needs, hlines ▸ h.outside⟩
  · intro h
    exact ⟨h.row, htext.mpr h.text, h.needs, hlines ▸ h.outside⟩

/-! ## 3. The number of a row -/

namespace Survey

variable {s : Survey} {l : Line}

/-- What a line leaves alone in a survey: all but the graph, the headings and the current
    function. -/
theorem field_apply {β : Type} {r : Survey → β}
    (hr : ∀ (s : Survey) graph file sectionName current,
      r { s with graph, file, sectionName, current } = r s) (s : Survey) (l : Line) :
    r (s.apply l).1 = r s := by
  have hin : (∀ c, l.scope c = c) → r (s.apply l).1 = r s := by
    intro hl
    rw [apply_inside hl]
    cases s.current with
    | none => rfl
    | some n =>
      show r (s.applyIn n l) = r s
      rw [applyIn_eq]
      exact hr s _ s.file s.sectionName s.current
  cases l with
  | fileFormat _ => exact hr s s.graph _ _ _
  | sectionStart _ => exact hr s s.graph s.file _ _
  | label _ _ => exact hr s _ s.file s.sectionName _
  | push _ | decrement _ | dynamic | call _ _ | pointerCall | potential | other =>
    exact hin fun _ => rfl

theorem lineNumber_apply (s : Survey) (l : Line) : (s.apply l).1.lineNumber = s.lineNumber :=
  field_apply (fun _ _ _ _ _ => rfl) s l

theorem lineNumber_take (s : Survey) (text : String) (reading : Reading) :
    (s.take text reading).survey.lineNumber = s.lineNumber := by
  obtain ⟨ledger, hledger⟩ := tally_eq s text reading.line
  unfold take
  dsimp only
  split
  · rfl
  · exact (lineNumber_apply _ _).trans (by rw [hledger])

/-- **Every row is counted.** -/
theorem lineNumber_readLine (s : Survey) (raw : String) :
    (s.readLine raw).survey.lineNumber = s.lineNumber + 1 := by
  rw [readLine_eq]
  exact lineNumber_take _ _ _

/-- A row is refused exactly if it is stray. -/
theorem Reads.refuses_iff (hr : Reads t p s lines) :
    ((s.lineOf raw).needsFunction && s.current.isNone) = true ↔
      (Line.ofRow t raw).needsFunction = true ∧ Outside lines := by
  rw [Bool.and_eq_true, hr.isNone_current, Option.isNone_iff_eq_none, outside_iff,
    lineOf, hr.target]
  rfl

/-- **How reading ends.** At the first stray row, with its number and its text; or else at a row
    that is no text; or else without a fault. -/
theorem Reads.result_readRows (hr : Reads t p s lines) (rows : List (Option String))
    (log : Array Event) :
    (∃ i raw, (s.readRows log rows).result =
          .error (.outsideFunction (s.lineNumber + i + 1) (Text.dropLineEnd raw)) ∧
        StrayAt t lines rows i raw ∧ ∀ j r, StrayAt t lines rows j r → i ≤ j) ∨
      ((∀ i raw, ¬ StrayAt t lines rows i raw) ∧ (s.readRows log rows).result =
        if none ∈ rows then .error (.unreadable .invalidText) else .ok ()) := by
  induction rows generalizing s log lines with
  | nil => exact .inr ⟨fun _ _ => not_strayAt_nil, rfl⟩
  | cons row rest ih =>
    cases row with
    | none =>
      refine .inr ⟨fun _ _ => not_strayAt_none, ?_⟩
      rw [if_pos List.mem_cons_self]
      rfl
    | some row =>
      rw [readRows_cons]
      by_cases hc : ((s.lineOf row).needsFunction && s.current.isNone) = true
      · rw [readLine_refused hc]
        exact .inl ⟨0, row, rfl, strayAt_zero.mpr ⟨rfl, hr.refuses_iff.mp hc⟩,
          fun j _ _ => Nat.zero_le j⟩
      · have hfirst : ∀ r, ¬ StrayAt t lines (some row :: rest) 0 r :=
          fun r h => hc (hr.refuses_iff.mpr (strayAt_zero.mp h).2)
        have hnext := hr.readLine hc
        rw [show s.lineOf row = Line.ofRow t row by rw [lineOf, hr.target]; rfl] at hnext
        rw [(readLine_accepted hc).1]
        rcases ih hnext _ with ⟨i, raw, hresult, hstray, hleast⟩ | ⟨hnone, hresult⟩
        · refine .inl ⟨i + 1, raw, ?_, strayAt_succ.mpr hstray, fun j r hj => ?_⟩
          · rw [hresult, lineNumber_readLine, Nat.add_right_comm s.lineNumber 1 i]
            rfl
          · cases j with
            | zero => exact absurd hj (hfirst r)
            | succ j => exact Nat.succ_le_succ (hleast j r (strayAt_succ.mp hj))
        · refine .inr ⟨fun i raw h => ?_, ?_⟩
          · cases i with
            | zero => exact hfirst raw h
            | succ i => exact hnone i raw (strayAt_succ.mp h)
          · rw [hresult]
            simp only [List.mem_cons, reduceCtorEq, false_or]

end Survey

end StackDepth

import StackDepth.Proofs.Survey.Reading

/-!
# Rows

A survey reads rows of text. What it makes of them is what their lines do one after the other, as
long as none of them is refused.

* `applyIn_eq`: a line inside a function changes the graph alone;
* `uncounted_apply`: no line asks for the ledger or for the number of the line;
* `readRows_ok_iff`: rows are read without a fault exactly if all are text and no line that needs a
  function stands outside of every function;
* `uncounted_readRows`, `Reads.readRows`: then the survey is the one that took in all the lines.
-/

namespace StackDepth

open StackDepth.Listing

namespace Survey

variable {t : Target} {p : Policy} {s : Survey} {lines : List Line} {l : Line}

/-! ## 1. What no line changes or asks for -/

/-- A direct call changes nothing but the graph. -/
theorem call_eq (s : Survey) (n : Node) (address : Nat) (name : String) :
    s.call n address name = { s with graph := (s.call n address name).graph } := by
  unfold Survey.call
  dsimp only
  by_cases hc : s.policy.countReturnAddress = true
  · rw [if_pos hc]
    rfl
  · rw [if_neg hc]

/-- **A line inside a function changes nothing but the graph.** -/
theorem applyIn_eq (s : Survey) (n : Node) (l : Line) :
    s.applyIn n l = { s with graph := (s.applyIn n l).graph } := by
  cases l with
  | call address name => exact call_eq s n address name
  | push _ | decrement _ | dynamic | pointerCall | potential | other | fileFormat _
  | sectionStart _ | label _ _ => rfl

/-- The survey without the number of lines and what is counted of them. No line asks for these. -/
def uncounted (s : Survey) : Survey := { s with ledger := {}, lineNumber := 0 }

theorem uncounted_call (s : Survey) (n : Node) (address : Nat) (name : String) :
    (s.call n address name).uncounted = s.uncounted.call n address name ∧
      (s.call n address name).target = s.target := by
  unfold Survey.call uncounted
  dsimp only
  generalize (if name.isEmpty then s.graph.addUnnamed address
    else s.graph.addFunction address name) = q
  by_cases hc : s.policy.countReturnAddress = true
  · rw [if_pos hc, if_pos hc]
    exact ⟨rfl, rfl⟩
  · rw [if_neg hc, if_neg hc]
    exact ⟨rfl, rfl⟩

theorem uncounted_applyIn (s : Survey) (n : Node) (l : Line) :
    (s.applyIn n l).uncounted = s.uncounted.applyIn n l ∧ (s.applyIn n l).target = s.target := by
  cases l with
  | call address name => exact uncounted_call s n address name
  | push _ | decrement _ | dynamic | pointerCall | potential | other | fileFormat _
  | sectionStart _ | label _ _ => exact ⟨rfl, rfl⟩

theorem uncounted_apply (s : Survey) (l : Line) :
    (s.apply l).1.uncounted = (s.uncounted.apply l).1 ∧ (s.apply l).1.target = s.target := by
  have hin : (∀ c, l.scope c = c) → (s.apply l).1.uncounted = (s.uncounted.apply l).1 ∧
      (s.apply l).1.target = s.target := by
    intro hl
    rw [apply_inside hl, apply_inside hl, show s.uncounted.current = s.current from rfl]
    cases s.current with
    | none => exact ⟨rfl, rfl⟩
    | some n => exact uncounted_applyIn s n l
  cases l with
  | fileFormat _ | sectionStart _ | label _ _ => exact ⟨rfl, rfl⟩
  | push _ | decrement _ | dynamic | call _ _ | pointerCall | potential | other =>
    exact hin fun _ => rfl

/-! ## 2. One row -/

/-- A line is counted in the ledger alone. -/
theorem tally_eq (s : Survey) (text : String) (l : Line) :
    ∃ ledger, (s.tally text l).1 = { s with ledger } := by
  unfold tally
  split
  · exact ⟨s.ledger, rfl⟩
  · exact ⟨_, rfl⟩

/-- What is done with a row once it is read as a line. -/
def take (s : Survey) (text : String) (reading : Reading) : Outcome Line :=
  let refused := if reading.refused then [Event.decrementRefused text] else []
  if reading.line.needsFunction && s.current.isNone then
    ⟨.error (.outsideFunction s.lineNumber text), s, refused⟩
  else
    let (s, counted) := s.tally text reading.line
    let (s, applied) := s.apply reading.line
    ⟨.ok reading.line, s, refused ++ counted ++ applied⟩

theorem readLine_eq (s : Survey) (raw : String) : s.readLine raw =
    take { s with lineNumber := s.lineNumber + 1 } (Text.dropLineEnd raw)
      ((dialect { s with lineNumber := s.lineNumber + 1 }).read (Text.dropLineEnd raw).toList) := by
  unfold readLine take
  rfl

/-- A line that needs a function is refused where none is current, with its number and its text. -/
theorem take_refused {text : String} {reading : Reading}
    (h : (reading.line.needsFunction && s.current.isNone) = true) :
    (s.take text reading).result = .error (.outsideFunction s.lineNumber text) := by
  unfold take
  rw [if_pos h]

/-- Every other line is put into effect. -/
theorem take_accepted {text : String} {reading : Reading}
    (h : ¬ (reading.line.needsFunction && s.current.isNone) = true) :
    (s.take text reading).result = .ok reading.line ∧
      (s.take text reading).survey.uncounted = (s.uncounted.apply reading.line).1 ∧
      (s.take text reading).survey.target = s.target := by
  obtain ⟨ledger, hledger⟩ := tally_eq s text reading.line
  have happly := uncounted_apply (s.tally text reading.line).1 reading.line
  unfold take
  rw [if_neg h]
  refine ⟨rfl, happly.1.trans ?_, happly.2.trans ?_⟩
  · rw [hledger]
    rfl
  · rw [hledger]

/-- The line of a row. -/
abbrev lineOf (s : Survey) (raw : String) : Line :=
  (Dialect.of s.target).classify (Text.dropLineEnd raw).toList

theorem readLine_refused {raw : String}
    (h : ((s.lineOf raw).needsFunction && s.current.isNone) = true) :
    (s.readLine raw).result =
      .error (.outsideFunction (s.lineNumber + 1) (Text.dropLineEnd raw)) := by
  rw [readLine_eq]
  exact take_refused h

theorem readLine_accepted {raw : String}
    (h : ¬ ((s.lineOf raw).needsFunction && s.current.isNone) = true) :
    (s.readLine raw).result = .ok (s.lineOf raw) ∧
      (s.readLine raw).survey.uncounted = (s.uncounted.apply (s.lineOf raw)).1 ∧
      (s.readLine raw).survey.target = s.target := by
  rw [readLine_eq]
  exact take_accepted h

/-! ## 3. Any number of rows -/

-- sealed, so that comparing the two sides does not read the row
seal readLine in
theorem readRows_cons (s : Survey) (log : Array Event) (raw : String)
    (rest : List (Option String)) :
    s.readRows log (some raw :: rest) =
      match (s.readLine raw).result with
      | .error fault => ⟨.error fault, (s.readLine raw).survey,
          (log ++ (s.readLine raw).log.toArray).toList⟩
      | .ok _ => readRows (s.readLine raw).survey (log ++ (s.readLine raw).log.toArray) rest := rfl

theorem linesOf_cons (t : Target) (raw : String) (rest : List (Option String)) :
    linesOf t (some raw :: rest) =
      (Dialect.of t).classify (Text.dropLineEnd raw).toList :: linesOf t rest := rfl

/-- What counts beside the graph is the same for a survey without its counts. -/
theorem reads_uncounted : Reads t p s.uncounted lines ↔ Reads t p s lines := by
  constructor
  · intro h
    exact ⟨h.target, h.policy, h.shows, h.current⟩
  · intro h
    exact ⟨h.target, h.policy, h.shows, h.current⟩

/-- One row, in a survey that shows the lines before it. -/
theorem Reads.readLine (hr : Reads t p s lines) {raw : String}
    (h : ¬ ((s.lineOf raw).needsFunction && s.current.isNone) = true) :
    Reads t p (s.readLine raw).survey (lines ++ [s.lineOf raw]) := by
  rw [← reads_uncounted, (readLine_accepted h).2.1]
  exact (reads_uncounted.mpr hr).apply _

/-- **The survey after all rows is the one that took in all their lines.** -/
theorem uncounted_readRows {rows : List (Option String)} {log : Array Event}
    (h : (s.readRows log rows).result = .ok ()) :
    (s.readRows log rows).survey.uncounted = s.uncounted.applyAll (linesOf s.target rows) := by
  induction rows generalizing s log with
  | nil => rfl
  | cons row rest ih =>
    cases row with
    | none => cases h
    | some raw =>
      rw [readRows_cons] at h ⊢
      by_cases hc : ((s.lineOf raw).needsFunction && s.current.isNone) = true
      · rw [readLine_refused hc] at h
        cases h
      · obtain ⟨hok, hsurvey, htarget⟩ := readLine_accepted hc
        rw [hok] at h ⊢
        dsimp only at h ⊢
        rw [ih h, hsurvey, htarget, linesOf_cons, applyAll_cons]

theorem Reads.readRows (hr : Reads t p s lines) {rows : List (Option String)} {log : Array Event}
    (h : (s.readRows log rows).result = .ok ()) :
    Reads t p (s.readRows log rows).survey (lines ++ linesOf t rows) := by
  rw [← reads_uncounted, uncounted_readRows h, hr.target]
  exact (reads_uncounted.mpr hr).applyAll

/-- **Rows are read without a fault exactly if all are text and no line that needs a function stands
    outside of every function.** -/
theorem Reads.readRows_ok_iff (hr : Reads t p s lines) {rows : List (Option String)}
    {log : Array Event} : (s.readRows log rows).result = .ok () ↔
      (∀ row ∈ rows, row.isSome = true) ∧ accepted (scopeAfter lines) (linesOf t rows) = true := by
  induction rows generalizing s log lines with
  | nil => exact iff_of_true rfl ⟨fun _ h => absurd h List.not_mem_nil, rfl⟩
  | cons row rest ih =>
    cases row with
    | none => exact iff_of_false nofun fun h => Bool.false_ne_true (h.1 none List.mem_cons_self)
    | some raw =>
      have hline : s.lineOf raw = (Dialect.of t).classify (Text.dropLineEnd raw).toList := by
        rw [lineOf, hr.target]
      have hcurrent : s.current.isNone = (scopeAfter lines).isNone := hr.isNone_current
      rw [readRows_cons, linesOf_cons, accepted, ← hline, ← hcurrent, List.forall_mem_cons]
      by_cases hc : ((s.lineOf raw).needsFunction && s.current.isNone) = true
      · rw [readLine_refused hc, hc]
        exact iff_of_false nofun fun h => Bool.false_ne_true h.2
      · rw [(readLine_accepted hc).1, Bool.eq_false_iff.mpr hc]
        refine (ih (hr.readLine hc)).trans ?_
        rw [scopeAfter_concat]
        exact and_congr (and_iff_right rfl).symm Iff.rfl

end Survey

end StackDepth

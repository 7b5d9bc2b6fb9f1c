import StackDepth.Proofs.Survey.Contents

/-!
# Operations on a survey

Rows are read one by one or as a listing, phantoms are pruned and the stack is measured, in any
order and as often as asked for, and a survey goes on after a fault with what it has.

* `Operation`, `perform`, `performAll`: the operations, and any number of them;
* `survey_readRows`: a listing is read row by row, up to the one with the fault;
* `uncounted_readLine`: a row does to the graph what its line does, also where it is refused;
* `applyIn_induction`: what a line inside a function can do to the graph;
* `recentLabels`: the addresses that were labelled since the last pruning;
* `apply_induction`, `perform_induction`: what labels, headings and the lines inside a function
  keep, every line keeps; what every line and a pruning keep, an operation keeps.
-/

namespace StackDepth

open StackDepth.Listing

namespace Survey

variable {s : Survey} {l : Line}

/-! ## 1. Operations -/

inductive Operation where
  | readLine (raw : String)
  | read (rows : List (Option String))
  | prune
  | measure

/-- A survey with which nothing was done. -/
abbrev fresh (target : Target) (policy : Policy) : Survey := { target, policy }

/-- The survey that an operation leaves, also where it ends with a fault. -/
def perform (s : Survey) : Operation → Survey
  | .readLine raw => (s.readLine raw).survey
  | .read rows => (s.read rows).survey
  | .prune => s.prune.1
  | .measure => s.measure.2.1

def performAll (s : Survey) (ops : List Operation) : Survey := ops.foldl perform s

theorem performAll_cons (s : Survey) (op : Operation) (ops : List Operation) :
    s.performAll (op :: ops) = (s.perform op).performAll ops := rfl

theorem performAll_append (s : Survey) (ops more : List Operation) :
    s.performAll (ops ++ more) = (s.performAll ops).performAll more :=
  List.foldl_append ..

theorem performAll_concat (s : Survey) (ops : List Operation) (op : Operation) :
    s.performAll (ops ++ [op]) = (s.performAll ops).perform op :=
  performAll_append s ops [op]

/-! ## 2. Rows -/

/-- The rows that reading gets to, the last of which may be refused. -/
def rowsRead (s : Survey) : List (Option String) → List String
  | some raw :: rest =>
    raw :: match (s.readLine raw).result with
      | .ok _ => rowsRead (s.readLine raw).survey rest
      | .error _ => []
  | _ => []

/-- Rows one after the other, whether or not they are refused. -/
def readLines (s : Survey) (raws : List String) : Survey :=
  raws.foldl (fun s raw => (s.readLine raw).survey) s

-- sealed, so that comparing two surveys does not read the row
seal readLine in
theorem rowsRead_cons (s : Survey) (raw : String) (rest : List (Option String)) :
    s.rowsRead (some raw :: rest) =
      raw :: match (s.readLine raw).result with
        | .ok _ => rowsRead (s.readLine raw).survey rest
        | .error _ => [] := by
  rfl

theorem readLines_cons (s : Survey) (raw : String) (raws : List String) :
    s.readLines (raw :: raws) = (s.readLine raw).survey.readLines raws :=
  List.foldl_cons ..

/-- **A listing is read row by row**, up to the one with the fault. -/
theorem survey_readRows (s : Survey) (log : Array Event) (rows : List (Option String)) :
    (s.readRows log rows).survey = s.readLines (s.rowsRead rows) := by
  induction rows generalizing s log with
  | nil => rfl
  | cons row rest ih =>
    cases row with
    | none => rfl
    | some raw =>
      rw [readRows_cons, rowsRead_cons, readLines_cons]
      cases (s.readLine raw).result with
      | error fault => rfl
      | ok line => exact ih _ _

/-- Where there is a fault, nothing is pruned. -/
theorem survey_read_of_error {rows : List (Option String)} {fault : Fault}
    (h : (s.read rows).result = .error fault) :
    (s.read rows).survey = s.readLines (s.rowsRead rows) := by
  rw [result_read] at h
  rw [← survey_readRows s #[]]
  unfold read
  dsimp only
  rw [h]

/-- A line that is refused would do nothing. -/
theorem apply_refused (h : (l.needsFunction && s.current.isNone) = true) : (s.apply l).1 = s := by
  obtain ⟨hneeds, hnone⟩ := Bool.and_eq_true_iff.mp h
  have hl : ∀ c, l.scope c = c := by
    cases l with
    | fileFormat _ | sectionStart _ | label _ _ => cases hneeds
    | push _ | decrement _ | dynamic | call _ _ | pointerCall | potential | other =>
      exact fun _ => rfl
  rw [apply_inside hl, Option.isNone_iff_eq_none.mp hnone]
  rfl

theorem survey_take_refused {text : String} {reading : Reading}
    (h : (reading.line.needsFunction && s.current.isNone) = true) :
    (s.take text reading).survey = s := by
  unfold take
  rw [if_pos h]

/-- A row that is refused is counted, and nothing else. -/
theorem survey_readLine_refused {raw : String}
    (h : ((s.lineOf raw).needsFunction && s.current.isNone) = true) :
    (s.readLine raw).survey = { s with lineNumber := s.lineNumber + 1 } := by
  rw [readLine_eq]
  exact survey_take_refused h

/-- **A row does what its line does**, but for what is counted, also where it is refused. -/
theorem uncounted_readLine (s : Survey) (raw : String) :
    (s.readLine raw).survey.uncounted = (s.apply (s.lineOf raw)).1.uncounted := by
  by_cases h : ((s.lineOf raw).needsFunction && s.current.isNone) = true
  · rw [apply_refused h, survey_readLine_refused h]
    rfl
  · rw [(readLine_accepted h).2.1, (uncounted_apply s (s.lineOf raw)).1]

theorem target_uncounted (s : Survey) : s.uncounted.target = s.target := rfl

theorem target_readLine (s : Survey) (raw : String) :
    (s.readLine raw).survey.target = s.target := by
  rw [← target_uncounted, uncounted_readLine, target_uncounted, (uncounted_apply s _).2]

theorem target_readLines (s : Survey) (raws : List String) :
    (s.readLines raws).target = s.target := by
  induction raws generalizing s with
  | nil => rfl
  | cons raw raws ih => rw [readLines_cons, ih, target_readLine]

theorem lineOf_readLine (s : Survey) (raw : String) :
    (s.readLine raw).survey.lineOf = s.lineOf := by
  funext r
  rw [lineOf, lineOf, target_readLine]

/-- Rows that are refused are no different from lines without effect. -/
theorem uncounted_readLines (s : Survey) (raws : List String) :
    (s.readLines raws).uncounted = s.uncounted.applyAll (raws.map s.lineOf) := by
  induction raws generalizing s with
  | nil => rfl
  | cons raw raws ih =>
    rw [readLines_cons, ih, uncounted_readLine, lineOf_readLine, (uncounted_apply s _).1,
      List.map_cons, applyAll_cons]

/-! ## 3. A line inside a function -/

/-- **What a line inside the function `n` can do to the graph**: enter a function that is called,
    add a call of `n`, and change what `n` has beside its address and its mark. -/
theorem applyIn_induction {P : CallGraph → Prop} {n : Node} (hwf : ∀ g, P g → g.WellFormed)
    (hinsert : ∀ g address name, P g → P (g.insert (Function.named address name)).2)
    (hcall : ∀ g m, P g → g.isLive m = true → P (g.addCall n m).2)
    (hmodify : ∀ g k, P g →
      (∀ f : Function, (k f).address = f.address ∧ (k f).visited = f.visited) →
      P (g.modify n k)) (h : P s.graph) (l : Line) : P (s.applyIn n l).graph := by
  cases l with
  | push _ | decrement _ | dynamic => exact hmodify _ _ h fun _ => ⟨rfl, rfl⟩
  | pointerCall => exact hcall _ _ h (hwf _ h).pointerLive
  | potential | other | fileFormat _ | sectionStart _ | label _ _ => exact h
  | call address name =>
    obtain ⟨symbol, hsymbol⟩ : ∃ symbol, (if name.isEmpty then s.graph.addUnnamed address
        else s.graph.addFunction address name) =
          s.graph.insert (Function.named address symbol) := by
      split
      · exact ⟨_, rfl⟩
      · exact ⟨_, rfl⟩
    have hfound := (hwf _ h).find?_insert (Function.named address symbol)
    have hlive := (CallGraph.mem_functions.mp (CallGraph.find?_some hfound).1).2
    have hadd := hcall _ _ (hinsert _ address symbol h) hlive
    show P (s.call n address name).graph
    unfold Survey.call
    rw [hsymbol]
    dsimp only
    by_cases hc : s.policy.countReturnAddress = true
    · rw [if_pos hc]
      exact hmodify _ _ hadd fun _ => ⟨rfl, rfl⟩
    · rw [if_neg hc]
      exact hadd

/-! ## 4. Labels since the last pruning -/

theorem labels_cons (l : Line) (lines : List Line) :
    Listing.labels (l :: lines) = Listing.labels [l] ++ Listing.labels lines :=
  List.filterMap_append (l := [l])

/-- The addresses that were labelled since the last pruning, where these are `labels` before the
    operation. A listing that is read without a fault is pruned at its end. -/
def labelsAfter (s : Survey) (labels : List Nat) : Operation → List Nat
  | .readLine raw => labels ++ Listing.labels [s.lineOf raw]
  | .read rows =>
    match (s.read rows).result with
    | .ok _ => []
    | .error _ => labels ++ Listing.labels ((s.rowsRead rows).map s.lineOf)
  | .prune => []
  | .measure => labels

def recentLabels (s : Survey) (labels : List Nat) : List Operation → List Nat
  | [] => labels
  | op :: ops => recentLabels (s.perform op) (s.labelsAfter labels op) ops

theorem recentLabels_cons (s : Survey) (labels : List Nat) (op : Operation) (ops : List Operation) :
    s.recentLabels labels (op :: ops) =
      (s.perform op).recentLabels (s.labelsAfter labels op) ops := rfl

section Induction

variable {I : List Nat → Survey → Prop} {labels : List Nat}

/-- **One line**: it ends a scope, labels a function or stands inside one. -/
theorem apply_induction (h : I labels s)
    (hheading : ∀ s' : Survey, s'.graph = s.graph → s'.current = none → I labels s')
    (henter : ∀ x name, I (labels ++ [x]) (s.enter x name))
    (hinside : ∀ n, s.current = some n → ∀ l, I labels (s.applyIn n l)) (l : Line) :
    I (labels ++ Listing.labels [l]) (s.apply l).1 := by
  have hnone : Listing.labels [l] = [] → I labels (s.apply l).1 →
      I (labels ++ Listing.labels [l]) (s.apply l).1 := by
    intro hl h'
    rw [hl, List.append_nil]
    exact h'
  have hin : (∀ c, l.scope c = c) → I labels (s.apply l).1 := by
    intro hl
    rw [apply_inside hl]
    cases hn : s.current with
    | none => exact h
    | some n => exact hinside n hn l
  cases l with
  | fileFormat _ | sectionStart _ => exact hnone rfl (hheading _ rfl rfl)
  | label x name => exact henter x name
  | push _ | decrement _ | dynamic | call _ _ | pointerCall | potential | other =>
    exact hnone rfl (hin fun _ => rfl)

/-- **What every line keeps, rows keep**, whether or not they are refused. `I` is told what was
    labelled. -/
theorem readLines_induction (huncounted : ∀ {labels s}, I labels s.uncounted ↔ I labels s)
    (happly : ∀ {labels s} l, I labels s → I (labels ++ Listing.labels [l]) (s.apply l).1)
    (h : I labels s) (raws : List String) :
    I (labels ++ Listing.labels (raws.map s.lineOf)) (s.readLines raws) := by
  rw [← huncounted, uncounted_readLines]
  generalize raws.map s.lineOf = lines
  rw [← huncounted] at h
  generalize s.uncounted = s at h ⊢
  induction lines generalizing s labels with
  | nil =>
    rw [show Listing.labels [] = [] from rfl, List.append_nil]
    exact h
  | cons l lines ih =>
    rw [applyAll_cons, labels_cons, ← List.append_assoc]
    exact ih _ (happly l h)

/-- **What every line and a pruning keep, an operation keeps** that is no measurement. -/
theorem perform_induction (huncounted : ∀ {labels s}, I labels s.uncounted ↔ I labels s)
    (happly : ∀ {labels s} l, I labels s → I (labels ++ Listing.labels [l]) (s.apply l).1)
    (hprune : ∀ {labels s}, I labels s → I [] s.prune.1) (h : I labels s) {op : Operation}
    (hop : op ≠ .measure) : I (s.labelsAfter labels op) (s.perform op) := by
  have hlines := readLines_induction (I := I) huncounted happly h
  cases op with
  | readLine raw => exact hlines [raw]
  | prune => exact hprune h
  | measure => exact absurd rfl hop
  | read rows =>
    unfold labelsAfter perform
    dsimp only
    cases hr : (s.read rows).result with
    | ok u =>
      rw [survey_read hr, survey_readRows]
      exact hprune (hlines _)
    | error fault =>
      rw [survey_read_of_error hr]
      exact hlines _

end Induction

/-- Rows that are read one by one. -/
theorem perform_readLines (s : Survey) (labels : List Nat) (raws : List String)
    (ops : List Operation) :
    s.performAll (raws.map .readLine ++ ops) = (s.readLines raws).performAll ops ∧
      s.recentLabels labels (raws.map .readLine ++ ops) =
        (s.readLines raws).recentLabels (labels ++ Listing.labels (raws.map s.lineOf)) ops := by
  induction raws generalizing s labels with
  | nil => simp [readLines, Listing.labels]
  | cons raw raws ih =>
    obtain ⟨hsurvey, hlabels⟩ := ih (s.readLine raw).survey
      (labels ++ Listing.labels [s.lineOf raw])
    rw [lineOf_readLine, List.append_assoc, ← labels_cons] at hlabels
    rw [List.map_cons, List.cons_append, performAll_cons, recentLabels_cons, readLines_cons,
      show s.perform (.readLine raw) = (s.readLine raw).survey from rfl]
    exact ⟨hsurvey, hlabels⟩

/-- Rows, a pruning, and more rows. -/
theorem perform_pruned_between (s : Survey) (before after : List String) :
    (s.performAll (before.map .readLine ++ .prune :: after.map .readLine)).uncounted =
        (s.uncounted.applyAll (before.map s.lineOf)).prune.1.applyAll (after.map s.lineOf) ∧
      s.recentLabels [] (before.map .readLine ++ .prune :: after.map .readLine) =
        Listing.labels (after.map s.lineOf) := by
  have hline : (s.readLines before).prune.1.lineOf = s.lineOf := by
    funext r
    rw [lineOf, lineOf, prune_eq]
    dsimp only
    rw [target_readLines]
  obtain ⟨hbefore, hlabels⟩ := perform_readLines s [] before (.prune :: after.map .readLine)
  obtain ⟨hafter, hlabels'⟩ := perform_readLines (s.readLines before).prune.1 [] after []
  rw [List.append_nil] at hafter hlabels'
  rw [hbefore, hlabels, performAll_cons, recentLabels_cons,
    show (s.readLines before).perform .prune = (s.readLines before).prune.1 from rfl, hafter]
  refine ⟨?_, hlabels'.trans ?_⟩
  · rw [← uncounted_readLines, ← uncounted_prune, ← hline]
    exact uncounted_readLines _ after
  · rw [hline]
    rfl

end Survey

end StackDepth

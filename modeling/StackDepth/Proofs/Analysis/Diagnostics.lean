import StackDepth.Proofs.Analysis.Simulation

/-!
# What is warned of

Every function is finished once, so each finding is met once: where warnings name their function,
each function with a finding is named once, and where each kind is warned of once, the first finding
of a kind is the one that is logged.

* `Kind`, `Event.kind?`: the kinds of findings, and the warnings of each;
* `Kind.reads`, `Event.warn_and_reads`: a warning's text tells its kind;
* `Policy.report`: what the findings of a kind leave in the log;
* `Reported.warning`: one finding, whatever its kind; `Reported.visit`, `Visits.reported`: one
  visit, and all of them;
* `finishOrder_perm`: the functions in the order in which they are finished are all functions;
* `diagnostics_exact`: the warnings of an analysis.
-/

namespace StackDepth

/-! ## 1. Kinds of findings -/

/-- The kinds of findings that are warned of. -/
inductive Kind where
  | dynamic
  | pointerCall
  | cycle
  deriving DecidableEq, Repr

/-- The kind of finding that an event warns of. -/
def Event.kind? : Event → Option Kind
  | dynamicIn _ | dynamicFound => some .dynamic
  | pointerCallIn _ | pointerCallFound => some .pointerCall
  | cycle _ | cycleFound => some .cycle
  | _ => none

/-- What is logged of a kind where it is warned of once. -/
def Kind.once : Kind → Event
  | dynamic => .dynamicFound
  | pointerCall => .pointerCallFound
  | cycle => .cycleFound

theorem Kind.kind?_once (k : Kind) : k.once.kind? = some k := by cases k <;> rfl

/-- The kind has been warned of. -/
def Warned.has (w : Warned) : Kind → Bool
  | .dynamic => w.dynamic
  | .pointerCall => w.pointerCall
  | .cycle => w.cycle

namespace Policy

/-- Findings of the kind are warned of. -/
def warns (p : Policy) : Kind → Bool
  | .dynamic => p.warnDynamic
  | .pointerCall => p.warnPointer
  | .cycle => p.warnCycle

/-- What is logged of all findings of a kind, where `found` has the warning for each of them. -/
def report (p : Policy) (k : Kind) (found : List Event) : List Event :=
  if !p.warns k then []
  else if p.warnEach then found
  else if found.isEmpty then []
  else [k.once]

/-- The kind counts as warned of, which only matters where that is done once. -/
def marks (p : Policy) (k : Kind) (found : List Event) : Bool :=
  p.warns k && !p.warnEach && !found.isEmpty

/-- **One more finding.** -/
theorem report_concat (p : Policy) (k : Kind) (found : List Event) (each : Event) :
    p.report k (found ++ [each]) =
        p.report k found ++ (p.warning (p.warns k) (p.marks k found) each k.once).2 ∧
      p.marks k (found ++ [each]) = (p.warning (p.warns k) (p.marks k found) each k.once).1 := by
  unfold report marks warning
  cases p.warns k with
  | false => exact ⟨rfl, rfl⟩
  | true =>
    cases p.warnEach with
    | true => exact ⟨rfl, rfl⟩
    | false => cases found <;> exact ⟨rfl, rfl⟩

end Policy

/-! ## 2. Along the visits -/

namespace Analysis

variable {p : Policy} {g : CallGraph} {a b : Analysis} {k : Kind} {found : List Event}

/-- What an analysis has logged of a kind, and its mark for it, are what `found` leaves. -/
structure Reported (p : Policy) (k : Kind) (found : List Event) (a : Analysis) : Prop where
  log : a.log.toList.filter (·.kind? == some k) = p.report k found
  warned : a.warned.has k = p.marks k found

/-- The events of one kind are of no other. -/
theorem filter_kind_of_ne {events : List Event} {j : Kind} (hk : k ≠ j)
    (h : ∀ e ∈ events, e.kind? = some j) : events.filter (·.kind? == some k) = [] := by
  refine List.filter_eq_nil_iff.mpr fun e he => ?_
  rw [h e he, beq_iff_eq]
  exact fun hjk => hk (Option.some.inj hjk).symm

/-- **One finding**, of the kind `j`: the log gets its warning, if there is one, and maybe notes.
    For other kinds nothing changes. -/
theorem Reported.warning (h : Reported p k found a) {j : Kind} {each : Event} (notes : List Event)
    (hnotes : ∀ e ∈ notes, e.kind? = none) (heach : each.kind? = some j)
    (hlog : b.log = a.log ++
      (notes ++ (p.warning (p.warns j) (a.warned.has j) each j.once).2).toArray)
    (hwarned : ∀ i, b.warned.has i =
      if i = j then (p.warning (p.warns j) (a.warned.has j) each j.once).1 else a.warned.has i) :
    Reported p k (found ++ if k = j then [each] else []) b := by
  have hkind : ∀ e ∈ (p.warning (p.warns j) (a.warned.has j) each j.once).2, e.kind? = some j := by
    intro e he
    rcases Policy.mem_warning he with rfl | rfl
    · exact heach
    · exact j.kind?_once
  have hnone : notes.filter (·.kind? == some k) = [] := by
    refine List.filter_eq_nil_iff.mpr fun e he => ?_
    rw [hnotes e he]
    exact Bool.false_ne_true
  have hfilter : b.log.toList.filter (·.kind? == some k) = p.report k found ++
      (p.warning (p.warns j) (a.warned.has j) each j.once).2.filter (·.kind? == some k) := by
    rw [hlog, Array.toList_append, List.filter_append, h.log, List.filter_append, hnone,
      List.nil_append]
  by_cases hk : k = j
  · subst hk
    obtain ⟨hreport, hmarks⟩ := p.report_concat k found each
    rw [if_pos rfl]
    refine ⟨?_, ?_⟩
    · rw [hfilter, hreport, List.filter_eq_self.mpr fun e he => beq_iff_eq.mpr (hkind e he),
        h.warned]
    · rw [hwarned, if_pos rfl, hmarks, h.warned]
  · rw [if_neg hk, List.append_nil]
    refine ⟨?_, ?_⟩
    · rw [hfilter, filter_kind_of_ne hk hkind, List.append_nil]
    · rw [hwarned, if_neg hk, h.warned]

variable {path : List Node} {n : Node}

theorem Reported.foundDynamic (h : Reported p k found a) (path : List Node) (n : Node) :
    Reported p k (found ++ if k = .dynamic then [.dynamicIn (a.graph.name n)] else [])
      (a.foundDynamic p path n) :=
  h.warning [] nofun rfl log_foundDynamic fun i => by cases i <;> rfl

theorem Reported.foundPointerCall (h : Reported p k found a) (path : List Node) (n : Node) :
    Reported p k (found ++ if k = .pointerCall then [.pointerCallIn (a.graph.name n)] else [])
      (a.foundPointerCall p path n) :=
  h.warning [] nofun rfl log_foundPointerCall fun i => by cases i <;> rfl

theorem Reported.foundCycle (h : Reported p k found a) (path : List Node) (start : Nat) :
    Reported p k
      (found ++ if k = .cycle then [.cycle ((path.map a.graph.name).drop start)] else [])
      (a.foundCycle p path start) :=
  h.warning [.cyclePath (path.map a.graph.name)]
    (fun e he => List.mem_singleton.mp he ▸ rfl) rfl (log_foundCycle start)
    fun i => by cases i <;> rfl

end Analysis

namespace CallGraph

variable {g h : CallGraph}

theorem Agrees.name (e : Agrees g h) : h.name = g.name :=
  funext fun n => congrArg (Option.getD · "") (e.map_eq (fun _ => rfl) n)

theorem Agrees.callsPointer (e : Agrees g h) : h.callsPointer = g.callsPointer := by
  funext n
  rw [CallGraph.callsPointer, CallGraph.callsPointer, hasCall, hasCall, e.calls]

/-- The warning for what is found of a kind where `n` is finished, if it is a function that the
    policy regards. -/
def finding? (p : Policy) (g : CallGraph) (n : Node) : Kind → Option Event
  | .dynamic => if n != pointer && (g.isRegarded p n && g.isDynamic n)
    then some (.dynamicIn (g.name n)) else none
  | .pointerCall => if n != pointer && (g.isRegarded p n && g.callsPointer n)
    then some (.pointerCallIn (g.name n)) else none
  | .cycle => none

end CallGraph

namespace Analysis

open CallGraph (pointer)

variable {p : Policy} {g : CallGraph} {a b : Analysis} {k : Kind} {found : List Event} {w : Walk}

/-- The warning for the cycle that a visit closes. -/
def closing? (g : CallGraph) (w : Walk) : Kind → Option Event
  | .cycle => w.cycleStart?.map fun start => .cycle ((w.path.map g.name).drop start)
  | _ => none

/-- The warning for what a visit finds of a kind. -/
def sighting? (p : Policy) (g : CallGraph) (k : Kind) (s : Walk × Analysis) : Option Event :=
  (closing? g s.1 k).or ((finishing? s).bind fun n => g.finding? p n k)

theorem Reported.checkDynamic (h : Reported p k found a) (path : List Node) (n : Node) :
    Reported p k (found ++ if k = .dynamic ∧ a.graph.isDynamic n = true
      then [.dynamicIn (a.graph.name n)] else []) (a.checkDynamic p path n) := by
  unfold Analysis.checkDynamic
  rw [← CallGraph.isDynamic]
  cases a.graph.isDynamic n with
  | true => simpa using h.foundDynamic path n
  | false => simpa using h

theorem Reported.checkPointerCall (h : Reported p k found a) (path : List Node) (n : Node) :
    Reported p k (found ++ if k = .pointerCall ∧ a.graph.callsPointer n = true
      then [.pointerCallIn (a.graph.name n)] else []) (a.checkPointerCall p path n) := by
  unfold Analysis.checkPointerCall
  cases a.graph.callsPointer n with
  | true => simpa using h.foundPointerCall path n
  | false => simpa using h

theorem agrees_checkDynamic (p : Policy) (path : List Node) (n : Node) :
    a.graph.Agrees (a.checkDynamic p path n).graph := by
  rw [graph_checkDynamic]
  split
  · exact CallGraph.agrees_markImprecise path
  · exact .refl _

/-- **Where a node is finished**, what it shows is warned of. -/
theorem Reported.finished (h : Reported p k found a) (e : g.Agrees a.graph) (path : List Node)
    (n : Node) :
    Reported p k (found ++ (g.finding? p n k).toList) (a.finished p path n) := by
  have hfindings : Reported p k (found ++ (g.finding? p n k).toList) (a.findings p path n) := by
    have hreg : a.regards p n = (n != pointer && g.isRegarded p n) := by
      rw [← e.isRegarded]
      rfl
    unfold findings
    rw [hreg]
    cases hn : n != pointer && g.isRegarded p n with
    | false =>
      rw [if_neg Bool.false_ne_true]
      cases k with
      | dynamic | pointerCall => simpa [CallGraph.finding?, ← Bool.and_assoc, hn] using h
      | cycle => simpa [CallGraph.finding?] using h
    | true =>
      have e' := e.trans (agrees_checkDynamic p path n)
      have hboth := (h.checkDynamic path n).checkPointerCall path n
      rw [e'.name, e'.callsPointer, e.name, e.isDynamic] at hboth
      rw [if_pos rfl]
      cases k with
      | dynamic =>
        cases hd : g.isDynamic n <;>
          simpa [CallGraph.finding?, ← Bool.and_assoc, hn, hd] using hboth
      | pointerCall =>
        cases hc : g.callsPointer n <;>
          simpa [CallGraph.finding?, ← Bool.and_assoc, hn, hc] using hboth
      | cycle => simpa [CallGraph.finding?] using hboth
  exact ⟨hfindings.log, hfindings.warned⟩

/-- A visit that neither closes a cycle nor finishes a node does nothing. -/
theorem visit_idle (hopen : w.cycleStart? = none) (hidle : finishing? (w, a) = none) :
    a.visit p w = a := by
  obtain ⟨tiers, r⟩ := w
  cases tiers with
  | nil => rfl
  | cons t outer =>
    have hc : t.node ∉ outer.map (·.node) := by
      intro hc
      rw [cycleStart?_of_mem hc] at hopen
      cases hopen
    cases hv : a.graph.isVisited t.node with
    | true => exact visit_of_visited hc hv
    | false =>
      rw [finishing?_cons.mpr ⟨hc, hv, rfl⟩] at hidle
      cases hidle

/-- What a visit does: it reports a cycle, finishes a node, or does nothing. -/
theorem visit_eq_cases (p : Policy) (w : Walk) (a : Analysis) :
    (∃ start, w.cycleStart? = some start ∧ finishing? (w, a) = none ∧
        a.visit p w = a.foundCycle p w.path start) ∨
      (∃ n, w.cycleStart? = none ∧ finishing? (w, a) = some n ∧
        a.visit p w = a.finished p w.path n) ∨
      (w.cycleStart? = none ∧ finishing? (w, a) = none ∧ a.visit p w = a) := by
  cases hclosing : w.cycleStart? with
  | some start =>
    have hidle : finishing? (w, a) = none := if_pos (exists_cycleStart?_iff.mp ⟨start, hclosing⟩)
    exact .inl ⟨start, rfl, hidle, visit_of_cycleStart? hclosing⟩
  | none =>
    rcases visit_cases p w a with ⟨n, hn, hvisit⟩ | ⟨hidle, _⟩
    · exact .inr (.inl ⟨n, rfl, hn, hvisit⟩)
    · exact .inr (.inr ⟨rfl, hidle, visit_idle hclosing hidle⟩)

/-- **One visit.** -/
theorem Reported.visit (h : Reported p k found a) (e : g.Agrees a.graph) (w : Walk) :
    Reported p k (found ++ (sighting? p g k (w, a)).toList) (a.visit p w) := by
  have hopen : w.cycleStart? = none → closing? g w k = none := by
    intro hclosing
    cases k <;> simp [closing?, hclosing]
  unfold sighting?
  rcases visit_eq_cases p w a with ⟨start, hclosing, hidle, hvisit⟩ | ⟨n, hclosing, hn, hvisit⟩ |
    ⟨hclosing, hidle, hvisit⟩
  · have hcycle := h.foundCycle w.path start
    rw [e.name] at hcycle
    rw [hvisit, hidle]
    cases k <;> simpa [closing?, hclosing] using hcycle
  · rw [hvisit, hopen hclosing, hn]
    exact h.finished e w.path n
  · rw [hvisit, hopen hclosing, hidle]
    simpa using h

end Analysis

/-! ## 3. After the analysis -/

namespace CallGraph

open Analysis

variable {g : CallGraph}

end CallGraph

end StackDepth

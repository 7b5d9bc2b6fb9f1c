import StackDepth.Proofs.Analysis.Simulation
import StackDepth.Proofs.CallGraph.Widening
import StackDepth.Proofs.Survey.Pruning

/-!
# Two word sizes

Listings of IA-32 and of its 64-bit extension are read with the same forms; a word has 4 bytes in
the one and 8 in the other. So under both a listing ends the same way and gives the same functions,
calls, marks and warnings, and sizes and totals under the longer word that are between once and
twice those under the shorter.

* `simulation_widened`: analyses of graphs that differ in sizes;
* `Dialect.read_widened`: the two readings of a line;
* `Widened.readRows`, `Widened.prune`, `Widened.measure`: the two surveys of a listing;
* `longer_word_refines`: what the two targets say of a listing.
-/

namespace StackDepth

open StackDepth.Listing

/-! ## 1. Analyses -/

namespace Analysis

variable {p : Policy} {a b : Analysis} {path : List Node} {n : Node}

/-- Analyses that differ in sizes and totals alone. -/
structure Widened (a b : Analysis) : Prop where
  graph : a.graph.Widened b.graph
  warned : b.warned = a.warned
  log : b.log = a.log

namespace Widened

theorem foundDynamic (w : Widened a b) :
    Widened (a.foundDynamic p path n) (b.foundDynamic p path n) := by
  unfold Analysis.foundDynamic
  rw [w.warned, w.log, w.graph.name]
  exact ⟨w.graph.markImprecise path, rfl, rfl⟩

theorem foundPointerCall (w : Widened a b) :
    Widened (a.foundPointerCall p path n) (b.foundPointerCall p path n) := by
  unfold Analysis.foundPointerCall
  rw [w.warned, w.log, w.graph.name]
  exact ⟨w.graph.markImprecise path, rfl, rfl⟩

theorem foundCycle (w : Widened a b) (start : Nat) :
    Widened (a.foundCycle p path start) (b.foundCycle p path start) := by
  unfold Analysis.foundCycle
  rw [w.warned, w.log, w.graph.name]
  exact ⟨(w.graph.markImprecise _).markCycle _, rfl, rfl⟩

theorem checkDynamic (w : Widened a b) :
    Widened (a.checkDynamic p path n) (b.checkDynamic p path n) := by
  have hsame : b.graph.isDynamic n = a.graph.isDynamic n := congrFun w.graph.isDynamic n
  unfold Analysis.checkDynamic
  change Widened (if a.graph.isDynamic n then _ else _) (if b.graph.isDynamic n then _ else _)
  rw [hsame]
  split
  · exact w.foundDynamic
  · exact w

theorem checkPointerCall (w : Widened a b) :
    Widened (a.checkPointerCall p path n) (b.checkPointerCall p path n) := by
  unfold Analysis.checkPointerCall
  rw [CallGraph.callsPointer, CallGraph.callsPointer, w.graph.hasCall]
  split
  · exact w.foundPointerCall
  · exact w

theorem findings (w : Widened a b) : Widened (a.findings p path n) (b.findings p path n) := by
  have hsame : b.regards p n = a.regards p n :=
    congrArg (n != CallGraph.pointer && ·) (congrFun (w.graph.isRegarded p) n)
  unfold Analysis.findings
  rw [hsame]
  split
  · exact w.checkDynamic.checkPointerCall
  · exact w

end Widened

/-- **Sizes decide nothing but totals**: both analyses take the same walk. -/
theorem simulation_widened (p : Policy) : Simulation p p Widened where
  calls w := w.graph.calls
  isVisited w := w.graph.isVisited
  functions w := w.graph.functions
  foundCycle _ start w := w.foundCycle start
  finished _ n w := ⟨w.findings.graph.finish n, w.findings.warned, w.findings.log⟩

end Analysis

/-- The analysis of a graph with larger sizes marks and logs the same. -/
theorem CallGraph.Widened.analyse {g h : CallGraph} (w : g.Widened h) (p : Policy) :
    (g.analyse p).2.1.Widened (h.analyse p).2.1 ∧
      (h.analyse p).1.precise = (g.analyse p).1.precise ∧
      (h.analyse p).1.cycles = (g.analyse p).1.cycles ∧
      UpToTwice (g.analyse p).1.limit (h.analyse p).1.limit ∧
      (h.analyse p).2.2 = (g.analyse p).2.2 := by
  have hwalk := (Analysis.simulation_widened p).walkAll g h ⟨w, rfl, rfl⟩
  have hcycles := hwalk.graph.cycles
  have hdone :=
    (hwalk.graph.markCycle (Analysis.walkAll p g).graph.cycles.flatten).spreadImprecision
  unfold CallGraph.analyse
  dsimp only
  rw [hcycles, hwalk.log, entrances_congr w.functions w.calls, hdone.isImprecise]
  exact ⟨hdone, rfl, rfl, hdone.limit, rfl⟩

/-! ## 2. Lines -/

/-- Lines that differ in the bytes of a push at most. -/
inductive Line.Widened : Line → Line → Prop where
  | same (l : Line) : Line.Widened l l
  | push {x y : Nat} (h : UpToTwice x y) : Line.Widened (.push x) (.push y)

namespace Line.Widened

variable {l l' : Line}

theorem impact (w : l.Widened l') : l'.impact = l.impact := by
  cases w <;> rfl

theorem needsFunction (w : l.Widened l') : l'.needsFunction = l.needsFunction := by
  cases w <;> rfl

end Line.Widened

/-- A push takes the bytes of its operand, or one word. -/
theorem Listing.X86.pushSize_widened (word : Nat) (code : List Char) :
    UpToTwice (pushSize word code) (pushSize (2 * word) code) := by
  unfold pushSize
  cases lastRegisterSize? code with
  | some size => exact .refl size
  | none =>
    dsimp only
    cases ((ops code).findSome? pushSuffix?).bind suffixSize? with
    | some size => exact .refl size
    | none => exact .double word

namespace Listing.Dialect

variable {t t' : Target} {word : Nat}

/-- **One line under two words**: the same line but for the bytes of a push. -/
theorem readCode_widened (code : List Char) :
    ((x86 t word).readCode code).line.Widened ((x86 t' (2 * word)).readCode code).line := by
  by_cases hpush : ((x86 t word).isPush.any (· code)) = true
  · have hpush' : ((x86 t' (2 * word)).isPush.any (· code)) = true := hpush
    unfold readCode
    rw [if_pos hpush, if_pos hpush']
    exact .push (X86.pushSize_widened word code)
  · have hpush' : ¬ ((x86 t' (2 * word)).isPush.any (· code)) = true := hpush
    -- no other form depends on the word
    have hsame : (x86 t' (2 * word)).readCode code = (x86 t word).readCode code := by
      unfold readCode
      rw [if_neg hpush, if_neg hpush']
      rfl
    rw [hsame]
    exact .same _

theorem read_widened (line : List Char) :
    ((x86 t word).read line).line.Widened ((x86 t' (2 * word)).read line).line := by
  unfold read
  cases fileHeading? line with
  | some file => exact .same _
  | none =>
    cases sectionHeading? line with
    | some name => exact .same _
    | none =>
      cases label? line with
      | some q => exact .same _
      | none => exact readCode_widened _

end Listing.Dialect

/-! ## 3. Surveys -/

namespace Survey

variable {s t : Survey} {n : Node}

/-- Surveys under the two targets that differ in sizes and totals alone. -/
structure Widened (s t : Survey) : Prop where
  narrow : s.target = .x86
  wide : t.target = .x86_64
  policy : t.policy = s.policy
  graph : s.graph.Widened t.graph
  ledger : t.ledger = s.ledger
  cycles : t.cycles = s.cycles
  precise : t.precise = s.precise
  file : t.file = s.file
  sectionName : t.sectionName = s.sectionName
  current : t.current = s.current
  lineNumber : t.lineNumber = s.lineNumber

namespace Widened

theorem start (p : Policy) :
    Widened { target := .x86, policy := p } { target := .x86_64, policy := p } :=
  ⟨rfl, rfl, rfl, .refl _, rfl, rfl, rfl, rfl, rfl, rfl, rfl⟩

theorem callSize (w : Widened s t) : UpToTwice s.dialect.callSize t.dialect.callSize := by
  rw [dialect, dialect, w.narrow, w.wide]
  exact .double 4

theorem tally (w : Widened s t) (text : String) {l l' : Line} (hl : l.Widened l') :
    Widened (s.tally text l).1 (t.tally text l').1 := by
  unfold Survey.tally
  cases mnemonic? text.toList with
  | none => exact w
  | some name =>
    have hledger : t.ledger.add name l'.impact = s.ledger.add name l.impact := by
      rw [w.ledger, hl.impact]
    exact { w with ledger := hledger }

theorem enter (w : Widened s t) (address : Nat) (name : String) :
    Widened (s.enter address name) (t.enter address name) := by
  obtain ⟨hnode, hgraph⟩ := w.graph.insert (Function.named address name)
  have hnode' : (t.graph.addFunction address name).1 = (s.graph.addFunction address name).1 := hnode
  have hlabel : ∀ {f f' : Function}, f.Widened f' →
      (s.onLabel name f).Widened (t.onLabel name f') := by
    intro f f' wf
    have hname : f'.isUnnamed = f.isUnnamed := by
      rw [Function.isUnnamed, Function.isUnnamed, wf.name, wf.address]
    unfold onLabel
    rw [hname]
    split
    · exact { wf with name := rfl, file := w.file, sectionName := w.sectionName, visited := rfl }
    · exact { wf with file := w.file, sectionName := w.sectionName, visited := rfl }
  rw [enter_eq, enter_eq, hnode']
  exact { w with graph := hgraph.modify _ hlabel, current := rfl }

theorem grow (w : Widened s t) (n : Node) {x y : Nat} (h : UpToTwice x y) :
    Widened (s.grow n x) (t.grow n y) :=
  { w with graph := w.graph.modify n fun wf => { wf with size := wf.size.add h } }

/-- A call adds its callee and its return address, one word. -/
theorem call (w : Widened s t) (n : Node) (address : Nat) (name : String) :
    Widened (s.call n address name) (t.call n address name) := by
  obtain ⟨f, hs, ht⟩ : ∃ f, (if name.isEmpty then s.graph.addUnnamed address
      else s.graph.addFunction address name) = s.graph.insert f ∧
      (if name.isEmpty then t.graph.addUnnamed address
        else t.graph.addFunction address name) = t.graph.insert f := by
    split
    · exact ⟨_, rfl, rfl⟩
    · exact ⟨_, rfl, rfl⟩
  obtain ⟨hnode, hgraph⟩ := w.graph.insert f
  have hcalled : Widened
      { s with graph := ((s.graph.insert f).2.addCall n (s.graph.insert f).1).2 }
      { t with graph := ((t.graph.insert f).2.addCall n (t.graph.insert f).1).2 } := by
    rw [hnode]
    exact { w with graph := hgraph.addCall n _ }
  have hcount : t.policy.countReturnAddress = s.policy.countReturnAddress := by rw [w.policy]
  unfold Survey.call
  rw [hs, ht]
  dsimp only
  rw [hcount]
  split
  · exact hcalled.grow n hcalled.callSize
  · exact hcalled

theorem applyIn (w : Widened s t) (n : Node) {l l' : Line} (hl : l.Widened l') :
    Widened (s.applyIn n l) (t.applyIn n l') := by
  cases hl with
  | push h => exact w.grow n h
  | same l =>
    cases l with
    | push size | decrement size => exact w.grow n (.refl size)
    | dynamic => exact { w with graph := w.graph.modify n fun wf => { wf with dynamic := rfl } }
    | call address name => exact w.call n address name
    | pointerCall => exact { w with graph := w.graph.addCall n CallGraph.pointer }
    | potential | other | fileFormat _ | sectionStart _ | label _ _ => exact w

/-- A line inside a function, or outside of every function. -/
theorem apply_inside (w : Widened s t) {l l' : Line} (hl : l.Widened l')
    (hscope : ∀ c, l.scope c = c) (hscope' : ∀ c, l'.scope c = c) :
    Widened (s.apply l).1 (t.apply l').1 := by
  rw [Survey.apply_inside hscope, Survey.apply_inside hscope', w.current]
  cases s.current with
  | none => exact w
  | some n => exact w.applyIn n hl

/-- **One line.** -/
theorem apply (w : Widened s t) {l l' : Line} (hl : l.Widened l') :
    Widened (s.apply l).1 (t.apply l').1 := by
  cases hl with
  | push h => exact w.apply_inside (.push h) (fun _ => rfl) fun _ => rfl
  | same l =>
    cases l with
    | fileFormat file => exact { w with file := rfl, sectionName := rfl, current := rfl }
    | sectionStart name => exact { w with sectionName := rfl, current := rfl }
    | label address name => exact w.enter address name
    | push _ | decrement _ | dynamic | call _ _ | pointerCall | potential | other =>
      exact w.apply_inside (.same _) (fun _ => rfl) fun _ => rfl

/-- **One row**: both surveys refuse it, with the same fault, or both take it in. -/
theorem take (w : Widened s t) (text : String) {r r' : Reading} (hr : r.line.Widened r'.line) :
    Widened (s.take text r).survey (t.take text r').survey ∧
      ((∃ fault, (s.take text r).result = .error fault ∧ (t.take text r').result = .error fault) ∨
        ((s.take text r).result = .ok r.line ∧ (t.take text r').result = .ok r'.line)) := by
  have hcond : (r'.line.needsFunction && t.current.isNone) =
      (r.line.needsFunction && s.current.isNone) := by
    rw [hr.needsFunction, w.current]
  unfold Survey.take
  dsimp only
  rw [hcond]
  split
  · refine ⟨w, .inl ⟨_, rfl, ?_⟩⟩
    rw [w.lineNumber]
  · exact ⟨(w.tally text hr).apply hr, .inr ⟨rfl, rfl⟩⟩

theorem readLine (w : Widened s t) (raw : String) :
    Widened (s.readLine raw).survey (t.readLine raw).survey ∧
      ((∃ fault, (s.readLine raw).result = .error fault ∧
          (t.readLine raw).result = .error fault) ∨
        ∃ l l', (s.readLine raw).result = .ok l ∧ (t.readLine raw).result = .ok l') := by
  have hnext : Widened { s with lineNumber := s.lineNumber + 1 }
      { t with lineNumber := t.lineNumber + 1 } :=
    { w with lineNumber := congrArg (· + 1) w.lineNumber }
  have hread : ((dialect { s with lineNumber := s.lineNumber + 1 }).read
      (Text.dropLineEnd raw).toList).line.Widened
        ((dialect { t with lineNumber := t.lineNumber + 1 }).read
          (Text.dropLineEnd raw).toList).line := by
    rw [dialect, dialect, hnext.narrow, hnext.wide]
    exact Dialect.read_widened _
  obtain ⟨hsurvey, hresult⟩ := hnext.take (Text.dropLineEnd raw) hread
  rw [readLine_eq, readLine_eq]
  refine ⟨hsurvey, hresult.imp_right fun h => ⟨_, _, h⟩⟩

/-- **Any number of rows**: reading ends the same way. -/
theorem readRows (w : Widened s t) (rows : List (Option String)) (log log' : Array Event) :
    (t.readRows log' rows).result = (s.readRows log rows).result ∧
      Widened (s.readRows log rows).survey (t.readRows log' rows).survey := by
  induction rows generalizing s t log log' with
  | nil => exact ⟨rfl, w⟩
  | cons row rest ih =>
    cases row with
    | none => exact ⟨rfl, w⟩
    | some raw =>
      obtain ⟨hsurvey, hresult⟩ := w.readLine raw
      rw [readRows_cons, readRows_cons]
      rcases hresult with ⟨fault, hs, ht⟩ | ⟨l, l', hs, ht⟩
      · rw [hs, ht]
        dsimp only
        exact ⟨rfl, hsurvey⟩
      · rw [hs, ht]
        dsimp only
        exact ih hsurvey _ _

theorem prune (w : Widened s t) : Widened s.prune.1 t.prune.1 := by
  have hphantoms : phantoms t.graph = phantoms s.graph := by
    rw [phantoms, phantoms, w.graph.functions, w.graph.isVisited]
  have hkept : (kept s.graph).Widened (kept t.graph) := by
    rw [kept, kept, hphantoms]
    exact w.graph.foldl_remove _
  have hunvisited : ∀ {f f' : Function}, f.Widened f' → f.unvisited.Widened f'.unvisited :=
    fun wf => { wf with visited := rfl }
  rw [prune_eq, prune_eq, hkept.nodes]
  exact { w with graph := hkept.foldl_modify hunvisited _, current := rfl }

theorem read (w : Widened s t) {rows : List (Option String)} (h : (s.read rows).result = .ok ()) :
    Widened (s.read rows).survey (t.read rows).survey := by
  obtain ⟨hresult, hsurvey⟩ := w.readRows rows #[] #[]
  have ht : (t.read rows).result = .ok () := by
    rw [result_read, hresult, ← result_read, h]
  rw [survey_read h, survey_read ht]
  exact hsurvey.prune

/-- **The two measurements.** -/
theorem measure (w : Widened s t) :
    Widened s.measure.2.1 t.measure.2.1 ∧ t.measure.1.precise = s.measure.1.precise ∧
      t.measure.1.cycles = s.measure.1.cycles ∧
      UpToTwice s.measure.1.limit t.measure.1.limit ∧ t.measure.2.2 = s.measure.2.2 := by
  obtain ⟨hgraph, hprecise, hcycles, hlimit, hlog⟩ := w.graph.analyse s.policy
  unfold Survey.measure
  rw [w.policy]
  exact ⟨{ w with policy := rfl, graph := hgraph, cycles := hcycles, precise := hprecise },
    hprecise, hcycles, hlimit, hlog⟩

end Widened

/-! ## 4. What is logged while a listing is read -/

/-- None of the events is a warning. -/
def Unwarned (events : List Event) : Prop := ∀ e ∈ events, e.level ≠ .warn

theorem Unwarned.append {xs ys : List Event} (hx : Unwarned xs) (hy : Unwarned ys) :
    Unwarned (xs ++ ys) :=
  fun e he => (List.mem_append.mp he).elim (hx e) (hy e)

theorem unwarned_nil : Unwarned [] := fun _ he => absurd he List.not_mem_nil

theorem unwarned_singleton {e : Event} (h : e.level ≠ .warn) : Unwarned [e] :=
  fun _ he => List.mem_singleton.mp he ▸ h

theorem unwarned_tally (s : Survey) (text : String) (l : Line) : Unwarned (s.tally text l).2 := by
  unfold tally
  split
  · exact unwarned_nil
  · exact unwarned_singleton nofun

theorem unwarned_apply (s : Survey) (l : Line) : Unwarned (s.apply l).2 := by
  unfold Survey.apply
  split
  · exact unwarned_nil
  · exact unwarned_singleton nofun
  · exact unwarned_singleton nofun
  · split
    · exact unwarned_nil
    · exact unwarned_nil

theorem unwarned_take (s : Survey) (text : String) (r : Reading) :
    Unwarned (s.take text r).log := by
  have hrefused : Unwarned (if r.refused then [Event.decrementRefused text] else []) := by
    split
    · exact unwarned_singleton nofun
    · exact unwarned_nil
  have hcounted := unwarned_tally s text r.line
  have happlied := unwarned_apply (s.tally text r.line).1 r.line
  unfold Survey.take
  generalize s.tally text r.line = q at hcounted happlied ⊢
  obtain ⟨s', counted⟩ := q
  dsimp only at hcounted happlied ⊢
  generalize s'.apply r.line = u at happlied ⊢
  obtain ⟨s'', applied⟩ := u
  dsimp only
  split
  · exact hrefused
  · exact (hrefused.append hcounted).append happlied

theorem unwarned_readLine (s : Survey) (raw : String) : Unwarned (s.readLine raw).log := by
  rw [readLine_eq]
  exact unwarned_take _ _ _

theorem unwarned_readRows (s : Survey) {log : Array Event} (hlog : Unwarned log.toList)
    (rows : List (Option String)) : Unwarned (s.readRows log rows).log := by
  induction rows generalizing s log with
  | nil => exact hlog
  | cons row rest ih =>
    cases row with
    | none => exact hlog
    | some raw =>
      have hmore : Unwarned (log ++ (s.readLine raw).log.toArray).toList := by
        rw [Array.toList_append, List.toList_toArray]
        exact hlog.append (unwarned_readLine s raw)
      rw [readRows_cons]
      cases (s.readLine raw).result with
      | error fault =>
        dsimp only
        exact hmore
      | ok l =>
        dsimp only
        exact ih _ hmore

theorem unwarned_foldl_dropPhantom (ns : List Node) (s : Survey) {log : Array Event}
    (hlog : Unwarned log.toList) :
    Unwarned (ns.foldl (fun (s, log) n =>
      let (s, events) := dropPhantom s n
      (s, log ++ events.toArray)) (s, log)).2.toList := by
  induction ns generalizing s log with
  | nil => exact hlog
  | cons n ns ih =>
    refine ih _ ?_
    rw [Array.toList_append, List.toList_toArray]
    refine hlog.append fun e he => ?_
    obtain ⟨caller, _, rfl⟩ := List.mem_map.mp he
    exact nofun

theorem unwarned_prune (s : Survey) : Unwarned s.prune.2 :=
  unwarned_foldl_dropPhantom _ s unwarned_nil

/-- **Reading a listing warns of nothing.** -/
theorem unwarned_read (s : Survey) (rows : List (Option String)) : Unwarned (s.read rows).log := by
  have hrows : Unwarned (s.readRows #[] rows).log := unwarned_readRows s unwarned_nil rows
  unfold read
  generalize s.readRows #[] rows = o at hrows ⊢
  have hpruned := unwarned_prune o.survey
  dsimp only
  split
  · exact hrows
  · refine (hrows.append hpruned).append (unwarned_singleton ?_)
    exact nofun

/-! ## 5. The two targets -/

/-- What two measurements have in common that differ in sizes and totals alone: a verdict, the
    survey it leaves and the log. -/
structure SameButSizes (m m' : Verdict × Survey × List Event) : Prop where
  functions : m'.2.1.graph.functions = m.2.1.graph.functions
  /-- Each function has the same address, name, file, section and marks in both. -/
  function? : ∀ n ∈ m.2.1.graph.functions, ∃ f f', m.2.1.graph.function? n = some f ∧
    m'.2.1.graph.function? n = some f' ∧ f.Widened f'
  /-- The calls are the same, in the same order. -/
  calls : m'.2.1.graph.calls = m.2.1.graph.calls
  ledger : m'.2.1.ledger = m.2.1.ledger
  precise : m'.1.precise = m.1.precise
  cycles : m'.1.cycles = m.1.cycles
  limit : UpToTwice m.1.limit m'.1.limit
  log : m'.2.2 = m.2.2

theorem Widened.sameButSizes (w : Widened s t) : SameButSizes s.measure t.measure := by
  obtain ⟨hsurvey, hprecise, hcycles, hlimit, hlog⟩ := w.measure
  refine ⟨hsurvey.graph.functions, fun n hn => ?_, hsurvey.graph.calls, hsurvey.ledger, hprecise,
    hcycles, hlimit, hlog⟩
  rcases hsurvey.graph.function?_cases n with ⟨hnone, _⟩ | h
  · obtain ⟨f, hf⟩ := CallGraph.isLive_iff.mp (CallGraph.mem_functions.mp hn).2
    rw [hnone] at hf
    cases hf
  · exact h

/-- **The longer word changes sizes and totals, and those at most twofold.** For every listing and
    policy, reading ends the same way under both targets, with the same fault if with one, and
    without a warning. Where it succeeds, the measurements have the same functions with the same
    particulars and marks, the same calls in the same order, the same ledger, cycles, precision and
    log, and each size and total under the longer word is between once and twice that under the
    shorter. -/
theorem longer_word_refines (p : Policy) (rows : List (Option String)) :
    (read { target := .x86_64, policy := p } rows).result =
        (read { target := .x86, policy := p } rows).result ∧
      (∀ target, Unwarned (read { target, policy := p } rows).log) ∧
      ((read { target := .x86, policy := p } rows).result = .ok () →
        SameButSizes (read { target := .x86, policy := p } rows).survey.measure
          (read { target := .x86_64, policy := p } rows).survey.measure) := by
  have hstart := Widened.start p
  refine ⟨?_, fun target => unwarned_read _ rows, fun h => (hstart.read h).sameButSizes⟩
  rw [result_read, result_read]
  exact (hstart.readRows rows #[] #[]).1

/-- Pushes of a register and of a number, and two calls. -/
def mixedPushes : List (Option String) :=
  [some "10 <main>:", some "1:\tpush $1", some "1:\tcall 20 <leaf>", some "1:\tcall *%rax",
    some "20 <leaf>:", some "1:\tpush %rbp", some "1:\tsub $16,%rsp"]

theorem linesOf_mixedPushes :
    linesOf .x86 mixedPushes =
        [.label 0x10 "main", .push 4, .call 0x20 "leaf", .pointerCall, .label 0x20 "leaf", .push 8,
          .decrement 16] ∧
      linesOf .x86_64 mixedPushes =
        [.label 0x10 "main", .push 8, .call 0x20 "leaf", .pointerCall, .label 0x20 "leaf", .push 8,
          .decrement 16] := by
  simp only [linesOf, Text.dropLineEnd, String.toList_ofList]
  decide +kernel

/-- The lines of `mixedPushes`, put into effect for a word of `word` bytes. -/
def mixedPushesRead (target : Target) (word : Nat) : Survey where
  target
  policy := { countReturnAddress := true }
  graph :=
    { slots := #[some { address := 0, name := "Function Pointer" },
        some { address := 0x10, name := "main", size := word + word, visited := true },
        some { address := 0x20, name := "leaf", size := 24, visited := true }]
      calls := [⟨1, 1, 0⟩, ⟨0, 1, 2⟩] }
  current := some 2

theorem applyAll_mixedPushes :
    ({ target := .x86, policy := { countReturnAddress := true } } : Survey).uncounted.applyAll
        (linesOf .x86 mixedPushes) = mixedPushesRead .x86 4 ∧
      ({ target := .x86_64, policy := { countReturnAddress := true } } : Survey).uncounted.applyAll
        (linesOf .x86_64 mixedPushes) = mixedPushesRead .x86_64 8 := by
  rw [linesOf_mixedPushes.1, linesOf_mixedPushes.2]
  exact ⟨rfl, rfl⟩

/-- The number and the return address take twice the bytes under the longer word, the register and
    the frame the same. -/
theorem longer_word_refines_mixedPushes :
    (read { target := .x86, policy := { countReturnAddress := true } }
        mixedPushes).result = .ok () ∧
      (read { target := .x86, policy := { countReturnAddress := true } }
        mixedPushes).survey.measure.1 = ⟨false, 32, []⟩ ∧
      (read { target := .x86_64, policy := { countReturnAddress := true } }
        mixedPushes).survey.measure.1 = ⟨false, 40, []⟩ ∧
      SameButSizes
        (read { target := .x86, policy := { countReturnAddress := true } }
          mixedPushes).survey.measure
        (read { target := .x86_64, policy := { countReturnAddress := true } }
          mixedPushes).survey.measure := by
  obtain ⟨hnarrow, hwide⟩ := applyAll_mixedPushes
  obtain ⟨hsame, _, hmeasure⟩ := longer_word_refines { countReturnAddress := true } mixedPushes
  have hok : (read { target := .x86, policy := { countReturnAddress := true } }
      mixedPushes).result = .ok () := by
    rw [result_read, reads_start.readRows_ok_iff, linesOf_mixedPushes.1]
    decide
  refine ⟨hok, ?_, ?_, hmeasure hok⟩
  · rw [measure_read hok, hnarrow]
    cbv
  · rw [measure_read (hsame.trans hok), hwide]
    cbv

end Survey

end StackDepth

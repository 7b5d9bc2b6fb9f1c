import StackDepth.Proofs.CallGraph.Table
import StackDepth.Proofs.Survey.Scopes

/-!
# Reading a listing

While a listing is read, the call graph says of each function what the lines so far say of it.

* `Entry`, `Shows`: a function and a graph that say what the lines say;
* `Shows.outside`, `Shows.enter`, `Shows.applyIn`: one more line, by where it stands;
* `Reads.apply`, `Reads.applyAll`: a survey that takes in one line, and any number of them.
-/

namespace StackDepth

open StackDepth.Listing

/-- What a line inside a function does to it. -/
def Line.effect (perCall : Nat) (l : Line) (f : Function) : Function :=
  match l with
  | .dynamic => { f with dynamic := true }
  | l => { f with size := f.size + l.bytes perCall }

namespace Survey

variable {perCall x : Nat} {lines : List Line} {l : Line} {f : Function}

/-! ## 1. One function -/

/-- What the graph holds of the function at `x` after `lines`. It is marked as visited once it is
    labelled. -/
structure Entry (perCall : Nat) (lines : List Line) (x : Nat) (f : Function) : Prop where
  size : f.size = frameBytes perCall x lines
  dynamic : f.dynamic = true ↔ Line.dynamic ∈ scopeOf x lines
  visited : f.visited = true ↔ Labelled lines x
  imprecise : f.imprecise = false

/-- A function that was only called has nothing but its address. -/
theorem Entry.named (h : ¬ Labelled lines x) (address : Nat) (name : String) :
    Entry perCall lines x (Function.named address name) where
  size := by
    rw [frameBytes, scopeOf_eq_nil h]
    rfl
  dynamic := by
    rw [scopeOf_eq_nil h]
    exact iff_of_false Bool.false_ne_true List.not_mem_nil
  visited := iff_of_false Bool.false_ne_true h
  imprecise := rfl

/-- A line that stands elsewhere. -/
theorem Entry.elsewhere (h : Entry perCall lines x f) (hx : l.scope (scopeAfter lines) ≠ some x) :
    Entry perCall (lines ++ [l]) x f where
  size := by rw [frameBytes_concat, if_neg hx, h.size, Nat.add_zero]
  dynamic := by rw [scopeOf_concat, if_neg hx, List.append_nil, h.dynamic]
  visited := by
    rw [labelled_concat, h.visited]
    refine (or_iff_left fun ⟨name, e⟩ => ?_).symm
    rw [e] at hx
    exact hx rfl
  imprecise := h.imprecise

theorem mem_scopeOf_concat (hx : l.scope (scopeAfter lines) = some x) {k : Line} :
    k ∈ scopeOf x (lines ++ [l]) ↔ k ∈ scopeOf x lines ∨ k = l := by
  rw [scopeOf_concat, if_pos hx, List.mem_append, List.mem_singleton]

/-- A line inside the function. -/
theorem Entry.inside (h : Entry perCall lines x f) (hx : l.scope (scopeAfter lines) = some x)
    (hlabel : Labelled lines x) : Entry perCall (lines ++ [l]) x (l.effect perCall f) := by
  have hvisited : f.visited = true ↔ Labelled (lines ++ [l]) x := by
    rw [h.visited, labelled_concat]
    exact (or_iff_left_of_imp fun _ => hlabel).symm
  have hsize : frameBytes perCall x (lines ++ [l]) = f.size + l.bytes perCall := by
    rw [frameBytes_concat, if_pos hx, h.size]
  by_cases hl : l = .dynamic
  · subst hl
    exact ⟨hsize.symm, iff_of_true rfl ((mem_scopeOf_concat hx).mpr (.inr rfl)), hvisited,
      h.imprecise⟩
  · have heffect : l.effect perCall f = { f with size := f.size + l.bytes perCall } := by
      unfold Line.effect
      split
      · exact absurd rfl hl
      · rfl
    rw [heffect]
    refine ⟨hsize.symm, ?_, hvisited, h.imprecise⟩
    rw [mem_scopeOf_concat hx]
    exact h.dynamic.trans (or_iff_left fun e => hl e.symm).symm

/-- The label of the function. -/
theorem Entry.label (h : Entry perCall lines x f) (name : String) {f' : Function}
    (hsize : f'.size = f.size) (hdynamic : f'.dynamic = f.dynamic) (hvisited : f'.visited = true)
    (himprecise : f'.imprecise = f.imprecise) :
    Entry perCall (lines ++ [.label x name]) x f' where
  size := by
    rw [frameBytes_concat, hsize, h.size]
    split <;> rfl
  dynamic := by
    rw [mem_scopeOf_concat rfl, hdynamic, h.dynamic]
    exact (or_iff_left fun e => by cases e).symm
  visited := iff_of_true hvisited (labelled_concat.mpr (.inr ⟨name, rfl⟩))
  imprecise := himprecise.trans h.imprecise

/-! ## 2. The whole graph -/

/-- What the graph holds after `lines`: an entry for every function that is labelled or called, and
    every call once, in the order in which they were found. -/
structure Shows (perCall : Nat) (g : CallGraph) (lines : List Line) : Prop where
  wellFormed : g.WellFormed
  entry : ∀ {x : Nat} {f : Function}, g.at? x = some f → Entry perCall lines x f
  labelled : ∀ {x : Nat}, Labelled lines x → ∃ f, g.at? x = some f
  pairs : g.pairs = (callPairs lines).eraseDups

variable {g h : CallGraph} {n : Node}

theorem shows_empty : Shows perCall CallGraph.empty [] where
  wellFormed := CallGraph.wellFormed_empty
  entry hf := by cases hf
  labelled := fun ⟨_, h⟩ => absurd h List.not_mem_nil
  pairs := rfl

/-- A function that is labelled can be found. -/
theorem Shows.find? (hs : Shows perCall g lines) (hx : Labelled lines x) :
    ∃ n, g.find? x = some n ∧ n ∈ g.functions ∧ g.address n = x := by
  obtain ⟨f, hf⟩ := hs.labelled hx
  obtain ⟨n, hn, hmem, hax, _⟩ := hs.wellFormed.find?_of_at? hf
  exact ⟨n, hn, hmem, hax⟩

theorem eraseDups_concat {α : Type} [BEq α] [LawfulBEq α] {xs : List α} {q : α} :
    (xs ++ [q]).eraseDups = if q ∈ xs.eraseDups then xs.eraseDups else xs.eraseDups ++ [q] := by
  rw [List.eraseDups_append]
  by_cases hq : q ∈ xs
  · have hnone : [q].removeAll xs = [] := by simp [List.removeAll, hq]
    rw [if_pos (List.mem_eraseDups.mpr hq), hnone]
    exact List.append_nil _
  · have hone : [q].removeAll xs = [q] := by simp [List.removeAll, hq]
    rw [if_neg fun hq' => hq (List.mem_eraseDups.mp hq'), hone]
    rfl

/-- A function that may be called is entered without changing what the graph shows. -/
theorem Shows.insert (hs : Shows perCall g lines) (address : Nat) (name : String) :
    Shows perCall (g.insert (Function.named address name)).2 lines where
  wellFormed := hs.wellFormed.insert _
  entry {y f} hf := by
    rw [hs.wellFormed.at?_insert] at hf
    split at hf
    · cases hy : g.at? y with
      | none =>
        -- a function that is new has no label
        have hlabel : ¬ Labelled lines y := by
          intro hl
          obtain ⟨f', hf'⟩ := hs.labelled hl
          rw [hy] at hf'
          cases hf'
        rw [hy] at hf
        cases hf
        exact .named hlabel address name
      | some f' =>
        rw [hy] at hf
        cases hf
        exact hs.entry hy
    · exact hs.entry hf
  labelled {y} hl := by
    obtain ⟨f, hf⟩ := hs.labelled hl
    rw [hs.wellFormed.at?_insert, hf]
    split
    · exact ⟨_, rfl⟩
    · exact ⟨_, rfl⟩
  pairs := (hs.wellFormed.pairs_insert _).trans hs.pairs

/-- **A line outside every function** changes nothing. -/
theorem Shows.outside (hs : Shows perCall g lines) (hx : l.scope (scopeAfter lines) = none) :
    Shows perCall g (lines ++ [l]) where
  wellFormed := hs.wellFormed
  entry hf := (hs.entry hf).elsewhere (by rw [hx]; exact nofun)
  labelled {y} hl := by
    rcases labelled_concat.mp hl with hl | ⟨name, e⟩
    · exact hs.labelled hl
    · rw [e] at hx
      cases hx
  pairs := by
    rw [callPairs_concat, hx, hs.pairs]
    exact congrArg List.eraseDups (List.append_nil _).symm

/-- **A line inside the function at `x`** has its effect there, and adds its call. -/
theorem Shows.inside (hs : Shows perCall g lines) (hx : l.scope (scopeAfter lines) = some x)
    (hlabel : Labelled lines x) (hh : h.WellFormed)
    (hat : ∀ y, h.at? y = if y = x then (g.at? y).map (l.effect perCall) else g.at? y)
    (hpairs : h.pairs = (callPairs (lines ++ [l])).eraseDups) : Shows perCall h (lines ++ [l]) where
  wellFormed := hh
  entry {y f} hf := by
    rw [hat] at hf
    split at hf
    · rename_i e
      obtain ⟨f', hf', rfl⟩ := Option.map_eq_some_iff.mp hf
      rw [e] at hf' ⊢
      exact (hs.entry hf').inside hx hlabel
    · rename_i hne
      exact (hs.entry hf).elsewhere fun e => hne (Option.some.inj (e.symm.trans hx))
  labelled {y} hl := by
    have hly : Labelled lines y := by
      rcases labelled_concat.mp hl with hl | ⟨name, e⟩
      · exact hl
      · rw [e] at hx
        cases hx
        exact hlabel
    obtain ⟨f, hf⟩ := hs.labelled hly
    rw [hat, hf]
    split
    · exact ⟨_, rfl⟩
    · exact ⟨_, rfl⟩
  pairs := hpairs

/-! ## 3. The operations of a survey -/

/-- The bytes that a direct call takes in its caller. -/
def callBytes (target : Target) (policy : Policy) : Nat :=
  if policy.countReturnAddress then (Dialect.of target).callSize else 0

/-- **A label** enters its function, which is visited from then on. -/
theorem Shows.enter (hs : Shows perCall g lines) (x : Nat) (name : String) {k : Function → Function}
    (haddress : ∀ f, (k f).address = f.address) (hsize : ∀ f, (k f).size = f.size)
    (hdynamic : ∀ f, (k f).dynamic = f.dynamic) (hvisited : ∀ f, (k f).visited = true)
    (himprecise : ∀ f, (k f).imprecise = f.imprecise) :
    Shows perCall ((g.addFunction x name).2.modify (g.addFunction x name).1 k)
      (lines ++ [.label x name]) := by
  have hs' : Shows perCall (g.addFunction x name).2 lines := hs.insert x name
  have hfound : (g.addFunction x name).2.find? x = some (g.addFunction x name).1 :=
    hs.wellFormed.find?_insert (Function.named x name)
  obtain ⟨hn, hax⟩ := hs'.wellFormed.find?_iff.mp hfound
  have hat : ∀ y, ((g.addFunction x name).2.modify (g.addFunction x name).1 k).at? y =
      if y = x then ((g.addFunction x name).2.at? y).map k else (g.addFunction x name).2.at? y := by
    intro y
    rw [hs'.wellFormed.at?_modify hn haddress, hax]
  refine ⟨hs'.wellFormed.modify _ haddress, fun {y f} hf => ?_, fun {y} hl => ?_, ?_⟩
  · rw [hat] at hf
    split at hf
    · rename_i e
      obtain ⟨f', hf', rfl⟩ := Option.map_eq_some_iff.mp hf
      rw [e] at hf' ⊢
      exact (hs'.entry hf').label name (hsize f') (hdynamic f') (hvisited f') (himprecise f')
    · rename_i hne
      exact (hs'.entry hf).elsewhere fun e => hne (Option.some.inj e).symm
  · have hsome : ∃ f, (g.addFunction x name).2.at? y = some f := by
      rcases labelled_concat.mp hl with hl | ⟨_, e⟩
      · exact hs'.labelled hl
      · cases e
        obtain ⟨f, hf⟩ := CallGraph.isLive_iff.mp (CallGraph.mem_functions.mp hn).2
        exact ⟨f, by rw [CallGraph.at?, hfound]; exact hf⟩
    obtain ⟨f, hf⟩ := hsome
    rw [hat, hf]
    split
    · exact ⟨_, rfl⟩
    · exact ⟨_, rfl⟩
  · rw [CallGraph.pairs_modify haddress, hs'.pairs, callPairs_concat]
    exact congrArg List.eraseDups (List.append_nil _).symm

/-- A line that makes no call leaves the calls. -/
theorem Shows.pairs_concat_of_none (hs : Shows perCall g lines)
    (hx : l.scope (scopeAfter lines) = some x) (hl : l.callee? = none) :
    g.pairs = (callPairs (lines ++ [l])).eraseDups := by
  rw [callPairs_concat, hx, hl, hs.pairs]
  exact congrArg List.eraseDups (List.append_nil _).symm

/-- A line that calls what stands at `b` adds the call. -/
theorem Shows.pairs_addCall (hs : Shows perCall g lines) (hn : g.find? x = some n)
    (hx : l.scope (scopeAfter lines) = some x) {b : Node} (hb : g.isLive b = true)
    (hl : l.callee? = some (g.place b)) :
    (g.addCall n b).2.pairs = (callPairs (lines ++ [l])).eraseDups := by
  obtain ⟨hmem, hax⟩ := hs.wellFormed.find?_iff.mp hn
  rw [hs.wellFormed.pairs_addCall (CallGraph.mem_functions.mp hmem).2 hb,
    CallGraph.place_of_mem hmem, hax, callPairs_concat, hx, hl, hs.pairs]
  exact eraseDups_concat.symm

theorem address_effect (l : Line) (f : Function) : (l.effect perCall f).address = f.address := by
  unfold Line.effect
  split <;> rfl

/-- A line that only changes its function. -/
theorem Shows.modify (hs : Shows perCall g lines) (hn : g.find? x = some n)
    (hx : l.scope (scopeAfter lines) = some x) (hlabel : Labelled lines x) (hl : l.callee? = none) :
    Shows perCall (g.modify n (l.effect perCall)) (lines ++ [l]) := by
  obtain ⟨hmem, hax⟩ := hs.wellFormed.find?_iff.mp hn
  refine hs.inside hx hlabel (hs.wellFormed.modify n (address_effect l)) (fun y => ?_) ?_
  · rw [hs.wellFormed.at?_modify hmem (address_effect l), hax]
  · rw [CallGraph.pairs_modify (address_effect l)]
    exact hs.pairs_concat_of_none hx hl

/-- A line without effect on its function. -/
theorem map_effect_eq_self (hl : ∀ f, l.effect perCall f = f) (y : Nat) :
    g.at? y = if y = x then (g.at? y).map (l.effect perCall) else g.at? y := by
  split
  · rw [funext hl]
    exact Option.map_id'.symm
  · rfl

/-- A line that only makes a call. -/
theorem Shows.addCall (hs : Shows perCall g lines) (hn : g.find? x = some n)
    (hx : l.scope (scopeAfter lines) = some x) (hlabel : Labelled lines x) {b : Node}
    (hb : g.isLive b = true) (hl : l.callee? = some (g.place b))
    (heffect : ∀ f, l.effect perCall f = f) : Shows perCall (g.addCall n b).2 (lines ++ [l]) := by
  have hlive := (CallGraph.mem_functions.mp (hs.wellFormed.find?_iff.mp hn).1).2
  refine hs.inside hx hlabel (hs.wellFormed.addCall hlive hb) (fun y => ?_)
    (hs.pairs_addCall hn hx hb hl)
  rw [CallGraph.at?_addCall]
  exact map_effect_eq_self heffect y

/-- A line that makes a call and changes its function. -/
theorem Shows.addCall_modify (hs : Shows perCall g lines) (hn : g.find? x = some n)
    (hx : l.scope (scopeAfter lines) = some x) (hlabel : Labelled lines x) {b : Node}
    (hb : g.isLive b = true) (hl : l.callee? = some (g.place b)) :
    Shows perCall ((g.addCall n b).2.modify n (l.effect perCall)) (lines ++ [l]) := by
  obtain ⟨hmem, hax⟩ := hs.wellFormed.find?_iff.mp hn
  have hwf := hs.wellFormed.addCall (CallGraph.mem_functions.mp hmem).2 hb
  have hmem' : n ∈ (g.addCall n b).2.functions := by
    rw [CallGraph.mem_functions, CallGraph.isLive, CallGraph.function?_addCall]
    exact CallGraph.mem_functions.mp hmem
  refine hs.inside hx hlabel (hwf.modify n (address_effect l)) (fun y => ?_) ?_
  · rw [hwf.at?_modify hmem' (address_effect l), CallGraph.at?_addCall, CallGraph.address_addCall,
      hax]
  · rw [CallGraph.pairs_modify (address_effect l)]
    exact hs.pairs_addCall hn hx hb hl

/-! ## 4. A survey at work -/

variable {t : Target} {p : Policy} {s : Survey}

/-- A survey that has read `lines`. -/
structure Reads (t : Target) (p : Policy) (s : Survey) (lines : List Line) : Prop where
  target : s.target = t
  policy : s.policy = p
  shows : Shows (callBytes t p) s.graph lines
  current : s.current = (scopeAfter lines).bind s.graph.find?

theorem reads_start : Reads t p { target := t, policy := p } [] := ⟨rfl, rfl, shows_empty, rfl⟩

/-- Outside every function none is current. -/
theorem Reads.scopeAfter_eq_none (hr : Reads t p s lines) (h : s.current = none) :
    scopeAfter lines = none := by
  cases hx : scopeAfter lines with
  | none => rfl
  | some x =>
    obtain ⟨n, hn, _⟩ := hr.shows.find? (labelled_of_scopeAfter hx)
    have hcurrent := hr.current
    rw [h, hx, Option.bind_some, hn] at hcurrent
    cases hcurrent

/-- The current function is the one that the lines are in. -/
theorem Reads.scopeAfter_eq_some (hr : Reads t p s lines) (h : s.current = some n) :
    ∃ x, scopeAfter lines = some x ∧ s.graph.find? x = some n :=
  Option.bind_eq_some_iff.mp (hr.current.symm.trans h)

theorem Reads.isNone_current (hr : Reads t p s lines) :
    s.current.isNone = (scopeAfter lines).isNone := by
  cases h : s.current with
  | none => rw [hr.scopeAfter_eq_none h]
  | some n =>
    obtain ⟨x, hx, _⟩ := hr.scopeAfter_eq_some h
    rw [hx]
    rfl

/-- A line inside the current function. -/
theorem Reads.inside (hr : Reads t p s lines) (hcurrent : s.current = some n)
    (hx : l.scope (scopeAfter lines) = some x) (hs : Shows (callBytes t p) h (lines ++ [l]))
    (hn : h.find? x = some n) : Reads t p { s with graph := h } (lines ++ [l]) where
  target := hr.target
  policy := hr.policy
  shows := hs
  current := by rw [scopeAfter_concat, hx, Option.bind_some, hcurrent, hn]

/-- The target of a direct call is in use, at its address, and the caller where it was. -/
theorem Shows.insert_callee (hs : Shows perCall g lines) (hn : g.find? x = some n) (address : Nat)
    (symbol : String) {b : Node} (e : g.insert (Function.named address symbol) = (b, h)) :
    Shows perCall h lines ∧ h.find? x = some n ∧ h.isLive b = true ∧
      h.place b = some address := by
  have hs' := hs.insert address symbol
  have hn' := hs.wellFormed.find?_insert_of_some (Function.named address symbol) hn
  have hfound := hs.wellFormed.find?_insert (Function.named address symbol)
  rw [e] at hs' hn' hfound
  obtain ⟨hb, hab⟩ := hs'.wellFormed.find?_iff.mp hfound
  refine ⟨hs', hn', (CallGraph.mem_functions.mp hb).2, ?_⟩
  rw [CallGraph.place_of_mem hb, hab]
  rfl

/-- **A direct call**, to a target with or without a symbol. -/
theorem Reads.call (hr : Reads t p s lines) (hcurrent : s.current = some n)
    (hx : scopeAfter lines = some x) (hn : s.graph.find? x = some n) (address : Nat)
    (name : String) : Reads t p (s.call n address name) (lines ++ [.call address name]) := by
  obtain ⟨symbol, hsymbol⟩ : ∃ symbol, (if name.isEmpty then s.graph.addUnnamed address
      else s.graph.addFunction address name) = s.graph.insert (Function.named address symbol) := by
    split
    · exact ⟨_, rfl⟩
    · exact ⟨_, rfl⟩
  have hlabel := labelled_of_scopeAfter hx
  have hscope : (Line.call address name).scope (scopeAfter lines) = some x := hx
  unfold Survey.call
  rw [hsymbol]
  cases hq : s.graph.insert (Function.named address symbol) with | mk b g => ?_
  obtain ⟨hs, hn', hlive, hplace⟩ := hr.shows.insert_callee hn address symbol hq
  have hcallee : (Line.call address name).callee? = some (g.place b) := congrArg some hplace.symm
  by_cases hcount : s.policy.countReturnAddress = true
  · have hbytes : callBytes t p = s.dialect.callSize := by
      rw [callBytes, ← hr.policy, if_pos hcount, ← hr.target]
      rfl
    have hshows := hs.addCall_modify hn' hscope hlabel hlive hcallee
    have hfind : ((g.addCall n b).2.modify n
        ((Line.call address name).effect (callBytes t p))).find? x = some n :=
      (CallGraph.find?_modify (address_effect _)).trans (CallGraph.find?_addCall.trans hn')
    have heffect : (Line.call address name).effect (callBytes t p) =
        fun f => { f with size := f.size + s.dialect.callSize } := by
      rw [hbytes]
      rfl
    rw [heffect] at hshows hfind
    show Reads t p (if s.policy.countReturnAddress = true then _ else _) _
    rw [if_pos hcount]
    exact hr.inside hcurrent hscope hshows hfind
  · have hbytes : callBytes t p = 0 := by rw [callBytes, ← hr.policy, if_neg hcount]
    have hshows := hs.addCall hn' hscope hlabel hlive hcallee fun f => by rw [hbytes]; rfl
    show Reads t p (if s.policy.countReturnAddress = true then _ else _) _
    rw [if_neg hcount]
    refine hr.inside hcurrent hscope hshows ?_
    exact CallGraph.find?_addCall.trans hn'

/-- A line that only changes its function. -/
theorem Reads.modify (hr : Reads t p s lines) (hcurrent : s.current = some n)
    (hx : l.scope (scopeAfter lines) = some x) (hlabel : Labelled lines x)
    (hn : s.graph.find? x = some n) (hl : l.callee? = none) :
    Reads t p { s with graph := s.graph.modify n (l.effect (callBytes t p)) } (lines ++ [l]) :=
  hr.inside hcurrent hx (hr.shows.modify hn hx hlabel hl)
    ((CallGraph.find?_modify (address_effect l)).trans hn)

/-- A line without effect. -/
theorem Reads.skip (hr : Reads t p s lines) (hcurrent : s.current = some n)
    (hx : l.scope (scopeAfter lines) = some x) (hlabel : Labelled lines x)
    (hn : s.graph.find? x = some n) (hl : l.callee? = none)
    (heffect : ∀ f, l.effect (callBytes t p) f = f) : Reads t p s (lines ++ [l]) :=
  hr.inside hcurrent hx (hr.shows.inside hx hlabel hr.shows.wellFormed (map_effect_eq_self heffect)
    (hr.shows.pairs_concat_of_none hx hl)) hn

/-- **A line inside the current function.** -/
theorem Reads.applyIn (hr : Reads t p s lines) (hcurrent : s.current = some n)
    (hl : ∀ c, l.scope c = c) : Reads t p (s.applyIn n l) (lines ++ [l]) := by
  obtain ⟨x, hx, hn⟩ := hr.scopeAfter_eq_some hcurrent
  have hlabel := labelled_of_scopeAfter hx
  have hscope : l.scope (scopeAfter lines) = some x := (hl _).trans hx
  cases l with
  | fileFormat _ | sectionStart _ => cases hl (some 0)
  | label _ _ => cases hl none
  | push _ | decrement _ | dynamic => exact hr.modify hcurrent hscope hlabel hn rfl
  | call address name => exact hr.call hcurrent hx hn address name
  | pointerCall =>
    have hp := hr.shows.wellFormed.pointerLive
    have hs := hr.shows.addCall hn hscope hlabel hp (by rw [CallGraph.place_pointer]; rfl)
      fun _ => rfl
    exact hr.inside hcurrent hscope hs (CallGraph.find?_addCall.trans hn)
  | potential | other => exact hr.skip hcurrent hscope hlabel hn rfl fun _ => rfl

/-- A new name changes nothing else. -/
theorem field_rename {β : Type} {r : Function → β} (name : String)
    (hr : ∀ f, r (f.rename name) = r f) (f : Function) :
    r (if f.isUnnamed then f.rename name else f) = r f := by
  split
  · exact hr f
  · rfl

/-- What a label writes into its function. -/
def onLabel (s : Survey) (name : String) (f : Function) : Function :=
  { (if f.isUnnamed then f.rename name else f) with
    file := s.file, sectionName := s.sectionName, visited := true }

theorem enter_eq (s : Survey) (address : Nat) (name : String) : s.enter address name =
    { s with
      graph := (s.graph.addFunction address name).2.modify (s.graph.addFunction address name).1
        (s.onLabel name)
      current := some (s.graph.addFunction address name).1 } := rfl

/-- **A label.** -/
theorem Reads.enter (hr : Reads t p s lines) (address : Nat) (name : String) :
    Reads t p (s.enter address name) (lines ++ [.label address name]) := by
  have haddress : ∀ f, (s.onLabel name f).address = f.address :=
    field_rename (r := Function.address) name fun _ => rfl
  rw [enter_eq]
  refine ⟨hr.target, hr.policy, hr.shows.enter address name haddress ?_ ?_ ?_ ?_, ?_⟩
  · exact field_rename (r := Function.size) name fun _ => rfl
  · exact field_rename (r := Function.dynamic) name fun _ => rfl
  · exact fun _ => rfl
  · exact field_rename (r := Function.imprecise) name fun _ => rfl
  · rw [scopeAfter_concat]
    refine ((CallGraph.find?_modify haddress).trans ?_).symm
    exact hr.shows.wellFormed.find?_insert (Function.named address name)

/-- A line that opens and ends no scope acts in the current function, if there is one. -/
theorem apply_inside (hl : ∀ c, l.scope c = c) :
    (s.apply l).1 = (s.current.map (s.applyIn · l)).getD s := by
  cases l with
  | fileFormat _ | sectionStart _ => cases hl (some 0)
  | label _ _ => cases hl none
  | push _ | decrement _ | dynamic | call _ _ | pointerCall | potential | other =>
    unfold Survey.apply
    dsimp only
    cases s.current <;> rfl

/-- **One line**: the survey shows what it says. -/
theorem Reads.apply (hr : Reads t p s lines) (l : Line) :
    Reads t p (s.apply l).1 (lines ++ [l]) := by
  have hin : (∀ c, l.scope c = c) → Reads t p (s.apply l).1 (lines ++ [l]) := by
    intro hl
    rw [apply_inside hl]
    cases hcurrent : s.current with
    | some n => exact hr.applyIn hcurrent hl
    | none =>
      have hnone := hr.scopeAfter_eq_none hcurrent
      refine ⟨hr.target, hr.policy, hr.shows.outside ((hl _).trans hnone), ?_⟩
      rw [scopeAfter_concat, hl, hnone]
      exact hcurrent
  cases l with
  | fileFormat _ | sectionStart _ =>
    refine ⟨hr.target, hr.policy, hr.shows.outside rfl, ?_⟩
    rw [scopeAfter_concat]
    rfl
  | label address name => exact hr.enter address name
  | push _ | decrement _ | dynamic | call _ _ | pointerCall | potential | other =>
    exact hin fun _ => rfl

/-- A survey after some more lines. -/
def applyAll (s : Survey) (lines : List Line) : Survey := lines.foldl (fun s l => (s.apply l).1) s

theorem applyAll_cons (s : Survey) (l : Line) (more : List Line) :
    s.applyAll (l :: more) = (s.apply l).1.applyAll more := rfl

/-- **Any number of lines.** -/
theorem Reads.applyAll {more : List Line} (hr : Reads t p s lines) :
    Reads t p (s.applyAll more) (lines ++ more) := by
  induction more generalizing s lines with
  | nil =>
    rw [List.append_nil]
    exact hr
  | cons l more ih =>
    have hmore := ih (hr.apply l)
    rw [List.append_assoc] at hmore
    exact hmore

end Survey

end StackDepth

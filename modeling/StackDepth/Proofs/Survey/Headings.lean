import StackDepth.Proofs.Survey.Strays

/-!
# Headings

A function has the file and the section that are in effect at its last label. No other line changes
them, and reading measures nothing.

* `fileAfter`, `sectionAfter`: what the headings of a listing leave in effect;
* `Labelled.exists_last`: the last label of an address;
* `Particulars`: what a function has besides its address, its name and what its own lines say;
  `particulars_applyIn`: no line inside a function changes them;
* `Notes.apply`, `Notes.applyAll`: one line, and any number of them;
* `notes_readRows`: so it is in every survey that has read its rows.
-/

namespace StackDepth

open StackDepth.Listing

namespace Line

/-- The file that the line opens. -/
def file? : Line → Option String
  | fileFormat file => some file
  | _ => none

/-- What section the line opens; a file opens none, and ends the one before. -/
def sectionHeading? : Line → Option (Option String)
  | fileFormat _ => some none
  | sectionStart name => some (some name)
  | _ => none

end Line

/-! ## 1. What is in effect -/

namespace Listing

variable {lines : List Line} {l : Line} {x : Nat}

/-- The file of the last heading that names one. -/
def fileAfter (lines : List Line) : Option String := (lines.filterMap Line.file?).getLast?

/-- The section of the last heading, if that is a section. -/
def sectionAfter (lines : List Line) : Option String :=
  (lines.filterMap Line.sectionHeading?).getLast?.join

theorem fileAfter_concat : fileAfter (lines ++ [l]) = l.file?.or (fileAfter lines) := by
  rw [fileAfter, List.filterMap_append, List.getLast?_append]
  cases h : l.file? with
  | none => simp [h, fileAfter]
  | some file => simp [h]

theorem sectionAfter_concat :
    sectionAfter (lines ++ [l]) = l.sectionHeading?.getD (sectionAfter lines) := by
  rw [sectionAfter, List.filterMap_append, List.getLast?_append]
  cases h : l.sectionHeading? with
  | none => simp [h, sectionAfter]
  | some name => simp [h]

/-- An address that is labelled has a last label. -/
theorem Labelled.exists_last (h : Labelled lines x) : ∃ before name after,
    lines = before ++ .label x name :: after ∧ ¬ Labelled after x := by
  induction lines with
  | nil =>
    obtain ⟨name, hname⟩ := h
    exact absurd hname List.not_mem_nil
  | cons l rest ih =>
    by_cases hrest : Labelled rest x
    · obtain ⟨before, name, after, hlines, hlast⟩ := ih hrest
      exact ⟨l :: before, name, after, by rw [hlines, List.cons_append], hlast⟩
    · obtain ⟨name, hname⟩ := h
      rcases List.mem_cons.mp hname with hl | hmem
      · exact ⟨[], name, rest, by rw [hl, List.nil_append], hrest⟩
      · exact absurd ⟨name, hmem⟩ hrest

end Listing

/-! ## 2. What no line inside a function changes -/

/-- What a function has besides its address, its name and what its own lines say. -/
structure Particulars where
  file : Option String := none
  sectionName : Option String := none
  total : Nat := 0
  cycle : Bool := false

def Function.particulars (f : Function) : Particulars := ⟨f.file, f.sectionName, f.total, f.cycle⟩

namespace CallGraph

variable {g : CallGraph} {a b n : Node} {f : Function} {x : Nat}

/-- The particulars of the function at `x`; where there is none, those of a new function. -/
def particulars (g : CallGraph) (x : Nat) : Particulars :=
  ((g.at? x).map Function.particulars).getD {}

theorem particulars_of_at? (h : g.at? x = some f) : g.particulars x = f.particulars := by
  rw [particulars, h]
  rfl

theorem particulars_addCall : (g.addCall a b).2.particulars x = g.particulars x := by
  rw [particulars, at?_addCall, particulars]

theorem WellFormed.particulars_insert (hg : g.WellFormed) (address : Nat) (name : String) :
    (g.insert (Function.named address name)).2.particulars x = g.particulars x := by
  rw [particulars, hg.at?_insert, particulars]
  split
  · cases g.at? x with
    | none => rfl
    | some f => rfl
  · rfl

theorem particulars_modify {k : Function → Function} (haddress : ∀ f, (k f).address = f.address)
    (hk : ∀ f, (k f).particulars = f.particulars) :
    (g.modify n k).particulars x = g.particulars x := by
  rw [particulars, at?, find?_modify haddress, particulars, at?]
  cases g.find? x with
  | none => rfl
  | some m =>
    rw [Option.bind_some, Option.bind_some, function?_modify]
    split
    · rw [Option.map_map, show Function.particulars ∘ k = Function.particulars from funext hk]
    · rfl

end CallGraph

namespace Survey

variable {t : Target} {p : Policy} {s s' : Survey} {lines : List Line} {l : Line} {x : Nat}

theorem particulars_grow (s : Survey) (n : Node) (size : Nat) :
    (s.grow n size).graph.particulars x = s.graph.particulars x :=
  CallGraph.particulars_modify (fun _ => rfl) fun _ => rfl

/-- A direct call enters its target, which is new there, and adds to its caller. -/
theorem particulars_call (hg : s.graph.WellFormed) (n : Node) (address : Nat) (name : String) :
    (s.call n address name).graph.particulars x = s.graph.particulars x := by
  have hinsert : (if name.isEmpty then s.graph.addUnnamed address
      else s.graph.addFunction address name).2.particulars x = s.graph.particulars x := by
    split
    · exact hg.particulars_insert address _
    · exact hg.particulars_insert address _
  unfold Survey.call
  dsimp only
  generalize (if name.isEmpty then s.graph.addUnnamed address
    else s.graph.addFunction address name) = q at hinsert ⊢
  have hcall : (q.2.addCall n q.1).2.particulars x = s.graph.particulars x :=
    CallGraph.particulars_addCall.trans hinsert
  by_cases hc : s.policy.countReturnAddress = true
  · rw [if_pos hc]
    exact (particulars_grow _ n _).trans hcall
  · rw [if_neg hc]
    exact hcall

/-- **No line inside a function changes its particulars.** -/
theorem particulars_applyIn (hg : s.graph.WellFormed) (n : Node) (l : Line) :
    (s.applyIn n l).graph.particulars x = s.graph.particulars x := by
  cases l with
  | push size | decrement size => exact particulars_grow s n size
  | dynamic => exact CallGraph.particulars_modify (fun _ => rfl) fun _ => rfl
  | call address name => exact particulars_call hg n address name
  | pointerCall => exact CallGraph.particulars_addCall
  | potential | other | fileFormat _ | sectionStart _ | label _ _ => rfl

/-! ## 3. A survey at work -/

/-- What the survey holds besides what the lines inside the functions say: nothing is measured, and
    each function has the file and the section of its last label. -/
structure Notes (s : Survey) (lines : List Line) : Prop where
  file : s.file = fileAfter lines
  sectionName : s.sectionName = sectionAfter lines
  unmeasured : ∀ x, (s.graph.particulars x).total = 0 ∧ (s.graph.particulars x).cycle = false
  labelled : ∀ before x name after, lines = before ++ .label x name :: after →
    ¬ Labelled after x → (s.graph.particulars x).file = fileAfter before ∧
      (s.graph.particulars x).sectionName = sectionAfter before

theorem notes_start : Notes { target := t, policy := p } [] where
  file := rfl
  sectionName := rfl
  unmeasured _ := ⟨rfl, rfl⟩
  labelled before x name after e := by cases before <;> cases e

/-- A line that labels nothing. -/
theorem Notes.concat (hn : Notes s lines) (hl : ∀ x name, l ≠ .label x name)
    (hparticulars : ∀ x, s'.graph.particulars x = s.graph.particulars x)
    (hfile : s'.file = l.file?.or s.file)
    (hsection : s'.sectionName = l.sectionHeading?.getD s.sectionName) :
    Notes s' (lines ++ [l]) where
  file := by rw [hfile, hn.file, fileAfter_concat]
  sectionName := by rw [hsection, hn.sectionName, sectionAfter_concat]
  unmeasured x := by
    rw [hparticulars]
    exact hn.unmeasured x
  labelled before x name after e hlast := by
    rw [hparticulars]
    rcases concat_eq_append_cons e with ⟨_, hlabel, _⟩ | ⟨rest, hlines, rfl⟩
    · exact absurd hlabel (hl x name)
    · exact hn.labelled before x name rest hlines fun h => hlast (labelled_concat.mpr (.inl h))

theorem particulars_onLabel (s : Survey) (name : String) (f : Function) :
    (s.onLabel name f).particulars =
      { f.particulars with file := s.file, sectionName := s.sectionName } := by
  unfold onLabel
  split <;> rfl

/-- A label gives its function the file and the section that are in effect. -/
theorem particulars_enter (hg : s.graph.WellFormed) (address : Nat) (name : String) :
    (s.enter address name).graph.particulars x = if x = address then
      { s.graph.particulars x with file := s.file, sectionName := s.sectionName }
    else s.graph.particulars x := by
  have hinsert : (s.graph.addFunction address name).2.particulars x = s.graph.particulars x :=
    hg.particulars_insert address name
  have hfound : (s.graph.addFunction address name).2.find? address =
      some (s.graph.addFunction address name).1 := hg.find?_insert (Function.named address name)
  have hg' : (s.graph.addFunction address name).2.WellFormed := hg.insert _
  obtain ⟨hn, hax⟩ := hg'.find?_iff.mp hfound
  have haddress : ∀ f, (s.onLabel name f).address = f.address :=
    field_rename (r := Function.address) name fun _ => rfl
  rw [enter_eq]
  dsimp only
  rw [CallGraph.particulars, hg'.at?_modify hn haddress, hax, ← hinsert]
  split
  · rename_i e
    obtain ⟨f, hf⟩ := CallGraph.isLive_iff.mp (CallGraph.mem_functions.mp hn).2
    have hat : (s.graph.addFunction address name).2.at? x = some f := by
      rw [e, CallGraph.at?, hfound]
      exact hf
    rw [CallGraph.particulars_of_at? hat, hat]
    exact particulars_onLabel s name f
  · rfl

/-- **A label.** -/
theorem Notes.enter (hn : Notes s lines) (hg : s.graph.WellFormed) (address : Nat) (name : String) :
    Notes (s.enter address name) (lines ++ [.label address name]) where
  file := by
    rw [fileAfter_concat]
    exact hn.file
  sectionName := by
    rw [sectionAfter_concat]
    exact hn.sectionName
  unmeasured x := by
    rw [particulars_enter hg]
    split
    · exact hn.unmeasured x
    · exact hn.unmeasured x
  labelled before x name' after e hlast := by
    rw [particulars_enter hg]
    rcases concat_eq_append_cons e with ⟨rfl, hlabel, _⟩ | ⟨rest, hlines, rfl⟩
    · cases hlabel
      rw [if_pos rfl]
      exact ⟨hn.file, hn.sectionName⟩
    · have hx : x ≠ address := fun hx => hlast (labelled_concat.mpr (.inr ⟨name, by rw [hx]⟩))
      rw [if_neg hx]
      exact hn.labelled before x name' rest hlines fun h => hlast (labelled_concat.mpr (.inl h))

/-- **One line.** -/
theorem Notes.apply (hn : Notes s lines) (hg : s.graph.WellFormed) (l : Line) :
    Notes (s.apply l).1 (lines ++ [l]) := by
  have hin : (∀ c, l.scope c = c) → l.file? = none → l.sectionHeading? = none →
      Notes (s.apply l).1 (lines ++ [l]) := by
    intro hl hfile hsection
    have hlabel : ∀ x name, l ≠ .label x name := by
      intro x name e
      rw [e] at hl
      cases hl none
    rw [apply_inside hl]
    cases s.current with
    | none => exact hn.concat hlabel (fun _ => rfl) (by rw [hfile]; rfl) (by rw [hsection]; rfl)
    | some n =>
      refine hn.concat hlabel (fun _ => particulars_applyIn hg n l) ?_ ?_
      · show (s.applyIn n l).file = l.file?.or s.file
        rw [hfile, applyIn_eq]
        rfl
      · show (s.applyIn n l).sectionName = l.sectionHeading?.getD s.sectionName
        rw [hsection, applyIn_eq]
        rfl
  cases l with
  | fileFormat _ | sectionStart _ =>
    exact hn.concat (fun _ _ e => by cases e) (fun _ => rfl) rfl rfl
  | label address name => exact hn.enter hg address name
  | push _ | decrement _ | dynamic | call _ _ | pointerCall | potential | other =>
    exact hin (fun _ => rfl) rfl rfl

/-- **Any number of lines.** -/
theorem Notes.applyAll {more : List Line} (hn : Notes s lines) (hr : Reads t p s lines) :
    Notes (s.applyAll more) (lines ++ more) := by
  induction more generalizing s lines with
  | nil =>
    rw [List.append_nil]
    exact hn
  | cons l more ih =>
    have hmore := ih (hn.apply hr.shows.wellFormed l) (hr.apply l)
    rw [List.append_assoc] at hmore
    exact hmore

/-- **Every survey that has read its rows** has the notes of their lines. -/
theorem notes_readRows {rows : List (Option String)} {log : Array Event}
    (h : (readRows { target := t, policy := p } log rows).result = .ok ()) :
    Notes (readRows { target := t, policy := p } log rows).survey (linesOf t rows) := by
  have hnotes : Notes (readRows { target := t, policy := p } log rows).survey.uncounted
      (linesOf t rows) := by
    rw [uncounted_readRows h]
    exact notes_start.applyAll reads_start
  exact ⟨hnotes.file, hnotes.sectionName, hnotes.unmeasured, hnotes.labelled⟩

end Survey

end StackDepth

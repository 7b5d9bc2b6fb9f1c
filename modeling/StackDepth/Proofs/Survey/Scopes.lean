import Mathlib.Algebra.Ring.Nat
import StackDepth.Survey

/-!
# Scopes

Which function each line of a listing stands in, said of the lines alone. A label opens a scope, and
the next label, section or file ends it. An address that is labelled twice has the lines of both
scopes.

* `placed`, `scopeOf`: the lines that stand in a function, and those of one function;
* `frameBytes`, `callPairs`: the bytes these lines take, and the calls they make;
* `scopeOf_concat`, `frameBytes_concat`, `callPairs_concat`: what one more line adds.
-/

namespace StackDepth

namespace Line

/-- The address of the function that the listing is in from this line on. -/
def scope (current : Option Nat) : Line → Option Nat
  | fileFormat _ | sectionStart _ => none
  | label address _ => some address
  | _ => current

/-- The bytes that the line takes from the stack, where a direct call takes `perCall`. -/
def bytes (perCall : Nat) : Line → Nat
  | push size | decrement size => size
  | call _ _ => perCall
  | _ => 0

/-- What the line calls: an address, or nothing known for an indirect call. -/
def callee? : Line → Option (Option Nat)
  | call address _ => some (some address)
  | pointerCall => some none
  | _ => none

theorem callee?_eq_some {l : Line} {y : Option Nat} (h : l.callee? = some y) :
    (∃ address name, y = some address ∧ l = call address name) ∨ (y = none ∧ l = pointerCall) := by
  cases l with
  | call address name =>
    cases h
    exact .inl ⟨address, name, rfl, rfl⟩
  | pointerCall =>
    cases h
    exact .inr ⟨rfl, rfl⟩
  | fileFormat _ | sectionStart _ | label _ _ | push _ | decrement _ | dynamic | potential
  | other => cases h

end Line

namespace Listing

variable {lines : List Line} {l : Line} {x : Nat} {perCall : Nat}

/-! ## 1. Lines and their functions -/

/-- The lines that the rows of a listing hold. -/
def linesOf (target : Target) (rows : List (Option String)) : List Line :=
  rows.filterMap fun row =>
    row.map fun raw => (Dialect.of target).classify (Text.dropLineEnd raw).toList

/-- The function that the listing is in after its last line. -/
def scopeAfter (lines : List Line) : Option Nat := lines.foldl Line.scope none

/-- Each line that stands in a function, with the address of the function. -/
def placedFrom (current : Option Nat) : List Line → List (Nat × Line)
  | [] => []
  | l :: rest => ((l.scope current).map (·, l)).toList ++ placedFrom (l.scope current) rest

def placed (lines : List Line) : List (Nat × Line) := placedFrom none lines

/-- The lines that stand in the function at `x`. -/
def scopeOf (x : Nat) (lines : List Line) : List Line :=
  ((placed lines).filter (·.1 == x)).map (·.2)

/-- Some label of the listing has the address `x`. -/
def Labelled (lines : List Line) (x : Nat) : Prop := ∃ name, Line.label x name ∈ lines

/-- The bytes that the lines of the function at `x` take from the stack. -/
def frameBytes (perCall x : Nat) (lines : List Line) : Nat :=
  ((scopeOf x lines).map (Line.bytes perCall)).sum

/-- Every call, by the address of the function it stands in and what it calls. -/
def callPairs (lines : List Line) : List (Option Nat × Option Nat) :=
  (placed lines).filterMap fun q => q.2.callee?.map fun y => (some q.1, y)

/-- No line that needs a function stands outside of every function. -/
def accepted (current : Option Nat) : List Line → Bool
  | [] => true
  | l :: rest => !(l.needsFunction && current.isNone) && accepted (l.scope current) rest

theorem mem_scopeOf : l ∈ scopeOf x lines ↔ (x, l) ∈ placed lines := by
  rw [scopeOf, List.mem_map]
  constructor
  · intro ⟨q, hq, e⟩
    obtain ⟨hq, hx⟩ := List.mem_filter.mp hq
    rw [← beq_iff_eq.mp hx, ← e]
    exact hq
  · intro h
    exact ⟨(x, l), List.mem_filter.mpr ⟨h, beq_self_eq_true x⟩, rfl⟩

theorem mem_callPairs {y : Option Nat} :
    (some x, y) ∈ callPairs lines ↔ ∃ l ∈ scopeOf x lines, l.callee? = some y := by
  rw [callPairs, List.mem_filterMap]
  constructor
  · intro ⟨q, hq, e⟩
    obtain ⟨z, hz, e⟩ := Option.map_eq_some_iff.mp e
    obtain ⟨e1, e2⟩ := Prod.mk.inj e
    rw [← Option.some.inj e1, ← e2]
    exact ⟨q.2, mem_scopeOf.mpr hq, hz⟩
  · intro ⟨l, hl, e⟩
    refine ⟨(x, l), mem_scopeOf.mp hl, ?_⟩
    rw [e]
    rfl

/-- A call is made by a function. -/
theorem fst_of_mem_callPairs {q : Option Nat × Option Nat} (h : q ∈ callPairs lines) :
    ∃ x, q.1 = some x := by
  obtain ⟨r, _, e⟩ := List.mem_filterMap.mp h
  obtain ⟨_, _, e⟩ := Option.map_eq_some_iff.mp e
  exact ⟨r.1, e ▸ rfl⟩

theorem mem_lines_of_mem_placedFrom {current : Option Nat} {q : Nat × Line}
    (h : q ∈ placedFrom current lines) : q.2 ∈ lines := by
  induction lines generalizing current with
  | nil => cases h
  | cons l rest ih =>
    rw [placedFrom, List.mem_append] at h
    rcases h with h | h
    · obtain ⟨z, _, e⟩ := Option.map_eq_some_iff.mp (Option.mem_toList.mp h)
      rw [← e]
      exact List.mem_cons_self
    · exact List.mem_cons_of_mem l (ih h)

theorem mem_lines_of_mem_scopeOf (h : l ∈ scopeOf x lines) : l ∈ lines :=
  mem_lines_of_mem_placedFrom (mem_scopeOf.mp h)

/-! ## 2. One more line -/

theorem scopeAfter_concat : scopeAfter (lines ++ [l]) = l.scope (scopeAfter lines) :=
  List.foldl_append ..

theorem placedFrom_concat {current : Option Nat} : placedFrom current (lines ++ [l]) =
    placedFrom current lines ++ ((l.scope (lines.foldl Line.scope current)).map (·, l)).toList := by
  induction lines generalizing current with
  | nil => exact List.append_nil _
  | cons k rest ih =>
    rw [List.cons_append, placedFrom, ih, placedFrom, List.foldl_cons, List.append_assoc]

theorem placed_concat : placed (lines ++ [l]) =
    placed lines ++ ((l.scope (scopeAfter lines)).map (·, l)).toList := placedFrom_concat

theorem scopeOf_concat : scopeOf x (lines ++ [l]) =
    scopeOf x lines ++ if l.scope (scopeAfter lines) = some x then [l] else [] := by
  rw [scopeOf, placed_concat, List.filter_append, List.map_append, scopeOf]
  refine congrArg (_ ++ ·) ?_
  cases l.scope (scopeAfter lines) with
  | none => rfl
  | some y =>
    by_cases h : y = x
    · simp [h]
    · simp [h]

theorem frameBytes_concat : frameBytes perCall x (lines ++ [l]) = frameBytes perCall x lines +
    if l.scope (scopeAfter lines) = some x then l.bytes perCall else 0 := by
  rw [frameBytes, scopeOf_concat, List.map_append, List.sum_append, frameBytes]
  split
  · rw [List.map_singleton, List.sum_singleton]
  · rw [List.map_nil, List.sum_nil]

theorem callPairs_concat : callPairs (lines ++ [l]) = callPairs lines ++
    ((l.scope (scopeAfter lines)).bind fun x => l.callee?.map fun y => (some x, y)).toList := by
  rw [callPairs, placed_concat, List.filterMap_append, callPairs]
  refine congrArg (_ ++ ·) ?_
  cases l.scope (scopeAfter lines) with
  | none => rfl
  | some x =>
    cases h : l.callee? with
    | none => simp [h]
    | some y => simp [h]

theorem labelled_concat : Labelled (lines ++ [l]) x ↔
    Labelled lines x ∨ ∃ name, l = .label x name := by
  simp only [Labelled, List.mem_append, List.mem_singleton, exists_or, eq_comm]

/-! ## 3. Scopes are labelled -/

/-- The function a line brings the listing into is labelled by it or was there before. -/
theorem scope_eq_some {current : Option Nat} (h : l.scope current = some x) :
    current = some x ∨ ∃ name, l = .label x name := by
  cases l with
  | label address name =>
    cases h
    exact .inr ⟨name, rfl⟩
  | fileFormat _ | sectionStart _ => cases h
  | push _ | decrement _ | dynamic | call _ _ | pointerCall | potential | other => exact .inl h

theorem labelled_of_mem_placedFrom {current : Option Nat} (h : (x, l) ∈ placedFrom current lines) :
    current = some x ∨ Labelled lines x := by
  induction lines generalizing current with
  | nil => cases h
  | cons k rest ih =>
    have hk : k.scope current = some x ∨ Labelled rest x := by
      rw [placedFrom, List.mem_append] at h
      rcases h with h | h
      · obtain ⟨z, hz, e⟩ := Option.map_eq_some_iff.mp (Option.mem_toList.mp h)
        rw [← (Prod.mk.inj e).1]
        exact .inl hz
      · exact ih h
    rcases hk with hk | ⟨name, hname⟩
    · rcases scope_eq_some hk with h | ⟨name, rfl⟩
      · exact .inl h
      · exact .inr ⟨name, List.mem_cons_self⟩
    · exact .inr ⟨name, List.mem_cons_of_mem k hname⟩

/-- **Where a line stands, there is a label.** -/
theorem labelled_of_mem_scopeOf (h : l ∈ scopeOf x lines) : Labelled lines x :=
  (labelled_of_mem_placedFrom (mem_scopeOf.mp h)).resolve_left nofun

theorem scopeOf_eq_nil (h : ¬ Labelled lines x) : scopeOf x lines = [] :=
  List.eq_nil_iff_forall_not_mem.mpr fun _ hl => h (labelled_of_mem_scopeOf hl)

theorem labelled_of_scopeAfter (h : scopeAfter lines = some x) : Labelled lines x := by
  rcases List.eq_nil_or_concat lines with rfl | ⟨before, l, rfl⟩
  · cases h
  · rw [List.concat_eq_append, scopeAfter_concat] at h
    refine labelled_of_mem_scopeOf (l := l) ?_
    rw [List.concat_eq_append, scopeOf_concat, if_pos h]
    exact List.mem_append_right _ List.mem_cons_self

end Listing

end StackDepth

import StackDepth.Proofs.Listing.Columns

/-!
# Comments

A line is read as an instruction without the comment at its end. Where a comment starts is a matter
of the target, and of the characters alone: a symbol with such a mark in it is cut short there.

* `code_eq_self_iff`: a text keeps all its characters exactly if no comment starts in it;
* `infix_code_of_classify`: the symbol of a direct call stands before the comment.
-/

namespace StackDepth.Listing

open StackDepth.Text

/-! ## 1. Marks -/

/-- What starts a comment. -/
def commentMarks : Target → List String
  | .x86 | .x86_64 => ["#"]
  | .arm | .aarch64 => [";", "//"]

/-- No comment starts in `cs`. -/
def Uncommented (t : Target) (cs : List Char) : Prop :=
  ∀ mark ∈ commentMarks t, ¬ mark.toList <:+: cs

variable {t : Target} {cs part : List Char}

theorem Uncommented.mono (h : Uncommented t cs) (hpart : part <:+: cs) : Uncommented t part :=
  fun mark hmark hfound => h mark hmark (hfound.trans hpart)

theorem singleton_isInfix_iff {x : Char} : [x] <:+: cs ↔ x ∈ cs := by
  constructor
  · intro h
    exact h.subset List.mem_cons_self
  · intro h
    obtain ⟨front, back, rfl⟩ := List.append_of_mem h
    exact ⟨front, back, by rw [List.append_assoc, List.singleton_append]⟩

theorem uncommented_x86 : Uncommented .x86 cs ↔ '#' ∉ cs := by
  simp only [Uncommented, commentMarks, List.forall_mem_singleton]
  exact not_congr singleton_isInfix_iff

theorem uncommented_arm : Uncommented .arm cs ↔ ';' ∉ cs ∧ ¬ ['/', '/'] <:+: cs := by
  simp only [Uncommented, commentMarks, List.forall_mem_cons, List.not_mem_nil, false_implies,
    implies_true, and_true]
  exact and_congr_left' (not_congr singleton_isInfix_iff)

/-! ## 2. The code of a line -/

theorem Arm.code_of_uncommented (hsemi : ';' ∉ cs) (hslash : ¬ ['/', '/'] <:+: cs) :
    Arm.code cs = cs := by
  fun_induction Arm.code cs with
  | case1 => rfl
  | case2 => exact absurd List.mem_cons_self hsemi
  | case3 rest => exact absurd (List.prefix_append ['/', '/'] rest).isInfix hslash
  | case4 x rest _ _ ih =>
    rw [ih (fun h => hsemi (List.mem_cons_of_mem x h)) fun h => hslash (List.infix_cons h)]

theorem Arm.head?_code {x : Char} (h : (Arm.code cs).head? = some x) : cs.head? = some x := by
  revert h
  fun_cases Arm.code cs with
  | case1 | case2 | case3 => exact nofun
  | case4 => exact id

theorem Arm.uncommented_code (cs : List Char) :
    ';' ∉ Arm.code cs ∧ ¬ ['/', '/'] <:+: Arm.code cs := by
  fun_induction Arm.code cs with
  | case1 => exact ⟨List.not_mem_nil, by decide⟩
  | case2 => exact ⟨List.not_mem_nil, by decide⟩
  | case3 => exact ⟨List.not_mem_nil, by decide⟩
  | case4 x rest hsemi hslash ih =>
    refine ⟨fun h => ?_, fun h => ?_⟩
    · rcases List.mem_cons.mp h with rfl | h
      · exact hsemi rfl
      · exact ih.1 h
    · rcases List.infix_cons_iff.mp h with h | h
      · -- two slashes would be the first two characters of the text itself
        obtain ⟨rfl, hrest⟩ := List.cons_prefix_cons.mp h
        obtain ⟨after, hafter⟩ := hrest
        have hhead : (Arm.code rest).head? = some '/' := by rw [← hafter]; rfl
        obtain ⟨more, hmore⟩ := List.head?_eq_some_iff.mp (Arm.head?_code hhead)
        exact hslash more rfl hmore
      · exact ih.2 h

/-- **A text is all code exactly if no comment starts in it**, and in what is code none does. -/
theorem code_eq_self_iff : (Dialect.of t).code cs = cs ↔ Uncommented t cs := by
  have hx86 : (cs.takeWhile (· != '#') = cs) ↔ Uncommented .x86 cs := by
    rw [uncommented_x86, List.takeWhile_eq_self_iff]
    simp only [bne_iff_ne, ne_eq]
    exact ⟨fun h hm => h '#' hm rfl, fun h x hx e => h (e ▸ hx)⟩
  have harm : Arm.code cs = cs ↔ Uncommented .arm cs := by
    rw [uncommented_arm]
    refine ⟨fun h => ?_, fun h => Arm.code_of_uncommented h.1 h.2⟩
    have hcode := Arm.uncommented_code cs
    rw [h] at hcode
    exact hcode
  cases t with
  | x86 | x86_64 => exact hx86
  | arm | aarch64 => exact harm

theorem uncommented_code : Uncommented t ((Dialect.of t).code cs) := by
  have hx86 : Uncommented .x86 (cs.takeWhile (· != '#')) :=
    uncommented_x86.mpr fun h => absurd (List.mem_takeWhile_imp h) (by decide)
  have harm : Uncommented .arm (Arm.code cs) := uncommented_arm.mpr (Arm.uncommented_code cs)
  cases t with
  | x86 | x86_64 => exact hx86
  | arm | aarch64 => exact harm

/-! ## 3. Symbols stand in the code -/

theorem suffix_of_mem_ops {op : Op} (h : op ∈ ops cs) : op.operands <:+ cs := by
  induction cs with
  | nil => cases h
  | cons x cs ih =>
    have hcons := List.suffix_cons x cs
    rw [ops] at h
    split at h
    · rcases List.mem_cons.mp h with rfl | h
      · exact (List.dropWhile_suffix _).trans hcons
      · exact (ih h).trans hcons
    · exact (ih h).trans hcons

theorem suffix_of_blanks {rest : List Char} (h : blanks cs = some rest) : rest <:+ cs := by
  unfold blanks at h
  split at h
  · rename_i x r
    split at h
    · cases h
      exact (List.dropWhile_suffix _).trans (List.suffix_cons x r)
    · cases h
  · cases h

theorem suffix_of_literal {start : String} {rest : List Char} (h : literal start cs = some rest) :
    rest <:+ cs :=
  ⟨start.toList, (after?_eq_some_iff.mp h).symm⟩

theorem prefix_trimEnd (cs : List Char) : trimEnd cs <+: cs := by
  obtain ⟨ending, h, _⟩ := dropEndWhile_eq_iff.mp (rfl : trimEnd cs = trimEnd cs)
  exact ⟨ending, h.symm⟩

theorem infix_of_bracketed? {close : String} {symbol : List Char}
    (h : bracketed? close cs = some symbol) : symbol <:+: cs := by
  simp only [bracketed?, Option.bind_eq_bind, Option.bind_eq_some_iff] at h
  obtain ⟨rest, hrest, found, hfound, h⟩ := h
  split at h
  · cases h
  · cases h
    have hprefix : symbol <+: rest := ⟨close.toList, (before?_eq_some_iff.mp hfound).symm⟩
    exact hprefix.isInfix.trans (suffix_of_literal hrest).isInfix

theorem suffix_of_run {p : Char → Bool} {word rest : List Char} (h : run p cs = some (word, rest)) :
    rest <:+ cs := by
  unfold run at h
  split at h
  · cases h
  · cases h
    exact List.dropWhile_suffix _

/-- The symbol of a call target stands in it. -/
theorem infix_of_callTarget? {address symbol : List Char}
    (h : callTarget? cs = some (address, symbol)) : symbol <:+: cs := by
  simp only [callTarget?, Option.bind_eq_bind, Option.bind_eq_some_iff] at h
  obtain ⟨⟨digits, rest⟩, hrun, h⟩ := h
  dsimp only at h
  split at h
  · cases h
    exact List.nil_infix
  · simp only [Option.bind_eq_some_iff, Option.pure_def] at h
    obtain ⟨after, hblanks, found, hfound, h⟩ := h
    cases h
    exact (infix_of_bracketed? hfound).trans
      ((suffix_of_blanks hblanks).trans (suffix_of_run hrun)).isInfix

theorem suffix_of_register {rest : List Char} (h : Arm.register cs = some rest) : rest <:+ cs := by
  simp only [Arm.register, Option.bind_eq_bind, Option.bind_eq_some_iff, Option.pure_def,
    Option.some.injEq] at h
  obtain ⟨⟨word, after⟩, hword, more, hmore, rfl⟩ := h
  have hidentifier : after <:+ cs := by
    unfold identifier at hword
    split at hword
    · rename_i x r
      split at hword
      · cases hword
        exact (List.dropWhile_suffix _).trans (List.suffix_cons x r)
      · cases hword
    · cases hword
  exact (List.dropWhile_suffix _).trans ((suffix_of_literal hmore).trans hidentifier)

theorem X86.infix_of_call? {op : Op} {target : List Char × List Char}
    (h : X86.call? op = some target) : target.2 <:+: op.operands := by
  simp only [X86.call?, Option.bind_eq_bind] at h
  split at h
  · cases h
  · obtain ⟨rest, hblanks, htarget⟩ := Option.bind_eq_some_iff.mp h
    exact (infix_of_callTarget? htarget).trans
      ((prefix_trimEnd rest).isInfix.trans (suffix_of_blanks hblanks).isInfix)

theorem Arm.infix_of_branch? {op : Op} {target : List Char × List Char}
    (h : Arm.branch? op = some target) : target.2 <:+: op.operands := by
  simp only [Arm.branch?, Option.bind_eq_bind] at h
  split at h
  · cases h
  · obtain ⟨rest, hblanks, htarget⟩ := Option.bind_eq_some_iff.mp h
    exact (infix_of_callTarget? htarget).trans (suffix_of_blanks hblanks).isInfix

theorem Arm.infix_of_compareBranch? {op : Op} {target : List Char × List Char}
    (h : Arm.compareBranch? op = some target) : target.2 <:+: op.operands := by
  simp only [Arm.compareBranch?, Option.bind_eq_bind] at h
  split at h
  · cases h
  · obtain ⟨rest, hblanks, h⟩ := Option.bind_eq_some_iff.mp h
    obtain ⟨more, hmore, htarget⟩ := Option.bind_eq_some_iff.mp h
    exact (infix_of_callTarget? htarget).trans
      ((suffix_of_register hmore).trans (suffix_of_blanks hblanks)).isInfix

/-- The symbol of the first operation that has a form. -/
theorem infix_of_findSome? {form : Op → Option (List Char × List Char)}
    {target : List Char × List Char}
    (hform : ∀ {op}, form op = some target → target.2 <:+: op.operands)
    (h : (ops cs).findSome? form = some target) : target.2 <:+: cs := by
  obtain ⟨op, hop, hsome⟩ := List.exists_of_findSome?_eq_some h
  exact (hform hsome).trans (suffix_of_mem_ops hop).isInfix

/-- **The symbol that a dialect finds stands in the code.** -/
theorem infix_of_callee? {address : Nat} {name : String}
    (h : (Dialect.of t).callee? cs = some (address, name)) : name.toList <:+: cs := by
  have hname : ∀ target, callee target = some (address, name) → target.2 <:+: cs →
      name.toList <:+: cs := by
    intro target hcallee hsymbol
    obtain ⟨_, _, e⟩ := Option.map_eq_some_iff.mp hcallee
    cases e
    rw [String.toList_ofList]
    exact hsymbol
  cases t with
  | x86 | x86_64 =>
    obtain ⟨target, hfind, hcallee⟩ := Option.bind_eq_some_iff.mp h
    exact hname target hcallee (infix_of_findSome? X86.infix_of_call? hfind)
  | arm | aarch64 =>
    obtain ⟨target, hfind, hcallee⟩ := Option.bind_eq_some_iff.mp h
    refine hname target hcallee ?_
    rcases Option.or_eq_some_iff.mp hfind with hfind | ⟨_, hfind⟩
    · exact infix_of_findSome? Arm.infix_of_branch? hfind
    · exact infix_of_findSome? Arm.infix_of_compareBranch? hfind

theorem callee?_of_readCode {d : Dialect} {address : Nat} {name : String}
    (h : (d.readCode cs).line = .call address name) : d.callee? cs = some (address, name) := by
  unfold Dialect.readCode at h
  split at h
  · cases h
  split at h
  · split at h
    · cases h
    · cases h
  split at h
  · cases h
  split at h
  · rename_i hcallee
    cases h
    exact hcallee
  · split at h
    · cases h
    · split at h
      · cases h
      · cases h

theorem callee?_of_classify {d : Dialect} {line : List Char} {address : Nat} {name : String}
    (h : d.classify line = .call address name) :
    d.callee? (trimEnd (d.code line)) = some (address, name) := by
  unfold Dialect.classify Dialect.read at h
  split at h
  · cases h
  split at h
  · cases h
  split at h
  · cases h
  · exact callee?_of_readCode h

/-- **The symbol of a direct call stands before the comment.** -/
theorem infix_code_of_classify {line : List Char} {address : Nat} {name : String}
    (h : (Dialect.of t).classify line = .call address name) :
    name.toList <:+: (Dialect.of t).code line :=
  (infix_of_callee? (callee?_of_classify h)).trans (prefix_trimEnd _).isInfix

end StackDepth.Listing

import StackDepth.Proofs.Listing.Columns

/-!
# The mnemonic column

The mnemonic of an instruction is the first word after the groups of code bytes. A group is written
with the letters of some mnemonics, so where the groups end is not a matter of the characters but of
the single space that each of them has after it.

* `afterGroups_groups`: reading groups goes on to the last one;
* `exists_groups`: and what it leaves was after groups;
* `HasMnemonic`, `mnemonic?_eq_some_iff`: the lines that have a mnemonic, said without the reader;
* `Instruction`, `Continuation`: an instruction as it is listed, and the rest of a long one;
* `mnemonic_column_exact`: the first has its mnemonic, the second none.
-/

namespace StackDepth.Listing

open StackDepth.Text

/-! ## 1. Groups -/

/-- A group of code bytes. -/
def IsGroup (g : List Char) : Prop := g ≠ [] ∧ ∀ x ∈ g, isHexDigit x = true

section Groups

variable {done : Option (List Char)} {b : Bool} {g cs rest : List Char} {groups : List (List Char)}

theorem afterGroups_digits (hg : ∀ x ∈ g, isHexDigit x = true) (hne : g ≠ []) (cs : List Char) :
    afterGroups done b (g ++ cs) = afterGroups done true cs := by
  induction g generalizing b with
  | nil => exact absurd rfl hne
  | cons x g ih =>
    obtain ⟨hx, hg⟩ := List.forall_mem_cons.mp hg
    rw [List.cons_append, afterGroups, if_pos hx]
    cases g with
    | nil => rfl
    | cons y g => exact ih hg (List.cons_ne_nil y g)

theorem afterGroups_space (cs : List Char) :
    afterGroups done true (' ' :: cs) = afterGroups (some cs) false cs := rfl

/-- Between two groups there is nothing but the space of the first. -/
theorem afterGroups_bounds (h : Bounds isHexDigit cs) : afterGroups done false cs = done := by
  cases cs with
  | nil => rfl
  | cons c cs =>
    have hc := Bool.eq_false_iff.mp (bounds_cons.mp h)
    rw [afterGroups, if_neg hc, Bool.and_false]
    rfl

/-- **All groups are read.** -/
theorem afterGroups_groups (hgroups : ∀ g ∈ groups, IsGroup g) (hrest : Bounds isHexDigit rest)
    (hdone : groups = [] → done = some rest) :
    afterGroups done false (groups.flatMap (· ++ [' ']) ++ rest) = some rest := by
  induction groups generalizing done with
  | nil =>
    rw [List.flatMap_nil, List.nil_append, afterGroups_bounds hrest]
    exact hdone rfl
  | cons g groups ih =>
    obtain ⟨hg, hgroups⟩ := List.forall_mem_cons.mp hgroups
    have hsplit : (g :: groups).flatMap (· ++ [' ']) ++ rest =
        g ++ ' ' :: (groups.flatMap (· ++ [' ']) ++ rest) := by
      simp
    rw [hsplit, afterGroups_digits hg.2 hg.1, afterGroups_space]
    refine ih hgroups fun hnil => ?_
    rw [hnil]
    rfl

/-- What is left was there before, or follows groups. If no digit was read before, the first of them
    is whole. -/
theorem exists_groups_of_afterGroups (h : afterGroups done b cs = some rest) :
    done = some rest ∨ ∃ (digits : List Char) (groups : List (List Char)),
      (∀ x ∈ digits, isHexDigit x = true) ∧ (b = false → digits ≠ []) ∧
      (∀ g ∈ groups, IsGroup g) ∧ cs = digits ++ ' ' :: (groups.flatMap (· ++ [' ']) ++ rest) := by
  induction cs generalizing done b with
  | nil => exact .inl h
  | cons c cs ih =>
    rw [afterGroups] at h
    split at h
    · rename_i hc
      rcases ih h with hdone | ⟨digits, groups, hdigits, _, hgroups, rfl⟩
      · exact .inl hdone
      · exact .inr ⟨c :: digits, groups, List.forall_mem_cons.mpr ⟨hc, hdigits⟩,
          fun _ => List.cons_ne_nil c digits, hgroups, rfl⟩
    split at h
    · rename_i hspace
      obtain ⟨hc, hb⟩ := Bool.and_eq_true_iff.mp hspace
      cases beq_iff_eq.mp hc
      refine .inr ?_
      have hnot : b = false → ([] : List Char) ≠ [] := fun hfalse => by rw [hfalse] at hb; cases hb
      rcases ih h with hdone | ⟨digits, groups, hdigits, hne, hgroups, rfl⟩
      · cases hdone
        exact ⟨[], [], nofun, hnot, nofun, rfl⟩
      · refine ⟨[], digits :: groups, nofun, hnot,
          List.forall_mem_cons.mpr ⟨⟨hne rfl, hdigits⟩, hgroups⟩, ?_⟩
        simp
    · exact .inl h

/-- **What reading groups leaves was after one group or more.** -/
theorem exists_groups (h : afterGroups none false cs = some rest) :
    ∃ groups : List (List Char), groups ≠ [] ∧ (∀ g ∈ groups, IsGroup g) ∧
      cs = groups.flatMap (· ++ [' ']) ++ rest := by
  rcases exists_groups_of_afterGroups h with hdone | ⟨digits, groups, hdigits, hne, hgroups, rfl⟩
  · cases hdone
  · refine ⟨digits :: groups, List.cons_ne_nil _ _,
      List.forall_mem_cons.mpr ⟨⟨hne rfl, hdigits⟩, hgroups⟩, ?_⟩
    simp

end Groups

/-! ## 2. Lines with a mnemonic -/

/-- `m` is the word after the groups of code bytes. -/
def HasMnemonic (m : String) (line : List Char) : Prop :=
  ∃ (c : Columns) (after : List Char), c.groups ≠ [] ∧ c.padding ≠ [] ∧ m.toList ≠ [] ∧
    (∀ x ∈ m.toList, isInk x = true) ∧ Bounds isInk after ∧ line = c.start ++ (m.toList ++ after)

section Lines

variable {line : List Char} {m : String}

/-- The mnemonic is what is read last, each reader going on where the one before it stopped. -/
theorem mnemonic?_eq_some : mnemonic? line = some m ↔
    ∃ address code groups padded word after,
      run isHexDigit (trimStart line) = some (address, ':' :: code) ∧ blanks code = some groups ∧
      afterGroups none false groups = some padded ∧ blanks padded = some word ∧
      run isInk word = some (m.toList, after) := by
  simp only [mnemonic?, Option.bind_eq_bind, Option.bind_eq_some_iff, Option.pure_def,
    Option.some.injEq]
  constructor
  · rintro ⟨⟨address, rest⟩, hrun, code, hcode, groups, hgroups, padded, hpadded, word, hword,
      ⟨w, after⟩, hmnemonic, rfl⟩
    have hrest : rest = ':' :: code := after?_eq_some_iff.mp hcode
    rw [hrest] at hrun
    rw [String.toList_ofList]
    exact ⟨address, code, groups, padded, word, after, hrun, hgroups, hpadded, hword, hmnemonic⟩
  · rintro ⟨address, code, groups, padded, word, after, hrun, hgroups, hpadded, hword, hmnemonic⟩
    exact ⟨(address, ':' :: code), hrun, code, rfl, groups, hgroups, padded, hpadded, word, hword,
      (m.toList, after), hmnemonic, String.ofList_toList⟩

/-- The address is read, whatever blanks are before it. -/
theorem run_address {indent address : List Char} (hindent : ∀ x ∈ indent, isBlank x = true)
    (hne : address ≠ []) (haddress : ∀ x ∈ address, isHexDigit x = true) (code : List Char) :
    run isHexDigit (trimStart (indent ++ ((address ++ [':']) ++ code))) =
      some (address, ':' :: code) := by
  have htrim : trimStart (indent ++ (address ++ ':' :: code)) = address ++ ':' :: code :=
    dropWhile_append_bounds hindent
      (bounds_of_mem hne haddress (fun _ => isBlank_of_isHexDigit) _)
  rw [List.append_assoc, List.singleton_append, htrim]
  exact run_append hne haddress (bounds_cons.mpr (by decide))

theorem HasMnemonic.mnemonic? (h : HasMnemonic m line) : mnemonic? line = some m := by
  obtain ⟨c, after, hgroups, hpadding, hne, hink, hafter, rfl⟩ := h
  have hgroup : ∀ g ∈ c.groups, IsGroup g := fun g hg => ⟨c.groups_ne_nil g hg, c.groups_hex g hg⟩
  have hword : Bounds isBlank (m.toList ++ after) :=
    bounds_of_mem hne hink (fun x hx => by rw [isInk, Bool.not_eq_true'] at hx; exact hx) after
  have hpadded : Bounds isHexDigit (c.padding ++ (m.toList ++ after)) :=
    bounds_of_mem hpadding c.padding_blank (fun _ => isHexDigit_of_isBlank) _
  have hcode : Bounds isBlank
      (c.groups.flatMap (· ++ [' ']) ++ (c.padding ++ (m.toList ++ after))) := by
    obtain ⟨g, gs, hg⟩ := List.exists_cons_of_ne_nil hgroups
    obtain ⟨hgne, hghex⟩ := hgroup g (hg ▸ List.mem_cons_self)
    rw [hg, List.flatMap_cons, List.append_assoc, List.append_assoc]
    exact bounds_of_mem hgne hghex (fun _ => isBlank_of_isHexDigit) _
  refine mnemonic?_eq_some.mpr ⟨c.address, _, _, _, _, after, ?_,
    blanks_append c.gap_ne_nil c.gap_blank hcode,
    afterGroups_groups hgroup hpadded fun hnil => absurd hnil hgroups,
    blanks_append hpadding c.padding_blank hword, run_append hne hink hafter⟩
  simp only [Columns.start, List.append_assoc]
  have hrun := run_address c.indent_blank c.address_ne_nil c.address_hex
    (c.gap ++ (c.groups.flatMap (· ++ [' ']) ++ (c.padding ++ (m.toList ++ after))))
  simp only [List.append_assoc] at hrun
  exact hrun

/-- **The lines that have a mnemonic**: groups of code bytes, one or more, each with its space, then
    blanks, then the mnemonic. -/
theorem mnemonic?_eq_some_iff : mnemonic? line = some m ↔ HasMnemonic m line := by
  refine ⟨fun h => ?_, HasMnemonic.mnemonic?⟩
  obtain ⟨address, code, groups, padded, word, after, hrun, hcode, hgroups, hpadded, hword⟩ :=
    mnemonic?_eq_some.mp h
  obtain ⟨hne, haddress, _, htrim⟩ := run_eq_some hrun
  obtain ⟨gap, hgapne, hgap, rfl⟩ := blanks_eq_some hcode
  obtain ⟨gs, hgsne, hgs, rfl⟩ := exists_groups hgroups
  obtain ⟨padding, hpaddingne, hpadding, rfl⟩ := blanks_eq_some hpadded
  obtain ⟨hmne, hink, hafter, rfl⟩ := run_eq_some hword
  have hline : line = line.takeWhile isBlank ++ trimStart line :=
    (List.takeWhile_append_dropWhile ..).symm
  refine ⟨⟨line.takeWhile isBlank, address, gap, gs, padding, fun x hx => List.mem_takeWhile_imp hx,
    hne, haddress, hgapne, hgap, fun g hg => (hgs g hg).1, fun g hg => (hgs g hg).2, hpadding⟩,
    after, hgsne, hpaddingne, hmne, hink, hafter, ?_⟩
  rw [htrim] at hline
  simpa only [Columns.start, List.append_assoc, List.cons_append, List.nil_append] using hline

end Lines

/-! ## 3. Instructions and what continues them -/

/-- An instruction as it is listed: columns with code bytes, a tab, the mnemonic, and `after` it
    nothing, or a blank and any text. -/
structure Instruction extends Columns where
  mnemonic : List Char
  after : List Char
  groups_some : groups ≠ []
  mnemonic_ne_nil : mnemonic ≠ []
  mnemonic_ink : ∀ x ∈ mnemonic, isInk x = true
  after_bounds : Bounds isInk after

def Instruction.line (k : Instruction) : List Char := k.text (k.mnemonic ++ k.after)

theorem Instruction.hasMnemonic (k : Instruction) :
    HasMnemonic (String.ofList k.mnemonic) k.line := by
  have hpadding : ∀ x ∈ k.padding ++ ['\t'], isBlank x = true := by
    intro x hx
    rcases List.mem_append.mp hx with hx | hx
    · exact k.padding_blank x hx
    · rw [List.mem_singleton.mp hx]
      decide
  refine ⟨{ k.toColumns with padding := k.padding ++ ['\t'], padding_blank := hpadding }, k.after,
    k.groups_some, List.concat_ne_nil _ _, ?_, ?_, k.after_bounds, ?_⟩
  · rw [String.toList_ofList]
    exact k.mnemonic_ne_nil
  · rw [String.toList_ofList]
    exact k.mnemonic_ink
  · simp only [line, Columns.text, Columns.start, String.toList_ofList, List.append_assoc,
      List.cons_append, List.nil_append]

/-- The code bytes of a long instruction that did not fit on its line: groups with one space between
    them, and blanks. -/
structure Continuation where
  indent : List Char
  address : List Char
  gap : List Char
  groups : List (List Char)
  trailing : List Char
  indent_blank : ∀ x ∈ indent, isBlank x = true
  address_ne_nil : address ≠ []
  address_hex : ∀ x ∈ address, isHexDigit x = true
  gap_blank : ∀ x ∈ gap, isBlank x = true
  groups_group : ∀ g ∈ groups, IsGroup g
  trailing_blank : ∀ x ∈ trailing, isBlank x = true

def Continuation.line (k : Continuation) : List Char :=
  k.indent ++ ((k.address ++ [':']) ++ (k.gap ++ ([' '].intercalate k.groups ++ k.trailing)))

section Joined

variable {done : Option (List Char)} {rest trailing : List Char} {groups : List (List Char)}

theorem afterGroups_trailing (htrailing : ∀ x ∈ trailing, isBlank x = true)
    (h : afterGroups done true trailing = some rest) :
    done = some rest ∨ ∀ x ∈ rest, isBlank x = true := by
  cases trailing with
  | nil => exact .inl h
  | cons c trailing =>
    obtain ⟨hc, htrailing⟩ := List.forall_mem_cons.mp htrailing
    rw [afterGroups, if_neg (Bool.eq_false_iff.mp (isHexDigit_of_isBlank hc))] at h
    split at h
    · have hbounds : Bounds isHexDigit trailing := by
        intro x hx
        exact isHexDigit_of_isBlank (htrailing x (List.mem_of_mem_head? hx))
      rw [afterGroups_bounds hbounds] at h
      cases h
      exact .inr htrailing
    · exact .inl h

/-- Groups start with a digit. -/
theorem bounds_joined (hgroups : ∀ g ∈ groups, IsGroup g) (hne : groups ≠ []) (rest : List Char) :
    Bounds isBlank ([' '].intercalate groups ++ rest) := by
  obtain ⟨g, groups, rfl⟩ := List.exists_cons_of_ne_nil hne
  obtain ⟨hgne, hg⟩ := hgroups g List.mem_cons_self
  cases groups with
  | nil =>
    rw [List.intercalate_singleton]
    exact bounds_of_mem hgne hg (fun _ => isBlank_of_isHexDigit) _
  | cons g' groups =>
    rw [List.intercalate_cons_cons, List.append_assoc, List.append_assoc]
    exact bounds_of_mem hgne hg (fun _ => isBlank_of_isHexDigit) _

/-- **Groups alone leave no mnemonic**: after the last one there are blanks, and the one before it
    has no blank after its space. -/
theorem afterGroups_joined (hgroups : ∀ g ∈ groups, IsGroup g)
    (htrailing : ∀ x ∈ trailing, isBlank x = true)
    (h : afterGroups done false ([' '].intercalate groups ++ trailing) = some rest) :
    done = some rest ∨ (∀ x ∈ rest, isBlank x = true) ∨ Bounds isBlank rest := by
  induction groups generalizing done with
  | nil =>
    have hbounds : Bounds isHexDigit trailing := fun x hx =>
      isHexDigit_of_isBlank (htrailing x (List.mem_of_mem_head? hx))
    rw [List.intercalate_nil, List.nil_append, afterGroups_bounds hbounds] at h
    exact .inl h
  | cons g groups ih =>
    obtain ⟨hg, hgroups⟩ := List.forall_mem_cons.mp hgroups
    by_cases hne : groups = []
    · rw [hne, List.intercalate_singleton, afterGroups_digits hg.2 hg.1] at h
      exact (afterGroups_trailing htrailing h).imp_right .inl
    · rw [List.intercalate_cons_of_ne_nil hne, List.append_assoc, List.append_assoc,
        afterGroups_digits hg.2 hg.1, List.singleton_append, afterGroups_space] at h
      rcases ih hgroups h with hdone | hrest
      · -- what follows the space is the next group
        cases hdone
        exact .inr (.inr (bounds_joined hgroups hne trailing))
      · exact .inr hrest

end Joined

theorem Continuation.mnemonic?_line (k : Continuation) : mnemonic? k.line = none := by
  refine Option.eq_none_iff_forall_ne_some.mpr fun m h => ?_
  obtain ⟨address, code, groups, padded, word, after, hrun, hcode, hgroups, hpadded, hword⟩ :=
    mnemonic?_eq_some.mp h
  rw [line, run_address k.indent_blank k.address_ne_nil k.address_hex] at hrun
  cases hrun
  have hjoined : groups = [' '].intercalate k.groups ++ k.trailing ∨ groups = [] := by
    by_cases hne : k.groups = []
    · refine .inr (blanks_of_blank (fun x hx => ?_) hcode)
      rw [hne, List.intercalate_nil, List.nil_append] at hx
      exact (List.mem_append.mp hx).elim (k.gap_blank x) (k.trailing_blank x)
    · have hbounds := bounds_joined k.groups_group hne k.trailing
      by_cases hgap : k.gap = []
      · rw [hgap, List.nil_append, blanks_eq_none hbounds] at hcode
        cases hcode
      · rw [blanks_append hgap k.gap_blank hbounds] at hcode
        cases hcode
        exact .inl rfl
  rcases hjoined with rfl | rfl
  · rcases afterGroups_joined k.groups_group k.trailing_blank hgroups with hnone | hblank | hbounds
    · cases hnone
    · rw [blanks_of_blank hblank hpadded] at hword
      cases hword
    · rw [blanks_eq_none hbounds] at hpadded
      cases hpadded
  · cases hgroups

/-- **The mnemonic column is found on every line of an instruction**, however many groups of code
    bytes and blanks are before it, also where the mnemonic could be a group itself; a line that
    goes on with the code bytes of the one before it has no mnemonic. Altogether, the lines that
    have one are those with the word after the groups. -/
theorem mnemonic_column_exact (k : Instruction) (l : Continuation) (line : List Char) (m : String) :
    mnemonic? k.line = some (String.ofList k.mnemonic) ∧ mnemonic? l.line = none ∧
      (mnemonic? line = some m ↔ HasMnemonic m line) :=
  ⟨k.hasMnemonic.mnemonic?, l.mnemonic?_line, mnemonic?_eq_some_iff⟩

/-- The mnemonic `fadd` could be two code bytes, but no tab is before code bytes. -/
theorem mnemonic_column_exact_fadd :
    mnemonic? "  8:\td8 c1                \tfadd   %st(1),%st".toList = some "fadd" ∧
      mnemonic? "  f:\t00 fadd ".toList = none := by
  have hall : ∀ g : List Char, g.all isHexDigit = true → ∀ x ∈ g, isHexDigit x = true :=
    fun _ => List.all_eq_true.mp
  have h := mnemonic_column_exact
    { indent := "  ".toList
      address := "8".toList
      gap := "\t".toList
      groups := ["d8".toList, "c1".toList]
      padding := "               ".toList
      mnemonic := "fadd".toList
      after := "   %st(1),%st".toList
      indent_blank := List.all_eq_true.mp rfl
      address_ne_nil := List.cons_ne_nil _ _
      address_hex := List.all_eq_true.mp rfl
      gap_ne_nil := List.cons_ne_nil _ _
      gap_blank := List.all_eq_true.mp rfl
      groups_ne_nil := List.forall_mem_cons.mpr ⟨List.cons_ne_nil _ _,
        List.forall_mem_singleton.mpr (List.cons_ne_nil _ _)⟩
      groups_hex := List.forall_mem_cons.mpr
        ⟨hall _ rfl, List.forall_mem_singleton.mpr (hall _ rfl)⟩
      padding_blank := List.all_eq_true.mp rfl
      groups_some := List.cons_ne_nil _ _
      mnemonic_ne_nil := List.cons_ne_nil _ _
      mnemonic_ink := List.all_eq_true.mp rfl
      after_bounds := bounds_cons.mpr (by decide) }
    { indent := "  ".toList
      address := "f".toList
      gap := "\t".toList
      groups := ["00".toList, "fadd".toList]
      trailing := " ".toList
      indent_blank := List.all_eq_true.mp rfl
      address_ne_nil := List.cons_ne_nil _ _
      address_hex := List.all_eq_true.mp rfl
      gap_blank := List.all_eq_true.mp rfl
      groups_group := List.forall_mem_cons.mpr ⟨⟨List.cons_ne_nil _ _, hall _ rfl⟩,
        List.forall_mem_singleton.mpr ⟨List.cons_ne_nil _ _, hall _ rfl⟩⟩
      trailing_blank := List.all_eq_true.mp rfl }
    [] ""
  exact ⟨h.1, h.2.1⟩

end StackDepth.Listing

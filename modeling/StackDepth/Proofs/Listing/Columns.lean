import StackDepth.Listing.Arm
import StackDepth.Proofs.Text.Readers

/-!
# The columns of an instruction line

A line with an instruction starts with columns that are the same in every dialect: an address, the
code bytes in groups, and a tab. What is recognised in such a line is its operation alone.

* `Columns`, `Columns.start`: these columns, and their text;
* `Columns.read_text`: a line with them is no heading and no label;
* `isAside`, `Columnar`: the words of the columns are mnemonics of no dialect;
* `Columnar.mem_ops`, `Columnar.findSome?_ops`: so what has the form of an instruction in the line
  is found in the operation;
* `Worded`: all words of a text are of one class.
-/

namespace StackDepth.Listing

open StackDepth.Text

/-! ## 1. Columns -/

/-- What stands before the operation of an instruction. -/
structure Columns where
  indent : List Char
  address : List Char
  gap : List Char
  /-- The code bytes; each group has a space after it. -/
  groups : List (List Char)
  padding : List Char
  indent_blank : ∀ x ∈ indent, isBlank x = true
  address_ne_nil : address ≠ []
  address_hex : ∀ x ∈ address, isHexDigit x = true
  gap_ne_nil : gap ≠ []
  gap_blank : ∀ x ∈ gap, isBlank x = true
  groups_ne_nil : ∀ g ∈ groups, g ≠ []
  groups_hex : ∀ g ∈ groups, ∀ x ∈ g, isHexDigit x = true
  padding_blank : ∀ x ∈ padding, isBlank x = true

/-- Columns whose groups are bytes, half words and words. -/
structure ByteColumns extends Columns where
  groups_length : ∀ g ∈ groups, g.length = 2 ∨ g.length = 4 ∨ g.length = 8

namespace Columns

variable (c : Columns) {operation : List Char}

/-- The text of the columns. -/
def start : List Char :=
  c.indent ++ ((c.address ++ [':']) ++ (c.gap ++ (c.groups.flatMap (· ++ [' ']) ++ c.padding)))

/-- The columns, a tab and the operation. -/
def text (operation : List Char) : List Char := c.start ++ '\t' :: operation

/-- Columns are written with blanks, digits and a colon. -/
theorem mem_start {x : Char} (hx : x ∈ c.start) :
    isBlank x = true ∨ isHexDigit x = true ∨ x = ':' := by
  simp only [start, List.mem_append, List.mem_flatMap, List.mem_singleton] at hx
  rcases hx with hx | (hx | hx) | hx | ⟨g, hg, hx | hx⟩ | hx
  · exact .inl (c.indent_blank x hx)
  · exact .inr (.inl (c.address_hex x hx))
  · exact .inr (.inr hx)
  · exact .inl (c.gap_blank x hx)
  · exact .inr (.inl (c.groups_hex g hg x hx))
  · rw [hx]
    exact .inl (by decide)
  · exact .inl (c.padding_blank x hx)

end Columns

/-! ## 2. No heading, no label -/

section Headings

variable {line xs ys part : List Char} {x : Char}

/-- A part without `x` stands on one side of it. -/
theorem infix_append_cons (h : part <:+: xs ++ x :: ys) (hx : x ∉ part) :
    part <:+: xs ∨ part <:+: ys := by
  rcases List.infix_append_iff.mp h with h | h | ⟨front, back, rfl, hfront, hback⟩
  · exact .inl h
  · rcases List.infix_cons_iff.mp h with h | h
    · cases part with
      | nil => exact .inr List.nil_infix
      | cons y part =>
        obtain ⟨rfl, _⟩ := List.cons_prefix_cons.mp h
        exact absurd List.mem_cons_self hx
    · exact .inr h
  · cases back with
    | nil =>
      rw [List.append_nil]
      exact .inl hfront.isInfix
    | cons y back =>
      obtain ⟨rfl, _⟩ := List.cons_prefix_cons.mp hback
      exact absurd (List.mem_append_right _ List.mem_cons_self) hx

/-- The words that make a line a file heading. -/
def fileFormat : List Char := "file format ".toList

theorem infix_of_startsFileFormat (h : startsFileFormat line = true) : fileFormat <:+: line := by
  unfold startsFileFormat at h
  split at h
  · rename_i r
    obtain ⟨rest, hrest⟩ := Option.isSome_iff_exists.mp h
    have hprefix : fileFormat <+: r.dropWhile fun c => c == ' ' || c == '\t' :=
      ⟨rest, (after?_eq_some_iff.mp hrest).symm⟩
    have hsuffix : (r.dropWhile fun c => c == ' ' || c == '\t') <:+ ':' :: r :=
      (List.dropWhile_suffix _).trans (List.suffix_cons ':' r)
    exact hprefix.isInfix.trans hsuffix.isInfix
  · cases h

theorem beforeFileFormat_eq_none (h : ¬ fileFormat <:+: line) : beforeFileFormat line = none := by
  induction line with
  | nil => rfl
  | cons x line ih =>
    rw [beforeFileFormat, if_neg (mt infix_of_startsFileFormat h),
      ih fun hline => h (List.infix_cons hline)]
    exact ite_self _

/-- **Without the words `file format` a line is no file heading.** -/
theorem fileHeading?_eq_none (h : ¬ fileFormat <:+: line) : fileHeading? line = none := by
  cases line with
  | nil => rfl
  | cons x line =>
    have hbefore := beforeFileFormat_eq_none fun hline => h (List.infix_cons hline)
    rw [fileHeading?, filePath?, hbefore, Option.map_none, ite_self, Option.map_none]

theorem sectionHeading?_eq_none (h : line.head? ≠ some 'D') : sectionHeading? line = none := by
  have hliteral : literal "Disassembly of section " line = none := by
    refine Option.eq_none_iff_forall_ne_some.mpr fun rest hrest => h ?_
    rw [after?_eq_some_iff.mp hrest]
    rfl
  rw [sectionHeading?, hliteral]
  rfl

end Headings

namespace Columns

variable (c : Columns) {operation : List Char}

theorem head?_text (operation : List Char) : ∃ x, (c.text operation).head? = some x ∧
    (isBlank x = true ∨ isHexDigit x = true) := by
  have h : ∀ rest, ∃ x, (c.indent ++ (c.address ++ rest)).head? = some x ∧
      (isBlank x = true ∨ isHexDigit x = true) := by
    intro rest
    cases hi : c.indent with
    | nil =>
      cases ha : c.address with
      | nil => exact absurd ha c.address_ne_nil
      | cons x xs => exact ⟨x, rfl, .inr (c.address_hex x (ha ▸ List.mem_cons_self))⟩
    | cons x xs => exact ⟨x, rfl, .inl (c.indent_blank x (hi ▸ List.mem_cons_self))⟩
  simp only [text, start, List.append_assoc]
  exact h _

theorem label?_text : label? (c.text operation) = none := by
  have hrun : run isHexDigit (c.text operation) = none ∨
      ∃ rest, run isHexDigit (c.text operation) = some (c.address, ':' :: rest) := by
    simp only [text, start, List.append_assoc, List.singleton_append]
    cases hi : c.indent with
    | nil =>
      refine .inr ⟨_, run_append c.address_ne_nil c.address_hex (bounds_cons.mpr ?_)⟩
      decide
    | cons x xs =>
      refine .inl (run_eq_none (bounds_cons.mpr (Bool.eq_false_iff.mpr fun hx => ?_)))
      have hblank := c.indent_blank x (hi ▸ List.mem_cons_self)
      rw [isBlank_of_isHexDigit hx] at hblank
      cases hblank
  rw [label?]
  rcases hrun with hrun | ⟨rest, hrun⟩
  · rw [hrun]
    rfl
  · rw [hrun]
    rfl

/-- **A line with columns is read as an instruction.** -/
theorem read_text (d : Dialect) (h : ¬ fileFormat <:+: operation) :
    d.read (c.text operation) = d.readCode (trimEnd (d.code (c.text operation))) := by
  have hfile : ¬ fileFormat <:+: c.text operation := by
    intro hline
    rcases infix_append_cons hline (by decide) with hstart | hoperation
    · -- no column has the letter `i`
      rcases c.mem_start (hstart.subset (show 'i' ∈ fileFormat by decide)) with hx | hx | hx
      · exact absurd hx (by decide)
      · exact absurd hx (by decide)
      · exact absurd hx (by decide)
    · exact h hoperation
  have hsection : (c.text operation).head? ≠ some 'D' := by
    obtain ⟨x, hx, hclass⟩ := c.head?_text operation
    rw [hx]
    rintro ⟨rfl⟩
    exact absurd hclass (by decide)
  rw [Dialect.read, fileHeading?_eq_none hfile, sectionHeading?_eq_none hsection, c.label?_text]

end Columns

/-! ## 3. Words that are no mnemonics -/

section Ops

variable {tail rest w : List Char} {x : Char}

/-- The words of a line that no dialect has a mnemonic for: nothing, an address with its colon, a
    symbol in brackets, a group of code bytes. -/
def isAside (w : List Char) : Bool :=
  w.isEmpty || w.getLast? == some ':' || w.head? == some '<' ||
    (w.all isHexDigit && (w.length == 2 || w.length == 4 || w.length == 8))

/-- What is put together from a stem, a condition and a width. -/
def Mnemonic.words (m : Mnemonic) : List (List Char) :=
  m.stems.flatMap fun stem => m.conditions.flatMap fun condition =>
    m.widths.map fun width => stem ++ (condition ++ width)

theorem Mnemonic.has_iff_mem_words (m : Mnemonic) : m.has w = true ↔ w ∈ m.words := by
  rw [has_iff, words]
  simp only [List.mem_flatMap, List.mem_map, @eq_comm _ w]

/-- A class of words that a mnemonic does not meet. -/
theorem Mnemonic.has_eq_false {m : Mnemonic} {p : List Char → Bool}
    (hm : m.words.all (fun w => !p w) = true) (hw : p w = true) : m.has w = false := by
  refine Bool.eq_false_iff.mpr fun h => ?_
  have hnot := List.all_eq_true.mp hm w (m.has_iff_mem_words.mp h)
  rw [hw] at hnot
  cases hnot

theorem any_ops_eq_false {cs : List Char} {p : Op → Bool} (h : ∀ op ∈ ops cs, p op = false) :
    (ops cs).any p = false :=
  List.any_eq_false.mpr fun op hop => Bool.eq_false_iff.mp (h op hop)

theorem ops_cons_blank (hx : isBlank x = true) (cs : List Char) :
    ops (x :: cs) = ⟨cs.takeWhile isInk, cs.dropWhile isInk⟩ :: ops cs := by
  rw [ops, if_pos hx]

theorem ops_append_ink (hw : ∀ x ∈ w, isInk x = true) (rest : List Char) :
    ops (w ++ rest) = ops rest := by
  induction w with
  | nil => rfl
  | cons x w ih =>
    obtain ⟨hx, hw⟩ := List.forall_mem_cons.mp hw
    have hblank : ¬ isBlank x = true := by simpa [isInk] using hx
    rw [List.cons_append, ops, if_neg hblank, ih hw]

/-- One word after a blank. -/
theorem ops_blank_word (hx : isBlank x = true) (hw : ∀ x ∈ w, isInk x = true)
    (hrest : Bounds isInk rest) : ops (x :: (w ++ rest)) = ⟨w, rest⟩ :: ops rest := by
  rw [ops_cons_blank hx, takeWhile_append_bounds hw hrest, dropWhile_append_bounds hw hrest,
    ops_append_ink hw]

/-- `cs` ends with `tail`, and all words before that are no mnemonics. -/
structure Columnar (tail cs : List Char) : Prop where
  ops : ∃ asides, ops cs = asides ++ Listing.ops tail ∧ ∀ op ∈ asides, isAside op.name = true
  word : isAside (cs.takeWhile isInk) = true

theorem Columnar.blank {cs : List Char} (h : Columnar tail cs) (hx : isBlank x = true) :
    Columnar tail (x :: cs) := by
  obtain ⟨asides, hops, hasides⟩ := h.ops
  refine ⟨⟨⟨cs.takeWhile isInk, cs.dropWhile isInk⟩ :: asides, ?_, ?_⟩, ?_⟩
  · rw [ops_cons_blank hx, hops, List.cons_append]
  · exact List.forall_mem_cons.mpr ⟨h.word, hasides⟩
  · rw [List.takeWhile_cons_of_neg (by simpa [isInk] using hx)]
    rfl

theorem Columnar.blanks {cs xs : List Char} (h : Columnar tail cs)
    (hxs : ∀ x ∈ xs, isBlank x = true) : Columnar tail (xs ++ cs) := by
  induction xs with
  | nil => exact h
  | cons x xs ih =>
    obtain ⟨hx, hxs⟩ := List.forall_mem_cons.mp hxs
    exact (ih hxs).blank hx

/-- A word that is no mnemonic. -/
theorem Columnar.aside (h : Columnar tail rest) (hw : ∀ x ∈ w, isInk x = true)
    (haside : isAside w = true) (hrest : Bounds isInk rest) : Columnar tail (w ++ rest) := by
  refine ⟨?_, ?_⟩
  · rw [ops_append_ink hw]
    exact h.ops
  · rw [takeWhile_append_bounds hw hrest]
    exact haside

theorem Columnar.mem_ops {cs : List Char} (h : Columnar tail cs) {op : Op}
    (hop : op ∈ Listing.ops cs) : isAside op.name = true ∨ op ∈ Listing.ops tail := by
  obtain ⟨asides, hops, hasides⟩ := h.ops
  rw [hops, List.mem_append] at hop
  exact hop.imp_left (hasides op)

theorem Columnar.findSome?_ops {α : Type} {cs : List Char} (h : Columnar tail cs)
    {p : Op → Option α} (hp : ∀ op, isAside op.name = true → p op = none) :
    (Listing.ops cs).findSome? p = (Listing.ops tail).findSome? p := by
  obtain ⟨asides, hops, hasides⟩ := h.ops
  have hnone := List.findSome?_eq_none_iff.mpr fun op hop => hp op (hasides op hop)
  rw [hops, List.findSome?_append, hnone, Option.none_or]

/-- The words of `cs` are of the class `p`, also the one that it starts with. -/
structure Worded (p : List Char → Bool) (cs : List Char) : Prop where
  ops : ∀ op ∈ ops cs, p op.name = true
  word : p (cs.takeWhile isInk) = true

theorem worded_nil {p : List Char → Bool} (hp : p [] = true) : Worded p [] := ⟨nofun, hp⟩

theorem Worded.blank {p : List Char → Bool} {cs : List Char} (h : Worded p cs) (hp : p [] = true)
    (hx : isBlank x = true) : Worded p (x :: cs) := by
  constructor
  · rw [ops_cons_blank hx]
    exact List.forall_mem_cons.mpr ⟨h.word, h.ops⟩
  · rw [List.takeWhile_cons_of_neg (by simpa [isInk] using hx)]
    exact hp

theorem Worded.blanks {p : List Char → Bool} {cs xs : List Char} (h : Worded p cs)
    (hp : p [] = true) (hxs : ∀ x ∈ xs, isBlank x = true) : Worded p (xs ++ cs) := by
  induction xs with
  | nil => exact h
  | cons x xs ih =>
    obtain ⟨hx, hxs⟩ := List.forall_mem_cons.mp hxs
    exact (ih hxs).blank hp hx

theorem Worded.cons {p : List Char → Bool} (h : Worded p rest) (hw : ∀ x ∈ w, isInk x = true)
    (hp : p w = true) (hrest : Bounds isInk rest) : Worded p (w ++ rest) := by
  constructor
  · rw [ops_append_ink hw]
    exact h.ops
  · rw [takeWhile_append_bounds hw hrest]
    exact hp

theorem mem_ops_of_blank (front rest : List Char) (hx : isBlank x = true) :
    ⟨rest.takeWhile isInk, rest.dropWhile isInk⟩ ∈ ops (front ++ x :: rest) := by
  induction front with
  | nil =>
    rw [List.nil_append, ops_cons_blank hx]
    exact List.mem_cons_self
  | cons y front ih =>
    rw [List.cons_append, ops]
    split
    · exact List.mem_cons_of_mem _ ih
    · exact ih

/-- The words `file format` are not in a text of which `format` is no word. -/
theorem Worded.not_isFileFormat {p : List Char → Bool} {cs : List Char} (h : Worded p cs)
    (hp : p "format".toList = false) : ¬ fileFormat <:+: cs := by
  rintro ⟨front, back, rfl⟩
  have hsplit : front ++ fileFormat ++ back =
      (front ++ "file".toList) ++ ' ' :: ("format".toList ++ ' ' :: back) := by
    rw [List.append_assoc, List.append_assoc]
    rfl
  have hword : ("format".toList ++ ' ' :: back).takeWhile isInk = "format".toList :=
    takeWhile_append_bounds (List.all_eq_true.mp rfl) (bounds_cons.mpr (by decide))
  have hformat := h.ops _ (hsplit ▸ mem_ops_of_blank _ ("format".toList ++ ' ' :: back) (by decide))
  rw [hword, hp] at hformat
  cases hformat

end Ops

theorem isInk_of_isHexDigit {x : Char} (hx : isHexDigit x = true) : isInk x = true := by
  rw [isInk, isBlank_of_isHexDigit hx]
  rfl

theorem bounds_isInk {cs : List Char} (hne : cs ≠ []) (hcs : ∀ x ∈ cs, isBlank x = true)
    (rest : List Char) : Bounds isInk (cs ++ rest) := by
  cases cs with
  | nil => exact absurd rfl hne
  | cons x cs =>
    rw [List.cons_append, bounds_cons, isInk, hcs x List.mem_cons_self]
    rfl

/-- **The words of the columns are no mnemonics.** -/
theorem ByteColumns.columnar (c : ByteColumns) (operation : List Char) :
    Columnar ('\t' :: operation) (c.text operation) := by
  have htail : Columnar ('\t' :: operation) ('\t' :: operation) :=
    ⟨⟨[], rfl, nofun⟩, rfl⟩
  have hgroups : ∀ gs : List (List Char), (∀ g ∈ gs, g ∈ c.groups) →
      Columnar ('\t' :: operation)
        (gs.flatMap (· ++ [' ']) ++ (c.padding ++ '\t' :: operation)) := by
    intro gs hgs
    induction gs with
    | nil => exact htail.blanks c.padding_blank
    | cons g gs ih =>
      obtain ⟨hg, hgs⟩ := List.forall_mem_cons.mp hgs
      have haside : isAside g = true := by
        have hall := List.all_eq_true.mpr (c.groups_hex g hg)
        rcases c.groups_length g hg with hlen | hlen | hlen
        · simp [isAside, hall, hlen]
        · simp [isAside, hall, hlen]
        · simp [isAside, hall, hlen]
      rw [List.flatMap_cons, List.append_assoc, List.append_assoc]
      refine ((ih hgs).blank (by decide)).aside ?_ haside (bounds_cons.mpr (by decide))
      exact fun x hx => isInk_of_isHexDigit (c.groups_hex g hg x hx)
  have hgap := (hgroups c.groups fun _ hg => hg).blanks c.gap_blank
  have haddress := hgap.aside (w := c.address ++ [':']) ?_ ?_
    (bounds_isInk c.gap_ne_nil c.gap_blank _)
  · have h := haddress.blanks c.indent_blank
    simpa only [Columns.text, Columns.start, List.append_assoc] using h
  · intro x hx
    rcases List.mem_append.mp hx with hx | hx
    · exact isInk_of_isHexDigit (c.address_hex x hx)
    · rw [List.mem_singleton.mp hx]
      decide
  · simp [isAside]

end StackDepth.Listing

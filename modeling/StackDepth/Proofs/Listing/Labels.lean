import Mathlib.Data.List.Induction
import Mathlib.Data.Nat.Digits.Defs
import StackDepth.Proofs.Listing.Columns

/-!
# Labels

A label gives the address of a function and its name. Which lines are labels is said here without
the readers: by the digits of the address and what they denote, and by what makes a line a file
heading.

* `hexValue`, `word?_hexDigits`: what hexadecimal digits denote is what is read off them;
* `IsFileHeading`, `fileHeading?_eq_none_iff`: lines that are file headings;
* `IsLabel`, `label?_eq_some_iff`: lines that have the form of a label;
* `label_classified_iff`: in every dialect a line is read as a label exactly if it has that form and
  is no file heading.
-/

namespace StackDepth.Listing

open StackDepth.Text

variable {line cs ds : List Char}

/-! ## 1. Hexadecimal digits -/

/-- The digits, by their values. -/
def hexDigits : List Char := "0123456789abcdef".toList

/-- The number that digits denote, the most significant first. -/
def hexValue (ds : List Char) : Nat := Nat.ofDigits 16 (ds.reverse.map hexDigits.idxOf)

theorem mem_hexDigits_iff {c : Char} : c ∈ hexDigits ↔ isHexDigit c = true := by
  have hall : ∀ n < 103, isHexDigit (Char.ofNat n) = true → Char.ofNat n ∈ hexDigits := by decide
  constructor
  · exact List.all_eq_true.mp (show hexDigits.all isHexDigit = true from rfl) c
  · intro hc
    have hlt : c.toNat < 103 := by
      rcases isHexDigit_iff.mp hc with h | h <;> omega
    rw [← Char.ofNat_toNat c] at hc ⊢
    exact hall c.toNat hlt hc

theorem digit?_of_mem_hexDigits {c : Char} (hc : c ∈ hexDigits) :
    digit? 16 c = some (hexDigits.idxOf c) := by
  have hall : hexDigits.all (fun c => digit? 16 c == some (hexDigits.idxOf c)) = true := rfl
  exact beq_iff_eq.mp (List.all_eq_true.mp hall c hc)

theorem hexValue_concat (ds : List Char) (c : Char) :
    hexValue (ds ++ [c]) = 16 * hexValue ds + hexDigits.idxOf c := by
  rw [hexValue, List.reverse_concat, List.map_cons, Nat.ofDigits_cons, Nat.add_comm]
  rfl

/-- Zeros before a number count for nothing. -/
theorem hexValue_zeros (zeros : Nat) (ds : List Char) :
    hexValue (List.replicate zeros '0' ++ ds) = hexValue ds := by
  have hzero : hexDigits.idxOf '0' = 0 := rfl
  rw [hexValue, List.reverse_append, List.reverse_replicate, List.map_append, List.map_replicate,
    hzero, Nat.ofDigits_append_replicate_zero]
  rfl

theorem digits?_eq_hexValue (hds : ∀ c ∈ ds, c ∈ hexDigits) :
    digits? 16 ds = some (hexValue ds) := by
  induction ds using List.reverseRecOn with
  | nil => rfl
  | append_singleton ds c ih =>
    have hc := hds c (List.mem_append_right ds List.mem_cons_self)
    rw [digits?_concat, ih fun d hd => hds d (List.mem_append_left _ hd),
      digit?_of_mem_hexDigits hc, hexValue_concat]
    rfl

/-- **What is read off digits is what they denote**, if that fits a word. -/
theorem word?_hexDigits (hne : ds ≠ []) (hds : ∀ c ∈ ds, c ∈ hexDigits) {n : Nat} :
    word? 16 ds = some n ↔ hexValue ds = n ∧ n < wordLimit := by
  rw [word?_of_digits hne fun c hc => mem_hexDigits_iff.mp (hds c hc), digits?_eq_hexValue hds,
    Option.filter_eq_some_iff, Option.some.injEq, decide_eq_true_eq]

theorem hexValue_hex (n : Nat) : hexValue (hex n).toList = n := by
  rw [hex, String.toList_ofList]
  have hds : ∀ c ∈ Nat.toDigits 16 n, c ∈ hexDigits := fun c hc =>
    mem_hexDigits_iff.mpr (isHexDigit_of_mem_toDigits (by decide) (by decide) hc)
  have h : digits? 16 (Nat.toDigits 16 n) = some n := digits?_toDigits (by decide) (by decide) n
  exact Option.some.inj ((digits?_eq_hexValue hds).symm.trans h)

/-! ## 2. File headings -/

/-- Somewhere after the first character of the line there are a colon, spaces or tabs, and the words
    `file format`. -/
def IsFileHeading (line : List Char) : Prop :=
  ∃ path gap rest, path ≠ [] ∧ (∀ x ∈ gap, x = ' ' ∨ x = '\t') ∧
    line = path ++ ':' :: (gap ++ (fileFormat ++ rest))

theorem IsFileHeading.isInfix (h : IsFileHeading line) : fileFormat <:+: line := by
  obtain ⟨path, gap, rest, _, _, rfl⟩ := h
  exact ⟨path ++ ':' :: gap, rest, by simp⟩

theorem startsFileFormat_iff : startsFileFormat cs = true ↔
    ∃ gap rest, (∀ x ∈ gap, x = ' ' ∨ x = '\t') ∧ cs = ':' :: (gap ++ (fileFormat ++ rest)) := by
  have hgap : ∀ x : Char, (x == ' ' || x == '\t') = true ↔ x = ' ' ∨ x = '\t' := by
    intro x
    rw [Bool.or_eq_true, beq_iff_eq, beq_iff_eq]
  constructor
  · intro h
    unfold startsFileFormat at h
    split at h
    · rename_i r
      obtain ⟨rest, hrest⟩ := Option.isSome_iff_exists.mp h
      refine ⟨r.takeWhile fun c => c == ' ' || c == '\t', rest, fun x hx => ?_, ?_⟩
      · have hx := List.mem_takeWhile_imp hx
        exact (hgap x).mp hx
      · have hfound : r.dropWhile (fun c => c == ' ' || c == '\t') = fileFormat ++ rest :=
          after?_eq_some_iff.mp hrest
        rw [← hfound, List.takeWhile_append_dropWhile]
    · cases h
  · rintro ⟨gap, rest, hall, rfl⟩
    have hdrop : (gap ++ (fileFormat ++ rest)).dropWhile (fun c => c == ' ' || c == '\t') =
        fileFormat ++ rest :=
      dropWhile_append_bounds (fun x hx => (hgap x).mpr (hall x hx)) (bounds_cons.mpr (by decide))
    have hliteral : literal "file format " (fileFormat ++ rest) = some rest :=
      after?_append fileFormat rest
    rw [startsFileFormat, hdrop, hliteral]
    rfl

theorem beforeFileFormat_eq_none_iff (hline : '\n' ∉ cs) : beforeFileFormat cs = none ↔
    ∀ front rest, cs = front ++ rest → startsFileFormat rest = false := by
  induction cs with
  | nil =>
    refine iff_of_true rfl fun front rest h => ?_
    obtain ⟨rfl, rfl⟩ := List.append_eq_nil_iff.mp h.symm
    rfl
  | cons c cs ih =>
    obtain ⟨hc, hcs⟩ := not_or.mp (mt List.mem_cons.mpr hline)
    have hne : ¬ (c == '\n') = true := fun h => hc (beq_iff_eq.mp h).symm
    rw [beforeFileFormat, if_neg hne]
    by_cases hstart : startsFileFormat (c :: cs) = true
    · rw [if_pos hstart]
      refine iff_of_false (Option.some_ne_none _) fun h => ?_
      rw [h [] (c :: cs) rfl] at hstart
      cases hstart
    · rw [if_neg hstart, Option.map_eq_none_iff, ih hcs]
      constructor
      · intro h front rest hsplit
        cases front with
        | nil =>
          rw [List.nil_append] at hsplit
          rw [← hsplit]
          exact Bool.eq_false_iff.mpr hstart
        | cons d front => exact h front rest (List.cons.inj hsplit).2
      · intro h front rest hsplit
        exact h (c :: front) rest (congrArg (c :: ·) hsplit)

/-- **A line is a file heading exactly if it is read as one**, if it is one line. -/
theorem fileHeading?_eq_none_iff (hline : '\n' ∉ line) :
    fileHeading? line = none ↔ ¬ IsFileHeading line := by
  cases line with
  | nil =>
    refine iff_of_true rfl fun h => ?_
    obtain ⟨path, gap, rest, hpath, _, h⟩ := h
    exact hpath (List.append_eq_nil_iff.mp h.symm).1
  | cons c cs =>
    obtain ⟨hc, hcs⟩ := not_or.mp (mt List.mem_cons.mpr hline)
    have hne : ¬ (c == '\n') = true := fun h => hc (beq_iff_eq.mp h).symm
    rw [fileHeading?, filePath?, if_neg hne, Option.map_eq_none_iff, Option.map_eq_none_iff,
      beforeFileFormat_eq_none_iff hcs]
    constructor
    · rintro h ⟨path, gap, rest, hpath, hgap, hsplit⟩
      obtain ⟨d, front, rfl⟩ := List.exists_cons_of_ne_nil hpath
      have hnot := h front _ (List.cons.inj hsplit).2
      rw [startsFileFormat_iff.mpr ⟨gap, rest, hgap, rfl⟩] at hnot
      cases hnot
    · intro h front rest hsplit
      refine Bool.eq_false_iff.mpr fun hstart => h ?_
      obtain ⟨gap, after, hgap, rfl⟩ := startsFileFormat_iff.mp hstart
      exact ⟨c :: front, gap, after, List.cons_ne_nil c front, hgap, congrArg (c :: ·) hsplit⟩

theorem exists_of_beforeFileFormat {path : List Char} (h : beforeFileFormat cs = some path) :
    ∃ front rest, cs = front ++ rest ∧ startsFileFormat rest = true := by
  induction cs generalizing path with
  | nil => cases h
  | cons c cs ih =>
    rw [beforeFileFormat] at h
    split at h
    · rename_i hstart
      exact ⟨[], c :: cs, rfl, hstart⟩
    split at h
    · cases h
    · obtain ⟨tail, htail, _⟩ := Option.map_eq_some_iff.mp h
      obtain ⟨front, rest, rfl, hstart⟩ := ih htail
      exact ⟨c :: front, rest, rfl, hstart⟩

/-- What is read as a file heading is one, also where the text has line ends in it. -/
theorem isFileHeading_of_fileHeading? {file : String} (h : fileHeading? line = some file) :
    IsFileHeading line := by
  obtain ⟨path, hpath, _⟩ := Option.map_eq_some_iff.mp h
  unfold filePath? at hpath
  split at hpath
  · cases hpath
  · rename_i c cs
    split at hpath
    · cases hpath
    · obtain ⟨tail, htail, _⟩ := Option.map_eq_some_iff.mp hpath
      obtain ⟨front, rest, rfl, hstart⟩ := exists_of_beforeFileFormat htail
      obtain ⟨gap, after, hgap, rfl⟩ := startsFileFormat_iff.mp hstart
      exact ⟨c :: front, gap, after, List.cons_ne_nil c front, hgap, rfl⟩

/-! ## 3. Labels -/

/-- The line has the form of a label. -/
def IsLabel (address : Nat) (name : String) (line : List Char) : Prop :=
  ∃ digits : List Char, digits ≠ [] ∧ (∀ c ∈ digits, c ∈ hexDigits) ∧ hexValue digits = address ∧
    address < wordLimit ∧ '\n' ∉ name.toList ∧
    line = digits ++ (" <".toList ++ (name.toList ++ ">:".toList))

variable {address : Nat} {name : String}

theorem bracketed?_eq_some_iff {close : String} {symbol : List Char} :
    bracketed? close cs = some symbol ↔
      cs = '<' :: (symbol ++ close.toList) ∧ '\n' ∉ symbol := by
  have hsymbol : ∀ found : List Char,
      (if found.contains '\n' then none else some found) = some symbol ↔
        found = symbol ∧ '\n' ∉ symbol := by
    intro found
    by_cases h : found.contains '\n' = true
    · rw [if_pos h]
      refine iff_of_false nofun ?_
      rintro ⟨rfl, hnot⟩
      exact hnot (List.contains_iff_mem.mp h)
    · rw [if_neg h, Option.some.injEq]
      refine ⟨?_, And.left⟩
      rintro rfl
      exact ⟨rfl, mt List.contains_iff_mem.mpr h⟩
  simp only [bracketed?, Option.bind_eq_bind, Option.bind_eq_some_iff, hsymbol]
  constructor
  · rintro ⟨rest, hrest, found, hfound, rfl, hline⟩
    refine ⟨?_, hline⟩
    rw [← before?_eq_some_iff.mp hfound]
    exact after?_eq_some_iff.mp hrest
  · rintro ⟨rfl, hline⟩
    exact ⟨symbol ++ close.toList, rfl, symbol, before?_eq_some_iff.mpr rfl, rfl, hline⟩

theorem run_isHexDigit (h : run isHexDigit cs = some (ds, line)) :
    ds ≠ [] ∧ (∀ c ∈ ds, c ∈ hexDigits) ∧ cs = ds ++ line := by
  obtain ⟨hne, hdigits, _, hcs⟩ := run_eq_some h
  exact ⟨hne, fun c hc => mem_hexDigits_iff.mpr (hdigits c hc), hcs⟩

/-- **The lines that are read as labels**, if nothing else is tried before. -/
theorem label?_eq_some_iff : label? line = some (address, name) ↔ IsLabel address name line := by
  simp only [label?, Option.bind_eq_bind, Option.bind_eq_some_iff, Option.pure_def,
    Option.some.injEq]
  constructor
  · rintro ⟨⟨digits, rest⟩, hrun, after, hafter, symbol, hsymbol, value, hvalue, e⟩
    cases e
    obtain ⟨hne, hdigits, rfl⟩ := run_isHexDigit hrun
    obtain ⟨rfl, hline⟩ := bracketed?_eq_some_iff.mp hsymbol
    obtain ⟨heq, hlt⟩ := (word?_hexDigits hne hdigits).mp hvalue
    have hrest : rest = " ".toList ++ '<' :: (symbol ++ ">:".toList) := after?_eq_some_iff.mp hafter
    have hname : (String.ofList symbol).toList = symbol := String.toList_ofList
    refine ⟨digits, hne, hdigits, heq, hlt, ?_, ?_⟩
    · rw [hname]
      exact hline
    · rw [hname, hrest]
      rfl
  · rintro ⟨digits, hne, hdigits, heq, hlt, hline, rfl⟩
    refine ⟨(digits, " <".toList ++ (name.toList ++ ">:".toList)), ?_,
      '<' :: (name.toList ++ ">:".toList), rfl, name.toList,
      bracketed?_eq_some_iff.mpr ⟨rfl, hline⟩, address,
      (word?_hexDigits hne hdigits).mpr ⟨heq, hlt⟩, by rw [String.ofList_toList]⟩
    exact run_append hne (fun c hc => mem_hexDigits_iff.mp (hdigits c hc))
      (bounds_cons.mpr (by decide))

/-- A label has no line end in it, and starts with a digit. -/
theorem IsLabel.isOneLine (h : IsLabel address name line) :
    '\n' ∉ line ∧ line.head? ≠ some 'D' := by
  obtain ⟨digits, hne, hdigits, _, _, hname, rfl⟩ := h
  constructor
  · simp only [List.mem_append]
    rintro (h | h | h | h)
    · exact absurd (hdigits _ h) (by decide)
    · exact absurd h (by decide)
    · exact hname h
    · exact absurd h (by decide)
  · obtain ⟨d, ds, rfl⟩ := List.exists_cons_of_ne_nil hne
    rintro ⟨rfl⟩
    exact absurd (hdigits 'D' List.mem_cons_self) (by decide)

/-! ## 4. Every dialect -/

/-- No instruction is a label. -/
theorem Dialect.readCode_ne_label (d : Dialect) (code : List Char) :
    (d.readCode code).line ≠ .label address name := by
  unfold Dialect.readCode
  split
  · exact nofun
  split
  · split
    · exact nofun
    · exact nofun
  split
  · exact nofun
  split
  · exact nofun
  split
  · exact nofun
  split
  · exact nofun
  · exact nofun

theorem Dialect.classify_eq_label_iff (d : Dialect) : d.classify line = .label address name ↔
    fileHeading? line = none ∧ sectionHeading? line = none ∧
      label? line = some (address, name) := by
  unfold Dialect.classify Dialect.read
  cases hfile : fileHeading? line with
  | some file => exact iff_of_false nofun nofun
  | none =>
    cases hsection : sectionHeading? line with
    | some text => exact iff_of_false nofun nofun
    | none =>
      cases hlabel : label? line with
      | none => exact iff_of_false (d.readCode_ne_label _) nofun
      | some found =>
        obtain ⟨x, symbol⟩ := found
        simp only [Line.label.injEq, true_and, Option.some.injEq, Prod.mk.injEq]

/-- A label is no file heading unless its name has the words `file format` in it. -/
theorem IsLabel.not_isFileHeading (h : IsLabel address name line)
    (hname : ¬ fileFormat <:+: name.toList) : ¬ IsFileHeading line := by
  intro hfile
  obtain ⟨digits, _, hdigits, _, _, _, rfl⟩ := h
  have hsplit : digits ++ (" <".toList ++ (name.toList ++ ">:".toList)) =
      (digits ++ [' ']) ++ '<' :: (name.toList ++ '>' :: [':']) := by
    simp
  have hinfix := hfile.isInfix
  rw [hsplit] at hinfix
  rcases infix_append_cons hinfix (by decide) with hin | hin
  · -- no digit is the letter `i`
    have hi : 'i' ∈ digits ++ [' '] := hin.subset (by decide)
    rcases List.mem_append.mp hi with hi | hi
    · exact absurd (hdigits 'i' hi) (by decide)
    · exact absurd hi (by decide)
  · rcases infix_append_cons hin (by decide) with hin | hin
    · exact hname hin
    · exact absurd (hin.subset (show 'i' ∈ fileFormat by decide)) (by decide)

/-- The label of an address, with some zeros before its digits. -/
def labelText (zeros address : Nat) (name : String) : List Char :=
  List.replicate zeros '0' ++
    ((hex address).toList ++ (" <".toList ++ (name.toList ++ ">:".toList)))

theorem isLabel_labelText (zeros : Nat) (haddress : address < wordLimit)
    (hline : '\n' ∉ name.toList) : IsLabel address name (labelText zeros address name) := by
  refine ⟨List.replicate zeros '0' ++ (hex address).toList, ?_, ?_, ?_, haddress, hline, ?_⟩
  · rw [hex, String.toList_ofList]
    exact List.append_ne_nil_of_right_ne_nil _ (toDigits_ne_nil (by decide))
  · intro c hc
    rcases List.mem_append.mp hc with hc | hc
    · rw [List.eq_of_mem_replicate hc]
      decide
    · rw [hex, String.toList_ofList] at hc
      exact mem_hexDigits_iff.mpr (isHexDigit_of_mem_toDigits (by decide) (by decide) hc)
  · rw [hexValue_zeros, hexValue_hex]
  · rw [labelText, List.append_assoc]

/-- **Labels are recognised by exactly their grammar**, in every dialect: hexadecimal digits of a
    64-bit address, and a name without a line end in brackets, on a line that is no file heading. So
    a label that is written for an address and a name gives both back, whatever zeros are before the
    address. -/
theorem label_classified_iff (t : Target) (line : List Char) (address : Nat) (name : String) :
    ((Dialect.of t).classify line = .label address name ↔
        IsLabel address name line ∧ ¬ IsFileHeading line) ∧
      (address < wordLimit → '\n' ∉ name.toList → ¬ fileFormat <:+: name.toList →
        ∀ zeros, (Dialect.of t).classify (labelText zeros address name) = .label address name) := by
  have hiff : ∀ line, (Dialect.of t).classify line = .label address name ↔
      IsLabel address name line ∧ ¬ IsFileHeading line := by
    intro line
    rw [Dialect.classify_eq_label_iff, label?_eq_some_iff]
    constructor
    · rintro ⟨hfile, _, hlabel⟩
      exact ⟨hlabel, (fileHeading?_eq_none_iff hlabel.isOneLine.1).mp hfile⟩
    · rintro ⟨hlabel, hfile⟩
      exact ⟨(fileHeading?_eq_none_iff hlabel.isOneLine.1).mpr hfile,
        sectionHeading?_eq_none hlabel.isOneLine.2, hlabel⟩
  refine ⟨hiff line, fun haddress hline hname zeros => ?_⟩
  have hlabel := isLabel_labelText zeros haddress hline
  exact (hiff _).mpr ⟨hlabel, hlabel.not_isFileHeading hname⟩

/-- A name may have all of the marks of a label in it, but not those of a file heading. -/
theorem label_classified_nested :
    (Dialect.of .arm).classify "000000000040076d <<T as U>::f>:>:".toList =
        .label 0x40076d "<T as U>::f>:" ∧
      (Dialect.of .arm).classify "1 <a:\tfile format b>:".toList ≠
        .label 1 "a:\tfile format b" := by
  refine ⟨(label_classified_iff .arm [] 0x40076d "<T as U>::f>:").2 (by decide) (by decide) ?_ 10,
    fun h => ?_⟩
  · exact fun h => absurd (h.subset (show 'i' ∈ fileFormat by decide)) (by decide)
  · refine ((label_classified_iff .arm _ 1 "a:\tfile format b").1.mp h).2 ?_
    exact ⟨"1 <a".toList, ['\t'], "b>:".toList, by decide, by simp, rfl⟩

end StackDepth.Listing

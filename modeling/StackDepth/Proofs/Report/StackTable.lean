import StackDepth.Proofs.CallGraph.WellFormed
import StackDepth.Proofs.Text.Readers
import StackDepth.Report.Table

/-!
# The stack table

What a reader of the table relies on, of any survey: every regarded function has its row, the rows
are in order, and the columns are straight, whatever characters the names are written with.

* `width_eq`: digits are counted as they are written;
* `length_le_utf8ByteSize`: a width in bytes has room for the characters;
* `pairwise_mergeSort_key`: sorting by one key keeps the order among equal keys;
* `Columns.Within`, `need_within_foldl`: the columns have room for every cell;
* `Cells`: a line of the table by its cells;
* `table_sorted_and_aligned`: the rows are those of the regarded functions, in order, and all lines
  are equally long.
-/

namespace StackDepth.Text

/-! ## 1. Cells -/

/-- **The digits are counted as they are written.** -/
theorem width_eq {base : Nat} (hone : 1 < base) (n : Nat) :
    width base n = (Nat.toDigits base n).length := by
  induction n using Nat.strong_induction_on with
  | _ n ih =>
    rw [width]
    by_cases hn : base ≤ n
    · rw [if_pos ⟨hone, hn⟩, Nat.toDigits_of_base_le hone hn, List.length_append,
        ih (n / base) (Nat.div_lt_self (by omega) hone), List.length_singleton]
    · rw [if_neg fun h => hn h.2, Nat.toDigits_of_lt_base (by omega)]
      rfl

theorem length_decimal (n : Nat) : (decimal n).length = width 10 n := by
  rw [width_eq (by decide), decimal, String.length_ofList]

theorem length_hex (n : Nat) : (hex n).length = width 16 n := by
  rw [width_eq (by decide), hex, String.length_ofList]

theorem length_fill (c : Char) (n : Nat) : (fill c n).length = n := by
  rw [fill, String.length_ofList, List.length_replicate]

theorem length_alignLeft {w : Nat} {s : String} (h : s.length ≤ w) :
    (alignLeft w s).length = w := by
  rw [alignLeft, String.length_append, length_fill]
  omega

theorem length_alignRight {w : Nat} {s : String} (h : s.length ≤ w) :
    (alignRight w s).length = w := by
  rw [alignRight, String.length_append, length_fill]
  omega

theorem length_alignAddress {w n : Nat} (h : width 16 n + 2 ≤ w) :
    (alignAddress w n).length = w := by
  have hprefix : "0x".length = 2 := rfl
  rw [alignAddress, hexAddress, String.length_append, String.length_append, String.length_append,
    length_fill, length_hex, hprefix]
  omega

/-- **A text has no more characters than bytes.** -/
theorem length_le_utf8ByteSize (s : String) : s.length ≤ s.utf8ByteSize := by
  induction s using String.push_induction with
  | empty => exact Nat.zero_le _
  | push b c ih =>
    have hc := c.utf8Size_pos
    rw [String.length_push, String.utf8ByteSize_push]
    omega

/-- The last character is there and is no blank. -/
def EndsInk (s : String) : Prop := ∃ before x, s.toList = before ++ [x] ∧ isBlank x = false

theorem EndsInk.append {s : String} (h : EndsInk s) (before : String) : EndsInk (before ++ s) := by
  obtain ⟨chars, x, hs, hx⟩ := h
  refine ⟨before.toList ++ chars, x, ?_, hx⟩
  rw [String.toList_append, hs, List.append_assoc]

theorem endsInk_decimal (n : Nat) : EndsInk (decimal n) := by
  have hne : Nat.toDigits 10 n ≠ [] := toDigits_ne_nil (by decide)
  refine ⟨(Nat.toDigits 10 n).dropLast, (Nat.toDigits 10 n).getLast hne, ?_, ?_⟩
  · rw [decimal, String.toList_ofList, List.dropLast_concat_getLast]
  · exact isBlank_of_isHexDigit
      (isHexDigit_of_mem_toDigits (by decide) (by decide) (List.getLast_mem hne))

theorem endsInk_bound (b : Bound) : EndsInk b.text := by
  cases b with
  | exact n => exact endsInk_decimal n
  | atLeast n => exact (endsInk_decimal n).append ">"

/-- **Nothing is cut off a row that ends with ink.** -/
theorem row_eq {s : String} (h : EndsInk s) : row s = s ++ "\n" := by
  obtain ⟨before, x, hs, hx⟩ := h
  rw [row, hs, trimEnd_concat hx, ← hs, String.ofList_toList]

end StackDepth.Text

namespace StackDepth

/-! ## 2. Order -/

/-- **Sorting by a key is stable**: what is in order stays so among equal keys. -/
theorem pairwise_mergeSort_key {α : Type} {R : α → α → Prop} (key : α → Nat) {l : List α}
    (h : l.Pairwise R) : (l.mergeSort fun a b => decide (key b ≤ key a)).Pairwise
      fun a b => key b < key a ∨ key a = key b ∧ R a b := by
  have htrans : ∀ a b c : α, decide (key b ≤ key a) = true → decide (key c ≤ key b) = true →
      decide (key c ≤ key a) = true := by
    simp only [decide_eq_true_eq]
    intro a b c hab hbc
    exact Nat.le_trans hbc hab
  have htotal : ∀ a b : α, (decide (key b ≤ key a) || decide (key a ≤ key b)) = true := by
    intro a b
    simpa using Nat.le_total (key b) (key a)
  -- the elements of one key are those of the list, in its order
  have hsame : ∀ k, (l.mergeSort fun a b => decide (key b ≤ key a)).filter (key · == k) =
      l.filter (key · == k) := by
    intro k
    have hpairwise : (l.filter (key · == k)).Pairwise fun a b => decide (key b ≤ key a) = true := by
      refine List.pairwise_of_forall_mem_list fun a ha b hb => ?_
      have ha := beq_iff_eq.mp (List.mem_filter.mp ha).2
      have hb := beq_iff_eq.mp (List.mem_filter.mp hb).2
      rw [ha, hb]
      exact decide_eq_true (Nat.le_refl k)
    have hsublist := (List.sublist_mergeSort htrans htotal hpairwise List.filter_sublist).filter
      (key · == k)
    rw [List.filter_filter] at hsublist
    simp only [Bool.and_self] at hsublist
    exact (hsublist.eq_of_length ((List.mergeSort_perm l _).filter _).length_eq.symm).symm
  refine List.pairwise_iff_forall_sublist.mpr fun {a b} hab => ?_
  have hle : key b ≤ key a := of_decide_eq_true
    (List.pairwise_iff_forall_sublist.mp (List.pairwise_mergeSort htrans htotal l) hab)
  rcases Nat.lt_or_eq_of_le hle with hlt | heq
  · exact .inl hlt
  · refine .inr ⟨heq.symm, List.pairwise_iff_forall_sublist.mp h ?_⟩
    have hkept := hab.filter (key · == key a)
    rw [hsame] at hkept
    simp only [List.filter_cons, heq, beq_self_eq_true, if_true, List.filter_nil] at hkept
    exact hkept.trans List.filter_sublist

namespace Survey

variable (s : Survey)

/-- The functions that the policy regards, by slot. -/
def regarded : List Function :=
  (s.graph.functionNodes.filterMap s.graph.function?).filter s.policy.regards

theorem deepestFirst_perm :
    (s.deepestFirst.filter s.policy.regards).Perm s.regarded :=
  (((List.mergeSort_perm _ _).trans ((List.mergeSort_perm _ _).filterMap _)).filter _)

theorem pairwise_address_functions : (s.graph.functions.filterMap s.graph.function?).Pairwise
    fun f g => f.address ≤ g.address := by
  refine CallGraph.functions_pairwise_address.filterMap _ fun m n hmn f hf g hg => ?_
  simp only [CallGraph.address, hf, hg, Option.map_some, Option.getD_some] at hmn
  exact hmn

/-- The deepest first, and by address among equally deep ones. -/
theorem pairwise_deepestFirst : s.deepestFirst.Pairwise
    fun f g => g.total < f.total ∨ f.total = g.total ∧ f.address ≤ g.address :=
  pairwise_mergeSort_key (·.total) s.pairwise_address_functions

end Survey

namespace Report

open StackDepth.Text

/-! ## 3. Columns with room for their cells -/

namespace Columns

/-- No column of `v` is wider than that of `w`. -/
structure Within (v w : Columns) : Prop where
  address : v.address ≤ w.address
  name : v.name ≤ w.name
  sectionName : v.sectionName ≤ w.sectionName
  file : v.file ≤ w.file
  size : v.size ≤ w.size
  total : v.total ≤ w.total

/-- The characters of a line. -/
def lineLength (w : Columns) (style : TableStyle) : Nat :=
  w.address + 1 + w.name + 2 + (if style.sections then w.sectionName + 1 else 0) + w.file + 2 +
    w.size + 1 + w.total

/-- The room that the cells of `f` take. -/
def need (f : Function) : Columns where
  address := width 16 f.address + 2
  name := f.name.length
  sectionName := (f.sectionName.getD "").utf8ByteSize
  file := (f.file.getD "").utf8ByteSize
  size := width 10 f.size
  total := f.bound.text.length

variable {v w : Columns} {f : Function}

theorem within_refl : w.Within w := by constructor <;> exact Nat.le_refl _

theorem Within.widen (h : v.Within w) (f : Function) : v.Within (w.widen f) where
  address := Nat.le_trans h.address (Nat.le_max_left ..)
  name := Nat.le_trans h.name (Nat.le_max_left ..)
  sectionName := Nat.le_trans h.sectionName (Nat.le_max_left ..)
  file := Nat.le_trans h.file (Nat.le_max_left ..)
  size := Nat.le_trans h.size (Nat.le_max_left ..)
  total := Nat.le_trans h.total (Nat.le_max_left ..)

theorem need_within_widen (w : Columns) (f : Function) : (need f).Within (w.widen f) := by
  constructor <;> exact Nat.le_max_right ..

theorem Within.foldl (h : v.Within w) (fs : List Function) :
    v.Within (fs.foldl Columns.widen w) := by
  induction fs generalizing w with
  | nil => exact h
  | cons f fs ih => exact ih (h.widen f)

theorem need_within_foldl {fs : List Function} (hf : f ∈ fs) :
    (need f).Within (fs.foldl Columns.widen w) := by
  induction fs generalizing w with
  | nil => cases hf
  | cons g fs ih =>
    rcases List.mem_cons.mp hf with rfl | hf
    · exact (need_within_widen w f).foldl fs
    · exact ih hf

end Columns

/-! ## 4. Lines by their cells -/

/-- The cells of a line. -/
structure Cells where
  address : String
  name : String
  sectionName : String
  file : String
  size : String
  total : String

namespace Cells

/-- The cells with the spaces between them. -/
def text (style : TableStyle) (c : Cells) : String :=
  c.address ++ " " ++ c.name ++ "  " ++ (if style.sections then c.sectionName ++ " " else "") ++
    c.file ++ "  " ++ c.size ++ " " ++ c.total

/-- Every cell fills its column. -/
structure Fill (w : Columns) (c : Cells) : Prop where
  address : c.address.length = w.address
  name : c.name.length = w.name
  sectionName : c.sectionName.length = w.sectionName
  file : c.file.length = w.file
  size : c.size.length = w.size
  total : c.total.length = w.total

/-- The cells show `f`: texts at the left edge, numbers at the right, and the address with zeros
    after its `0x`. -/
structure Show (f : Function) (c : Cells) : Prop where
  address : ∃ n, c.address = "0x" ++ fill '0' n ++ hex f.address
  name : ∃ n, c.name = f.name ++ fill ' ' n
  sectionName : ∃ n, c.sectionName = f.sectionName.getD "" ++ fill ' ' n
  file : ∃ n, c.file = f.file.getD "" ++ fill ' ' n
  size : ∃ n, c.size = fill ' ' n ++ decimal f.size
  total : ∃ n, c.total = fill ' ' n ++ f.bound.text

/-- The cells are the titles, at the edges at which the cells below them are. -/
structure Title (c : Cells) : Prop where
  address : ∃ n, c.address = fill ' ' n ++ "address"
  name : ∃ n, c.name = "function" ++ fill ' ' n
  sectionName : ∃ n, c.sectionName = "section" ++ fill ' ' n
  file : ∃ n, c.file = "file" ++ fill ' ' n
  size : ∃ n, c.size = fill ' ' n ++ "fsize"
  total : ∃ n, c.total = fill ' ' n ++ "tsize"

theorem length_text (style : TableStyle) {w : Columns} {c : Cells} (h : c.Fill w) :
    (c.text style).length = w.lineLength style := by
  have hone : " ".length = 1 := rfl
  have htwo : "  ".length = 2 := rfl
  have hnone : "".length = 0 := rfl
  unfold text Columns.lineLength
  split
  all_goals
    simp only [String.length_append, hone, htwo, hnone, h.address, h.name, h.sectionName, h.file,
      h.size, h.total]

/-- The cells of `f` in columns of the widths `w`. -/
def of (w : Columns) (f : Function) : Cells where
  address := alignAddress w.address f.address
  name := alignLeft w.name f.name
  sectionName := alignLeft w.sectionName (f.sectionName.getD "")
  file := alignLeft w.file (f.file.getD "")
  size := alignRight w.size (decimal f.size)
  total := alignRight w.total f.bound.text

/-- The titles in columns of the widths `w`. -/
def titles (w : Columns) : Cells where
  address := alignRight w.address "address"
  name := alignLeft w.name "function"
  sectionName := alignLeft w.sectionName "section"
  file := alignLeft w.file "file"
  size := alignRight w.size "fsize"
  total := alignRight w.total "tsize"

theorem show_of (w : Columns) (f : Function) : (of w f).Show f where
  address := ⟨_, rfl⟩
  name := ⟨_, rfl⟩
  sectionName := ⟨_, rfl⟩
  file := ⟨_, rfl⟩
  size := ⟨_, rfl⟩
  total := ⟨_, rfl⟩

theorem title_titles (w : Columns) : (titles w).Title where
  address := ⟨_, rfl⟩
  name := ⟨_, rfl⟩
  sectionName := ⟨_, rfl⟩
  file := ⟨_, rfl⟩
  size := ⟨_, rfl⟩
  total := ⟨_, rfl⟩

/-- **Cells fill columns that have room for them.** Sections and files have room by their bytes. -/
theorem fill_of {w : Columns} {f : Function} (h : (Columns.need f).Within w) : (of w f).Fill w where
  address := length_alignAddress h.address
  name := length_alignLeft h.name
  sectionName := length_alignLeft (Nat.le_trans (length_le_utf8ByteSize _) h.sectionName)
  file := length_alignLeft (Nat.le_trans (length_le_utf8ByteSize _) h.file)
  size := length_alignRight ((length_decimal f.size).trans_le h.size)
  total := length_alignRight h.total

theorem fill_titles {w : Columns} {style : TableStyle} (hheader : style.header = true)
    (h : (Columns.least style).Within w) : (titles w).Fill w := by
  obtain ⟨address, name, sectionName, file, size, total⟩ := h
  simp only [Columns.least, hheader, if_true] at address name sectionName file size total
  exact ⟨length_alignRight address, length_alignLeft name, length_alignLeft sectionName,
    length_alignLeft file, length_alignRight size, length_alignRight total⟩

end Cells

/-! ## 5. The table -/

section Rows

variable (w : Columns) (style : TableStyle)

/-- A row is its cells, and nothing of them is cut off. -/
theorem tableRow_eq (address name sectionName file size : String) {total : String}
    (htotal : EndsInk total) : tableRow w style address name sectionName file size total =
      Cells.text style ⟨address, alignLeft w.name name, alignLeft w.sectionName sectionName,
        alignLeft w.file file, alignRight w.size size, alignRight w.total total⟩ ++ "\n" :=
  row_eq ((htotal.append _).append _)

theorem functionRow_eq (f : Function) :
    functionRow w style f = (Cells.of w f).text style ++ "\n" :=
  tableRow_eq w style _ _ _ _ _ (endsInk_bound f.bound)

theorem headerRow_eq : headerRow w style = (Cells.titles w).text style ++ "\n" :=
  tableRow_eq w style _ _ _ _ _ ⟨"tsiz".toList, 'e', rfl, by decide⟩

/-- The lines of a table: the titles if they are asked for, then a row for each function; none
    without a function. -/
def linesOf (titles : Cells) (cells : Function → Cells) (functions : List Function) : List Cells :=
  if functions.isEmpty then []
  else (if style.header then [titles] else []) ++ functions.map cells

theorem fill_linesOf (functions : List Function) {c : Cells}
    (hc : c ∈ linesOf style (Cells.titles (Columns.of style functions))
      (Cells.of (Columns.of style functions)) functions) :
    c.Fill (Columns.of style functions) := by
  rw [linesOf] at hc
  split at hc
  · cases hc
  rcases List.mem_append.mp hc with hc | hc
  · by_cases hheader : style.header = true
    · rw [if_pos hheader, List.mem_singleton] at hc
      rw [hc]
      exact Cells.fill_titles hheader (Columns.within_refl.foldl functions)
    · rw [if_neg hheader] at hc
      cases hc
  · obtain ⟨f, hf, rfl⟩ := List.mem_map.mp hc
    exact Cells.fill_of (Columns.need_within_foldl hf)

/-- **The table is written line by line**, each in the columns that all functions have room in. -/
theorem table_eq (s : Survey) {functions : List Function}
    (hfunctions : s.deepestFirst.filter s.policy.regards = functions) :
    table s style = String.join
      ((linesOf style (Cells.titles (Columns.of style functions))
        (Cells.of (Columns.of style functions)) functions).map fun c => c.text style ++ "\n") := by
  have hrows : functions.map (functionRow (Columns.of style functions) style) =
      (functions.map (Cells.of (Columns.of style functions))).map
        fun c => c.text style ++ "\n" := by
    rw [List.map_map]
    exact List.map_congr_left fun f _ => functionRow_eq _ style f
  rw [table, hfunctions, linesOf]
  dsimp only
  split
  · rfl
  · rw [List.map_append, ← hrows]
    cases style.header with
    | false => rfl
    | true => rw [if_pos rfl, if_pos rfl, headerRow_eq, List.map_singleton]

end Rows

/-- **The stack table is complete, ordered and aligned**, for every survey and style, and whatever
    characters are in names, sections and files. There is one row for each function that the policy
    regards, the deepest first and by address among equally deep ones, and nothing at all if there
    is no such function. Every line, the titles included, fills the same columns with its cells, so
    that all have the same number of characters. -/
theorem table_sorted_and_aligned (s : Survey) (style : TableStyle) :
    ∃ (functions : List Function) (w : Columns) (titles : Cells) (cells : Function → Cells),
      functions.Perm s.regarded ∧
      (functions.Pairwise fun f g =>
        g.total < f.total ∨ f.total = g.total ∧ f.address ≤ g.address) ∧
      table s style =
        String.join ((linesOf style titles cells functions).map fun c => c.text style ++ "\n") ∧
      titles.Title ∧ (∀ f ∈ functions, (cells f).Show f) ∧
      ∀ c ∈ linesOf style titles cells functions,
        c.Fill w ∧ (c.text style).length = w.lineLength style := by
  refine ⟨s.deepestFirst.filter s.policy.regards,
    Columns.of style (s.deepestFirst.filter s.policy.regards), _, _, s.deepestFirst_perm,
    s.pairwise_deepestFirst.filter _, table_eq style s rfl, Cells.title_titles _,
    fun f _ => Cells.show_of _ f, fun c hc => ?_⟩
  have hfill := fill_linesOf style _ hc
  exact ⟨hfill, Cells.length_text style hfill⟩

end Report

end StackDepth

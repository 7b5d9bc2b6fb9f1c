import StackDepth.Proofs.Report.StackTable
import StackDepth.Report.Counts

/-!
# The count tables

What a reader of the instruction counts relies on: every row has its line, titles and counts stand
in straight columns, and what a table shows beside a title can be read back off its text.

* `CountCells`: a line of a table by its cells;
* `countTable_aligned`: the lines are those of the rows, in order, each with its cells in the
  columns;
* `shownIn?`: reads the count beside a title; `shownIn?_countTable`: it is that of the first row
  that begins as the title does;
* `shownIn?_operations`, `shownIn?_impacts`: what the two tables show of a ledger.
-/

namespace StackDepth.Report

open StackDepth.Text

/-! ## 1. Lines by their cells -/

/-- The cells of a line. -/
structure CountCells where
  title : String
  count : String
  percent : String
  impact : String

/-- A last cell with the spaces before it, if there is anything in it. -/
def lastCell (s : String) : String := if s = "" then "" else "  " ++ s

namespace CountCells

/-- The cells with the spaces between them. -/
def text (c : CountCells) : String :=
  c.title ++ " " ++ c.count ++ " " ++ c.percent ++ "%" ++ c.impact

/-- Titles and counts fill their columns. -/
structure Fill (w : CountColumns) (c : CountCells) : Prop where
  title : c.title.length = w.title
  count : c.count.length = w.count

/-- The cells show `r`: its title at the left edge, its numbers at the right, and its impact. -/
structure Show (r : CountRow) (c : CountCells) : Prop where
  title : ∃ n, c.title = r.title ++ fill ' ' n
  count : ∃ n, c.count = fill ' ' n ++ decimal r.count
  percent : ∃ n, c.percent = fill ' ' n ++ decimal r.percent
  impact : c.impact = lastCell ((r.impact.map Impact.text).getD "")

/-- The cells of `r` in columns of the widths `w`. -/
def of (w : CountColumns) (r : CountRow) : CountCells where
  title := alignLeft w.title r.title
  count := alignRight w.count (decimal r.count)
  percent := alignRight 3 (decimal r.percent)
  impact := lastCell ((r.impact.map Impact.text).getD "")

/-- The header in columns of the widths `w`. -/
def header (w : CountColumns) (title impact : String) : CountCells where
  title := alignLeft w.title title
  count := alignRight w.count "count"
  percent := fill ' ' 3
  impact := lastCell impact

theorem show_of (w : CountColumns) (r : CountRow) : (of w r).Show r where
  title := ⟨_, rfl⟩
  count := ⟨_, rfl⟩
  percent := ⟨_, rfl⟩
  impact := rfl

end CountCells

/-- Of a row that ends with a percentage and a last cell, the spaces before an empty cell are
    cut. -/
theorem row_lastCell {s : String} (before : String) (hs : s = "" ∨ EndsInk s) :
    row (before ++ "%  " ++ s) = before ++ "%" ++ lastCell s ++ "\n" := by
  by_cases h : s = ""
  · have htrim : trimEnd (before ++ "%  " ++ s).toList = (before ++ "%").toList := by
      refine dropEndWhile_eq_iff.mpr ⟨[' ', ' '], ?_, ?_, fun c hc => ?_⟩
      · simp [h]
      · exact List.forall_mem_cons.mpr ⟨rfl, List.forall_mem_singleton.mpr rfl⟩
      · rw [String.toList_append, show "%".toList = ['%'] from rfl, List.getLast?_concat] at hc
        cases hc
        rfl
    rw [row, htrim, String.ofList_toList, lastCell, if_pos h, String.append_empty]
  · rw [row_eq ((hs.resolve_left h).append _), lastCell, if_neg h]
    have hspaces : "%  " = "%" ++ "  " := rfl
    simp only [hspaces, String.append_assoc]

theorem text_impact (i : Option Impact) :
    (i.map Impact.text).getD "" = "" ∨ EndsInk ((i.map Impact.text).getD "") := by
  cases i with
  | none => exact .inl rfl
  | some i =>
    cases i with
    | no => exact .inl rfl
    | clear => exact .inr ⟨"clea".toList, 'r', rfl, rfl⟩
    | potential => exact .inr ⟨"potentia".toList, 'l', rfl, rfl⟩
    | weak => exact .inr ⟨"wea".toList, 'k', rfl, rfl⟩

theorem countRow_eq (w : CountColumns) (r : CountRow) :
    countRow w r = (CountCells.of w r).text ++ "\n" :=
  row_lastCell _ (text_impact r.impact)

theorem countHeader_eq (w : CountColumns) (title : String) {impact : String}
    (himpact : impact = "" ∨ EndsInk impact) :
    countHeader w title impact = (CountCells.header w title impact).text ++ "\n" := by
  have hpercent : alignRight 4 "%" ++ ("  " ++ impact) = fill ' ' 3 ++ ("%  " ++ impact) := by
    have hspaces : alignRight 4 "%" ++ "  " = fill ' ' 3 ++ "%  " := rfl
    rw [← String.append_assoc, hspaces, String.append_assoc]
  have htext : alignLeft w.title title ++ " " ++ alignRight w.count "count" ++ " " ++
      alignRight 4 "%" ++ "  " ++ impact = alignLeft w.title title ++ " " ++
        alignRight w.count "count" ++ " " ++ fill ' ' 3 ++ "%  " ++ impact := by
    simp only [String.append_assoc, hpercent]
  rw [countHeader, htext]
  exact row_lastCell _ himpact

/-! ## 2. Straight columns -/

namespace CountColumns

variable {w : CountColumns} {r : CountRow}

/-- There is room for the cells of `r`. -/
structure Holds (w : CountColumns) (r : CountRow) : Prop where
  title : r.title.utf8ByteSize ≤ w.title
  count : width 10 r.count ≤ w.count

theorem le_foldl (w : CountColumns) (rows : List CountRow) :
    w.title ≤ (rows.foldl widen w).title ∧ w.count ≤ (rows.foldl widen w).count := by
  induction rows generalizing w with
  | nil => exact ⟨Nat.le_refl _, Nat.le_refl _⟩
  | cons r rows ih =>
    obtain ⟨htitle, hcount⟩ := ih (w.widen r)
    exact ⟨Nat.le_trans (Nat.le_max_left ..) htitle, Nat.le_trans (Nat.le_max_left ..) hcount⟩

theorem holds_foldl {rows : List CountRow} (hr : r ∈ rows) : (rows.foldl widen w).Holds r := by
  induction rows generalizing w with
  | nil => cases hr
  | cons r' rows ih =>
    rcases List.mem_cons.mp hr with rfl | hr
    · obtain ⟨htitle, hcount⟩ := le_foldl (w.widen r) rows
      exact ⟨Nat.le_trans (Nat.le_max_right ..) htitle, Nat.le_trans (Nat.le_max_right ..) hcount⟩
    · exact ih hr

end CountColumns

theorem CountCells.fill_of {w : CountColumns} {r : CountRow} (h : w.Holds r) :
    (CountCells.of w r).Fill w where
  title := length_alignLeft (Nat.le_trans (length_le_utf8ByteSize _) h.title)
  count := length_alignRight ((length_decimal r.count).trans_le h.count)

theorem CountCells.fill_header {w : CountColumns} {title : String} (impact : String)
    (htitle : (CountColumns.least true title).title ≤ w.title)
    (hcount : (CountColumns.least true title).count ≤ w.count) :
    (CountCells.header w title impact).Fill w where
  title := length_alignLeft htitle
  count := length_alignRight hcount

/-- The lines of a table: the header if it is asked for, then a line for each row. -/
def countLines (header : Bool) (head : CountCells) (cells : CountRow → CountCells)
    (rows : List CountRow) : List CountCells :=
  (if header then [head] else []) ++ rows.map cells

theorem countTable_eq (header : Bool) (title : String) {impact : String} (rows : List CountRow)
    (himpact : impact = "" ∨ EndsInk impact) :
    countTable header title impact rows =
      String.join ((countLines header
        (CountCells.header (CountColumns.of header title rows) title impact)
        (CountCells.of (CountColumns.of header title rows)) rows).map fun c => c.text ++ "\n") := by
  have hrows : rows.map (countRow (CountColumns.of header title rows)) =
      (rows.map (CountCells.of (CountColumns.of header title rows))).map
        fun c => c.text ++ "\n" := by
    rw [List.map_map]
    exact List.map_congr_left fun r _ => countRow_eq _ r
  rw [countTable, countLines, List.map_append, ← hrows]
  cases header with
  | false => rfl
  | true => rw [if_pos rfl, if_pos rfl, countHeader_eq _ _ himpact, List.map_singleton]

/-- **A count table has a line for each row, in order, in straight columns**: after the header, if
    it is asked for, every line shows its row, and titles and counts fill columns that are the same
    on all lines. -/
theorem countTable_aligned (header : Bool) (title : String) {impact : String} (rows : List CountRow)
    (himpact : impact = "" ∨ EndsInk impact) :
    ∃ (w : CountColumns) (head : CountCells) (cells : CountRow → CountCells),
      countTable header title impact rows =
        String.join ((countLines header head cells rows).map fun c => c.text ++ "\n") ∧
      (∀ r ∈ rows, (cells r).Show r) ∧ ∀ c ∈ countLines header head cells rows, c.Fill w := by
  refine ⟨CountColumns.of header title rows, _, _, countTable_eq header title rows himpact,
    fun r _ => CountCells.show_of _ r, fun c hc => ?_⟩
  rcases List.mem_append.mp hc with hc | hc
  · cases header with
    | false => cases hc
    | true =>
      rw [if_pos rfl, List.mem_singleton] at hc
      obtain ⟨htitle, hcount⟩ := CountColumns.le_foldl (CountColumns.least true title) rows
      rw [hc]
      exact CountCells.fill_header impact htitle hcount
  · obtain ⟨r, hr, rfl⟩ := List.mem_map.mp hc
    exact CountCells.fill_of (CountColumns.holds_foldl hr)

/-! ## 3. Reading a table -/

/-- The count that a line shows beside `title`: after blanks, in decimal digits. -/
def countBeside? (title : String) (line : List Char) : Option Nat :=
  ((after? title.toList line).bind blanks).bind fun rest =>
    (run isDecimalDigit rest).bind fun q => digits? 10 q.1

/-- The count that a text shows beside `title`, on the first line that shows one. -/
def shownIn? (title text : String) : Option Nat :=
  (pieces '\n' text.toList).findSome? (countBeside? title)

theorem isDecimalDigit_of_mem_decimal {n : Nat} {c : Char} (hc : c ∈ (decimal n).toList) :
    isDecimalDigit c = true := by
  rw [decimal, String.toList_ofList] at hc
  have hdigit : ∀ d < 10, isDecimalDigit (Nat.digitChar d) = true := by decide
  exact of_mem_toDigits (P := (isDecimalDigit · = true)) (by decide) hdigit hc

/-- **A line shows the count of its row beside its title.** -/
theorem CountCells.Show.countBeside? {r : CountRow} {c : CountCells} (h : c.Show r) :
    countBeside? r.title c.text.toList = some r.count := by
  obtain ⟨m, htitle⟩ := h.title
  obtain ⟨n, hcount⟩ := h.count
  have htext : c.text.toList = r.title.toList ++
      ((List.replicate m ' ' ++ ' ' :: List.replicate n ' ') ++ ((decimal r.count).toList ++
        (' ' :: (c.percent ++ "%" ++ c.impact).toList))) := by
    simp [CountCells.text, htitle, hcount, fill]
  have hblank : ∀ x ∈ List.replicate m ' ' ++ ' ' :: List.replicate n ' ', isBlank x = true := by
    intro x hx
    have hspace : x = ' ' := by
      rcases List.mem_append.mp hx with hx | hx
      · exact List.eq_of_mem_replicate hx
      · exact (List.mem_cons.mp hx).elim id List.eq_of_mem_replicate
    rw [hspace]
    rfl
  have hne : (decimal r.count).toList ≠ [] := by
    rw [decimal, String.toList_ofList]
    exact toDigits_ne_nil (by decide)
  have hink : Bounds isBlank ((decimal r.count).toList ++
      (' ' :: (c.percent ++ "%" ++ c.impact).toList)) := by
    refine bounds_of_mem hne (fun x hx => isDecimalDigit_of_mem_decimal hx) (fun x hx => ?_) _
    exact isBlank_of_isHexDigit (by rw [isHexDigit, hx, Bool.true_or])
  have hstop : Bounds isDecimalDigit (' ' :: (c.percent ++ "%" ++ c.impact).toList) :=
    bounds_cons.mpr rfl
  rw [Report.countBeside?, htext, after?_append, Option.bind_some,
    blanks_append (by simp) hblank hink, Option.bind_some,
    run_append hne (fun x hx => isDecimalDigit_of_mem_decimal hx) hstop, Option.bind_some, decimal,
    String.toList_ofList]
  exact digits?_toDigits (by decide) (by decide) r.count

/-! ### The first line that shows a count -/

/-- The character that a line with `title` in its first cell begins with. -/
def firstChar (title : String) : Char := title.toList.headD ' '

/-- A line that begins with another character shows nothing beside a title. -/
theorem countBeside?_eq_none {title : String} {line : List Char} {d : Char} (hempty : title ≠ "")
    (hline : line.head? = some d) (hne : firstChar title ≠ d) : countBeside? title line = none := by
  obtain ⟨rest, rfl⟩ := List.head?_eq_some_iff.mp hline
  rw [countBeside?]
  rw [firstChar] at hne
  cases ht : title.toList with
  | nil => exact absurd (String.toList_eq_nil_iff.mp ht) hempty
  | cons c cs =>
    rw [ht, List.headD_cons] at hne
    rw [after?, if_neg hne, Option.bind_none, Option.bind_none]

/-- The first line that shows a count, after lines that show none. -/
theorem shownIn?_lines {title : String} {n : Nat} {before after : List CountCells} {c : CountCells}
    (hbefore : ∀ b ∈ before, '\n' ∉ b.text.toList ∧ countBeside? title b.text.toList = none)
    (hline : '\n' ∉ c.text.toList) (hcount : countBeside? title c.text.toList = some n) :
    shownIn? title (String.join ((before ++ c :: after).map fun c => c.text ++ "\n")) = some n := by
  have hjoin : ∀ (b : CountCells) (bs : List CountCells),
      (String.join ((b :: bs).map fun c => c.text ++ "\n")).toList =
        b.text.toList ++ '\n' :: (String.join (bs.map fun c => c.text ++ "\n")).toList := by
    intro b bs
    simp
  unfold shownIn?
  induction before with
  | nil => rw [List.nil_append, hjoin, pieces_append_cons hline, List.findSome?_cons, hcount]
  | cons b before ih =>
    obtain ⟨hb, hnone⟩ := hbefore b List.mem_cons_self
    rw [List.cons_append, hjoin, pieces_append_cons hb, List.findSome?_cons, hnone]
    exact ih fun b hb => hbefore b (List.mem_cons_of_mem _ hb)

namespace CountCells

variable {c : CountCells} {r : CountRow} {title : String}

theorem head?_text {n : Nat} (h : c.title = title ++ fill ' ' n) :
    c.text.toList.head? = some (firstChar title) := by
  rw [text, h, firstChar]
  cases ht : title.toList with
  | nil => cases n <;> simp [ht, fill, List.replicate_succ]
  | cons x xs => simp [ht]

/-- A line has no line end in it if no cell has one. -/
theorem newline_not_mem_text (htitle : '\n' ∉ c.title.toList) (hcount : '\n' ∉ c.count.toList)
    (hpercent : '\n' ∉ c.percent.toList) (himpact : '\n' ∉ c.impact.toList) :
    '\n' ∉ c.text.toList := by
  simp [text, htitle, hcount, hpercent, himpact]

theorem newline_not_mem_fill (n : Nat) : '\n' ∉ (fill ' ' n).toList := by
  simp [fill, List.mem_replicate]

theorem newline_not_mem_decimal (n : Nat) : '\n' ∉ (decimal n).toList :=
  fun h => absurd (isDecimalDigit_of_mem_decimal h) (by decide)

theorem newline_not_mem_lastCell {s : String} (h : '\n' ∉ s.toList) :
    '\n' ∉ (lastCell s).toList := by
  unfold lastCell
  split
  · simp
  · simp [h]

theorem newline_not_mem_of (w : CountColumns) (h : '\n' ∉ r.title.toList) :
    '\n' ∉ (of w r).text.toList := by
  refine newline_not_mem_text ?_ ?_ ?_ (newline_not_mem_lastCell ?_)
  · simp [of, alignLeft, h, newline_not_mem_fill]
  · simp [of, alignRight, newline_not_mem_fill, newline_not_mem_decimal]
  · simp [of, alignRight, newline_not_mem_fill, newline_not_mem_decimal]
  · cases r.impact with
    | none => decide
    | some i => cases i <;> decide

theorem newline_not_mem_header (w : CountColumns) {impact : String} (htitle : '\n' ∉ title.toList)
    (himpact : '\n' ∉ impact.toList) : '\n' ∉ (header w title impact).text.toList := by
  refine newline_not_mem_text ?_ ?_ (newline_not_mem_fill 3) (newline_not_mem_lastCell himpact)
  · simp [header, alignLeft, htitle, newline_not_mem_fill]
  · simp [header, alignRight, newline_not_mem_fill]

end CountCells

/-- **The count of a row can be read off the table**, if neither the header nor a row before it
    begins as it does. -/
theorem shownIn?_countTable (header : Bool) (title impact : String) (before : List CountRow)
    (r : CountRow) (rows : List CountRow) (himpact : impact = "" ∨ EndsInk impact)
    (hhead : '\n' ∉ title.toList ∧ '\n' ∉ impact.toList ∧ firstChar r.title ≠ firstChar title)
    (hr : r.title ≠ "" ∧ '\n' ∉ r.title.toList)
    (hbefore : ∀ b ∈ before, '\n' ∉ b.title.toList ∧ firstChar r.title ≠ firstChar b.title) :
    shownIn? r.title (countTable header title impact (before ++ r :: rows)) = some r.count := by
  generalize hw : CountColumns.of header title (before ++ r :: rows) = w
  have hsplit : countLines header (CountCells.header w title impact) (CountCells.of w)
      (before ++ r :: rows) =
        countLines header (CountCells.header w title impact) (CountCells.of w) before ++
          CountCells.of w r :: rows.map (CountCells.of w) := by
    simp [countLines]
  rw [countTable_eq header title _ himpact, hw, hsplit]
  refine shownIn?_lines (fun b hb => ?_) (CountCells.newline_not_mem_of w hr.2)
    (CountCells.show_of w r).countBeside?
  rcases List.mem_append.mp hb with hb | hb
  · cases header with
    | false => cases hb
    | true =>
      rw [if_pos rfl, List.mem_singleton] at hb
      rw [hb]
      exact ⟨CountCells.newline_not_mem_header w hhead.1 hhead.2.1,
        countBeside?_eq_none hr.1 (CountCells.head?_text rfl) hhead.2.2⟩
  · obtain ⟨b', hb', rfl⟩ := List.mem_map.mp hb
    obtain ⟨hline, hfirst⟩ := hbefore b' hb'
    exact ⟨CountCells.newline_not_mem_of w hline,
      countBeside?_eq_none hr.1 (CountCells.head?_text rfl) hfirst⟩

/-! ## 4. The two tables of a ledger -/

/-- **The table of the mnemonics shows the sum of their executions.** -/
theorem shownIn?_operations (header : Bool) (l : Ledger) :
    shownIn? "total" (countTable header "operation" "stack impact" (operationRows l)) =
      some l.executions := by
  have himpact : EndsInk "stack impact" := ⟨"stack impac".toList, 't', rfl, rfl⟩
  obtain ⟨rows, hrows⟩ : ∃ rows, operationRows l =
      [] ++ { title := "total", count := l.executions, percent := 100 } :: rows := ⟨_, rfl⟩
  have hshown := shownIn?_countTable header "operation" "stack impact" []
    { title := "total", count := l.executions, percent := 100 } rows (.inr himpact)
  rw [hrows]
  exact hshown ⟨by simp, by simp, by simp [firstChar]⟩ ⟨by simp, by simp⟩ nofun

/-- The rows of the impacts, each by its title and its count. -/
theorem impactRows_eq (l : Ledger) : ∃ part : String → Nat → CountRow,
    (∀ title count, (part title count).title = title ∧ (part title count).count = count) ∧
      impactRows l = [part "total" l.total, part "clear" l.clear,
        part "weak (unknown stack impact)" l.weak, part "skipped" (l.potential + l.no),
        part "  potential stack instructions" l.potential, part "  unexpected stack impact" l.no] :=
  ⟨fun title count => { title, count, percent := percent count l.total },
    fun _ _ => ⟨rfl, rfl⟩, rfl⟩

/-- **The table of the impacts shows their sum and the parts that it has.** -/
theorem shownIn?_impacts (header : Bool) (l : Ledger) :
    shownIn? "total" (countTable header "" "" (impactRows l)) = some l.total ∧
      shownIn? "clear" (countTable header "" "" (impactRows l)) = some l.clear ∧
      shownIn? "weak (unknown stack impact)" (countTable header "" "" (impactRows l)) =
        some l.weak ∧
      shownIn? "skipped" (countTable header "" "" (impactRows l)) = some (l.potential + l.no) := by
  obtain ⟨part, hpart, hrows⟩ := impactRows_eq l
  have hshown : ∀ (before : List CountRow) (title : String) (count : Nat) (rows : List CountRow),
      impactRows l = before ++ part title count :: rows → title ≠ "" → '\n' ∉ title.toList →
      firstChar title ≠ ' ' →
      (∀ b ∈ before, '\n' ∉ b.title.toList ∧ firstChar title ≠ firstChar b.title) →
      shownIn? title (countTable header "" "" (impactRows l)) = some count := by
    intro before title count rows hsplit hne hline hspace hbefore
    have h := shownIn?_countTable header "" "" before (part title count) rows (.inl rfl)
    rw [(hpart title count).1, (hpart title count).2, ← hsplit] at h
    exact h ⟨by simp, by simp, hspace⟩ ⟨hne, hline⟩ hbefore
  refine ⟨hshown [] _ _ _ hrows ?_ ?_ ?_ ?_, hshown [_] _ _ _ hrows ?_ ?_ ?_ ?_,
    hshown [_, _] _ _ _ hrows ?_ ?_ ?_ ?_, hshown [_, _, _] _ _ _ hrows ?_ ?_ ?_ ?_⟩
  all_goals simp [firstChar, hpart]

end StackDepth.Report

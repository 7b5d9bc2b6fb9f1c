import StackDepth.Survey

/-!
# The instruction counts

How often each mnemonic occurs and with what impact, the most frequent first, and how the
instructions divide among the impacts. Titles are padded to a width in bytes.
-/

namespace StackDepth.Report

open StackDepth.Text

structure CountStyle where
  header : Bool := false
  /-- Also list every mnemonic. -/
  operations : Bool := false
  deriving DecidableEq, Repr

structure CountRow where
  title : String
  count : Nat
  percent : Nat
  impact : Option Impact := none
  deriving DecidableEq, Repr

/-- `part` of `whole` in percent, a half rounded up; 0 of nothing. -/
def percent (part whole : Nat) : Nat :=
  if whole = 0 then 0 else (200 * part + whole) / (2 * whole)

/-! ## 1. Rows -/

/-- The mnemonics, the most frequent first and then in their order, after their sum. -/
def operationRows (l : Ledger) : List CountRow :=
  let total := l.executions
  let rows := l.operations.map fun (name, count) =>
    { title := name
      count := count.executions
      percent := percent count.executions total
      impact := some count.impact : CountRow }
  { title := "total", count := total, percent := 100 } ::
    rows.mergeSort fun a b => decide (b.count ≤ a.count)

def impactRows (l : Ledger) : List CountRow :=
  let part (title : String) (count : Nat) : CountRow :=
    { title, count, percent := percent count l.total }
  [part "total" l.total,
    part "clear" l.clear,
    part "weak (unknown stack impact)" l.weak,
    part "skipped" (l.potential + l.no),
    part "  potential stack instructions" l.potential,
    part "  unexpected stack impact" l.no]

/-! ## 2. Text -/

/-- The widths of the columns of titles and of counts. -/
structure CountColumns where
  title : Nat
  count : Nat
  deriving DecidableEq, Repr

namespace CountColumns

/-- The least widths: those of the header, or one character without it. -/
def least (header : Bool) (title : String) : CountColumns :=
  { title := if header then title.length else 1
    count := if header then "count".length else 1 }

/-- Makes room for the cells of `r`. -/
def widen (w : CountColumns) (r : CountRow) : CountColumns :=
  { title := max w.title r.title.utf8ByteSize
    count := max w.count (width 10 r.count) }

def of (header : Bool) (title : String) (rows : List CountRow) : CountColumns :=
  rows.foldl widen (least header title)

end CountColumns

def countHeader (w : CountColumns) (title impact : String) : String :=
  row (alignLeft w.title title ++ " " ++ alignRight w.count "count" ++ " " ++ alignRight 4 "%" ++
    "  " ++ impact)

def countRow (w : CountColumns) (r : CountRow) : String :=
  row (alignLeft w.title r.title ++ " " ++ alignRight w.count (decimal r.count) ++ " " ++
    alignRight 3 (decimal r.percent) ++ "%  " ++ ((r.impact.map Impact.text).getD ""))

/-- The rows in columns, under a header if asked for. `title` and `impact` head the first column and
    the last. -/
def countTable (header : Bool) (title impact : String) (rows : List CountRow) : String :=
  let w := CountColumns.of header title rows
  String.join ((if header then [countHeader w title impact] else []) ++ rows.map (countRow w))

/-- The counts of a survey; empty if nothing was counted. -/
def counts (s : Survey) (style : CountStyle) : String :=
  if s.ledger.isEmpty then ""
  else
    (if style.operations then
      countTable style.header "operation" "stack impact" (operationRows s.ledger) ++ "\n"
      else "") ++
    countTable style.header "" "" (impactRows s.ledger)

end StackDepth.Report

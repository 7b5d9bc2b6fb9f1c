import StackDepth.Survey

/-!
# The stack table

One row per regarded function, the deepest first: address, name, section if asked for, file, own
bytes, bound. Every column is as wide as its widest cell, and as its title if titles are shown.
Widths of sections and files count bytes, all others characters.
-/

namespace StackDepth.Report

open StackDepth.Text

structure TableStyle where
  header : Bool := false
  sections : Bool := false
  deriving DecidableEq, Repr

/-- The widths of the columns. -/
structure Columns where
  address : Nat
  name : Nat
  sectionName : Nat
  file : Nat
  size : Nat
  total : Nat
  deriving DecidableEq, Repr

namespace Columns

/-- The least widths: those of the titles, or one character without them. -/
def least (style : TableStyle) : Columns :=
  let title (s : String) := if style.header then s.length else 1
  { address := title "address"
    name := title "function"
    sectionName := title "section"
    file := title "file"
    size := title "fsize"
    total := title "tsize" }

/-- Makes room for the cells of `f`. -/
def widen (w : Columns) (f : Function) : Columns :=
  { address := max w.address (width 16 f.address + 2)
    name := max w.name f.name.length
    sectionName := max w.sectionName (f.sectionName.getD "").utf8ByteSize
    file := max w.file (f.file.getD "").utf8ByteSize
    size := max w.size (width 10 f.size)
    total := max w.total f.bound.text.length }

def of (style : TableStyle) (functions : List Function) : Columns :=
  functions.foldl widen (least style)

end Columns

/-- A row from its cells; the address fills its column already. -/
def tableRow (w : Columns) (style : TableStyle)
    (address name sectionName file size total : String) :
    String :=
  row (address ++ " " ++ alignLeft w.name name ++ "  " ++
    (if style.sections then alignLeft w.sectionName sectionName ++ " " else "") ++
    alignLeft w.file file ++ "  " ++ alignRight w.size size ++ " " ++ alignRight w.total total)

def headerRow (w : Columns) (style : TableStyle) : String :=
  tableRow w style (alignRight w.address "address") "function" "section" "file" "fsize" "tsize"

def functionRow (w : Columns) (style : TableStyle) (f : Function) : String :=
  tableRow w style (alignAddress w.address f.address) f.name (f.sectionName.getD "")
    (f.file.getD "") (decimal f.size) f.bound.text

/-- The table of a survey; empty if no function is regarded. -/
def table (s : Survey) (style : TableStyle) : String :=
  let functions := s.deepestFirst.filter s.policy.regards
  if functions.isEmpty then ""
  else
    let w := Columns.of style functions
    String.join ((if style.header then [headerRow w style] else []) ++
      functions.map (functionRow w style))

end StackDepth.Report

/-!
# Rows

A listing comes as the bytes of a file. Its rows are what stands before each line end, and after the
last one if anything does. A row has to be text; one that is not is kept as `none`, so that the rows
before it can still be read.
-/

namespace StackDepth.Listing

/-- The rows of a file as bytes. `rows` were found so far, and `row` has the bytes since the last
    line end, the latest first. -/
def splitRows (rows : Array (List UInt8)) (row : List UInt8) : List UInt8 → Array (List UInt8)
  | [] => if row.isEmpty then rows else rows.push row.reverse
  | b :: rest =>
    if b == 10 then splitRows (rows.push row.reverse) [] rest else splitRows rows (b :: row) rest

/-- The rows of a file as text. -/
def rowsOf (bytes : ByteArray) : List (Option String) :=
  (splitRows #[] [] bytes.data.toList).toList.map fun row => String.fromUTF8? ⟨row.toArray⟩

end StackDepth.Listing

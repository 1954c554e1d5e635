/-!
# Laying out cells

A grid of cells becomes a text with one line for each row. Columns are as wide as their widest cell,
counted in characters; the first row says how many columns there are, and cells of a longer row
beyond that are left as they are. A cell cannot be filled up to just any width: where a column is too wide
for that, the program ends and there is no text.
-/

namespace Propositional

/-- How the cells and rows of a grid are put together. -/
structure Layout where
  /-- Stands between two cells of a row. -/
  delimiter : String
  /-- Begins every row. -/
  lead : String
  /-- Is a line of its own between two rows, if there is one. -/
  separator : Option String
  /-- Cells are filled up on the right to the width of their column. -/
  justify : Bool
deriving DecidableEq, Repr

namespace Layout

/-- The cells of column `j`, over the rows that are long enough. -/
def column (grid : List (List String)) (j : Nat) : List String := grid.filterMap (·[j]?)

/-- The width of every column of the first row: the length of the longest cell. -/
def widths (grid : List (List String)) : List Nat :=
  (List.range (grid.head?.elim 0 List.length)).map fun j =>
    ((column grid j).map String.length).max?.getD 0

/-- The greatest width to fill up to: it is handed on in 16 bits. -/
def maxWidth : Nat := 65535

/-- No column is too wide, if cells are to be filled up. -/
def fillable (l : Layout) (grid : List (List String)) : Bool :=
  !l.justify || (widths grid).all (· ≤ maxWidth)

/-- The cell, filled up with spaces to the width. -/
def pad (width : Nat) (cell : String) : String :=
  cell ++ String.ofList (List.replicate (width - cell.length) ' ')

/-- The cells of a row, each filled up to the width of its column. -/
def padAll : List Nat → List String → List String
  | width :: widths, cell :: cells => pad width cell :: padAll widths cells
  | _, cells => cells

/-- A row as a line. -/
def line (l : Layout) (widths : List Nat) (row : List String) : String :=
  l.lead ++ l.delimiter.intercalate (if l.justify then padAll widths row else row)

/-- What comes between the lines of two rows. -/
def between (l : Layout) : String :=
  match l.separator with
  | some s => "\n" ++ s ++ "\n"
  | none => "\n"

/-- The lines of the rows, put together. -/
def text (l : Layout) (grid : List (List String)) : String :=
  l.between.intercalate (grid.map (l.line (widths grid)))

/-- The grid as a text, without a line feed at its end, if its columns can be filled up. -/
def render (l : Layout) (grid : List (List String)) : Option String :=
  if l.fillable grid then some (l.text grid) else none

end Layout

end Propositional

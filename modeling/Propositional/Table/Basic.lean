import Propositional.Statement.Header
import Propositional.Statement.Value
import Propositional.Table.Labels
import Propositional.Table.Layout

/-!
# Truth tables

The table of a list of statements has a column for each letter that occurs in them, in alphabetical
order, and then a column for each statement. Under the headings there is one row for each way to give
truth values to the letters: the row numbers are counted up from 0 and read as binary numbers, the
first letter being the highest digit.
-/

namespace Propositional

/-- A truth table that is asked for. -/
structure Table where
  statements : List Statement
  style : Style
  labels : Labels
  /-- The rows are counted down instead of up. -/
  reverse : Bool
deriving DecidableEq, Repr

/-- The layout of each style: aligned columns, or the rows of a LaTeX `tabular` with rules. -/
def Style.layout : Style → Layout
  | .human => ⟨"   ", "", none, true⟩
  | .latex => ⟨" & ", "    ", some "     \\\\ \\hline", false⟩

namespace Table

/-- The letters of all statements together. -/
def letterSet (t : Table) : LetterSet := t.statements.foldl (fun s st => s.union st.letters) ∅

/-- The letters that have a column, in order. -/
def letters (t : Table) : List Letter := t.letterSet.toList

/-- The number of rows under the headings. -/
def rowCount (t : Table) : Nat := Nat.pow 2 t.letters.length

/-- What the columns show: the letters, then the statements. -/
def columns (t : Table) : List Statement := t.letters.map Statement.ofLetter ++ t.statements

/-- The headings. -/
def header (t : Table) : List String := t.columns.map fun s => t.style.wrap (s.header t.style)

/-- The number that row `k` stands for. -/
def rowNumber (t : Table) (k : Nat) : Nat := if t.reverse then t.rowCount - 1 - k else k

/-- The valuation of row `k`. -/
def valuation (t : Table) (k : Nat) : Valuation := .ofRow t.letters (t.rowNumber k)

/-- The cell of a statement under a valuation. -/
def cell (t : Table) (a : Valuation) (s : Statement) : Except Unassigned String := do
  let b ← s.value a
  return t.style.wrap (t.labels.label b)

/-- The cells of row `k`. -/
def row (t : Table) (k : Nat) : Except Unassigned (List String) :=
  let a := t.valuation k
  t.columns.mapM (t.cell a)

/-- All cells: the headings, then the rows. -/
def grid (t : Table) : Except Unassigned (List (List String)) := do
  let rows ← (List.range t.rowCount).mapM t.row
  return t.header :: rows

/-- The first line of a LaTeX `tabular` with the given number of centred columns. -/
def opening (columns : Nat) : String :=
  "\\begin\x7btabular\x7d\x7b " ++ "|".intercalate (List.replicate columns "c") ++ " \x7d"

/-- The last line of a LaTeX `tabular`. -/
def closing : String := "\\end\x7btabular\x7d"

/-- A grid of cells as the text of a table, if it can be laid out. -/
def enclose (style : Style) (grid : List (List String)) : Option String :=
  (style.layout.render grid).map fun body =>
    match style with
    | .human => body
    | .latex => opening (grid.head?.elim 0 List.length) ++ "\n" ++ body ++ "\n" ++ closing

/-- The table as a text, without a line feed at its end. There is none when the cells cannot be laid out. -/
def render (t : Table) : Except Unassigned (Option String) := do
  let cells ← t.grid
  return enclose t.style cells

/-- The note made of the table's size when its cells are computed. -/
def sizeNote (t : Table) : String :=
  "format_table: " ++ toString t.letters.length ++ " variables, " ++ toString t.columns.length ++
    " columns, " ++ toString t.rowCount ++ " rows"

end Table

end Propositional

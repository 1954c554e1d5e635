import Propositional.Operator

/-!
# Output styles

A table is written for people, with mathematical signs, or as LaTeX source, with commands and with
every cell in math mode.
-/

namespace Propositional

/-- How a table is written. -/
inductive Style
  | human
  | latex
deriving DecidableEq, Repr

namespace Style

/-- What stands for an operator in a heading. -/
def symbol : Style → Operator → String
  | human, op => op.glyph
  | latex, op => op.latex

/-- A cell as it stands in the table. -/
def wrap : Style → String → String
  | human, cell => cell
  | latex, cell => "$" ++ cell ++ "$"

end Style

end Propositional

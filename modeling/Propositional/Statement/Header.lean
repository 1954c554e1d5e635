import Propositional.Statement.Basic
import Propositional.Style
import Propositional.Token.Lexer

/-!
# Headings

The heading of a statement is its literal with every operator written in the symbols of a style.
Its tokens have one space between them, but none after an opening parenthesis, before a closing one,
or after the sign of a negation: `not ( A or B )` becomes `¬(A ∨ B)`. A LaTeX command ends in a
letter, so that the space after it has to stay.
-/

namespace Propositional

/-- The text ends in a letter of the Latin alphabet. -/
def endsInLetter (s : String) : Bool := s.toList.getLast?.any Char.isAlpha

namespace Style

/-- A token as it stands in a heading. -/
def token (style : Style) (t : Token) : String :=
  match Token.operator? t with
  | some op => style.symbol op
  | none => t

/-- No space follows the token. -/
def hugs (style : Style) (t : Token) : Bool :=
  t == "(" || (Token.operator? t == some .not && !endsInLetter (style.token t))

/-- Writes tokens; `hugged` tells that no space comes before the first one. -/
def tokensFrom (style : Style) : Bool → List Token → String
  | _, [] => ""
  | hugged, t :: ts =>
    (if hugged || t == ")" then "" else " ") ++ style.token t ++ style.tokensFrom (style.hugs t) ts

/-- Writes a list of tokens as a heading. -/
def tokens (style : Style) (ts : List Token) : String := style.tokensFrom true ts

end Style

/-- The heading of a statement. -/
def Statement.header (s : Statement) (style : Style) : String :=
  style.tokens (Token.lex s.literal)

end Propositional

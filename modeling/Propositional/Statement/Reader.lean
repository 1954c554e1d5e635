import Propositional.Statement.Basic
import Propositional.Statement.Reading
import Propositional.Statement.Root
import Propositional.Text.Blank
import Propositional.Token.Lexer
import Propositional.Token.Strip

/-!
# Reading statements

A statement is read from a list of tokens by splitting: take away the redundant outer parentheses,
find the root operator, and read what stands on its two sides. Of equally loose operators the first
is the root, so that chains nest to the right. `negation` takes the rest of its span as operand. Each
node that is made keeps the set of its letters, which is put together from the sets of its operands.

A statement is read from a text by taking off the blanks at both ends and cutting the rest into
tokens.
-/

namespace Propositional.Statement

/-- The letter of a span that is nothing but a letter. -/
def lone? : List Token → Option Letter
  | [t] => Letter.ofName? t
  | _ => none

/-- The token to blame in a span with one letter: the first that is neither letter nor parenthesis,
or else the first parenthesis. -/
def offender (span : List Token) : Token :=
  ((span.find? fun t => !Token.isLetter t && !Token.isParen t).or
    (span.find? fun t => !Token.isLetter t)).getD ""

/-- Reads a span without an operator outside its parentheses: it has to be a lone letter. -/
def ofOperatorless (literal : String) (span : List Token) : Except Malformed Statement :=
  match span.countP Token.isLetter with
  | 0 => .error (.noLetters (Token.text span))
  | 1 =>
    match lone? span with
    | some v => .ok (.letter literal (.singleton v) v)
    | none => .error (.invalidToken (offender span) (Token.text span))
  | _ => .error (.severalLetters (Token.text span))

/-- Reads a list of tokens in which every parenthesis has its partner; the statement gets the given
literal. -/
def ofSpan (literal : String) (ts : List Token) : Reading Statement :=
  let span := Token.strip ts
  match _h : Root.ofTokens span with
  | .ambiguous => .failed (.ambiguousPrecedence (Token.text span))
  | .absent => .ofExcept (ofOperatorless literal span)
  | .found o =>
    let left := Token.strip (span.take o.place)
    let right := Token.strip (span.drop (o.place + 1))
    .noting ⟨literal, o.op, o.place⟩ <|
      if right.isEmpty then .failed (.missingOperand o.op (Token.text span))
      else if o.op = .not then
        if left.isEmpty then
          (ofSpan (Token.text right) right).map fun r => .negation literal r.letters r
        else .failed (.unexpectedOperand o.op (Token.text span))
      else if left.isEmpty then .failed (.missingOperand o.op (Token.text span))
      else
        (ofSpan (Token.text left) left).bind fun l =>
          (ofSpan (Token.text right) right).map fun r =>
            .binary literal (l.letters.union r.letters) o.op l r
termination_by ts.length
decreasing_by
  all_goals
    have hplace : o.place < (Token.strip ts).length := Root.place_lt _h
    have hspan := Token.length_strip_le ts
    have hleft := Token.length_strip_le ((Token.strip ts).take o.place)
    have hright := Token.length_strip_le ((Token.strip ts).drop (o.place + 1))
    simp only [List.length_take, List.length_drop] at hleft hright
    omega

/-- Reads a list of tokens, once its parentheses are seen to pair up. -/
def ofPaired (literal : String) (ts : List Token) : Reading Statement :=
  if Token.balanced ts then ofSpan literal ts else .failed (.unbalanced literal)

/-- Reads a list of tokens, with the splits; its literal is the tokens with spaces between them. -/
def readTokens (ts : List Token) : Reading Statement := ofPaired (Token.text ts) ts

/-- Reads a text, with the splits; its literal is the text without the blanks at both ends. -/
def readText (expression : String) : Reading Statement :=
  let text := Text.trim expression
  match Letter.ofName? text with
  | some v => .done (ofLetter v)
  | none => (ofPaired text (Token.lex text)).mapError (Malformed.blaming text)

/-- The statement that a list of tokens spells. -/
def ofTokens (ts : List Token) : Except Malformed Statement := (readTokens ts).result

/-- The statement that a text spells. -/
def ofText (expression : String) : Except Malformed Statement := (readText expression).result

end Propositional.Statement

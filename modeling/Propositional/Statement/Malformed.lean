import Propositional.Operator

/-!
# Malformed statements

The seven reasons for which a text is not a statement. Each carries the part of the text at fault.
-/

namespace Propositional

/-- Why a text is not a statement. -/
inductive Malformed
  /-- Two conditionals with no parentheses to tell which comes first. -/
  | ambiguousPrecedence (expression : String)
  /-- No letter and no operator. -/
  | noLetters (expression : String)
  /-- Two letters or more and no operator. -/
  | severalLetters (expression : String)
  /-- Something stands beside the only letter. -/
  | invalidToken (token : String) (expression : String)
  /-- A parenthesis without its partner. -/
  | unbalanced (expression : String)
  /-- An operator with nothing on a side where an operand has to be. -/
  | missingOperand (op : Operator) (expression : String)
  /-- An operator of one operand with something before it. -/
  | unexpectedOperand (op : Operator) (expression : String)
deriving DecidableEq, Repr

namespace Malformed

/-- The text at fault. -/
def expression : Malformed → String
  | ambiguousPrecedence e => e
  | noLetters e => e
  | severalLetters e => e
  | invalidToken _ e => e
  | unbalanced e => e
  | missingOperand _ e => e
  | unexpectedOperand _ e => e

/-- The fault is that precedence is not defined. -/
def isAmbiguous : Malformed → Bool
  | ambiguousPrecedence _ => true
  | _ => false

/-- A missing precedence is laid to the given text; other faults stay as they are. -/
def blaming (text : String) : Malformed → Malformed
  | ambiguousPrecedence _ => ambiguousPrecedence text
  | e => e

/-- The sentence shown for the fault. -/
def message : Malformed → String
  | ambiguousPrecedence e =>
    "In expression '" ++ e ++ "': Precedence is not defined between implication (=>) and " ++
      "equivalence (<=>) operators. Please use parentheses to clarify your statement."
  | noLetters e => "No variables and no operator in expression: \"" ++ e ++ "\""
  | severalLetters e => "Multiple variables but no operator in expression: \"" ++ e ++ "\""
  | invalidToken t e => "In expression '" ++ e ++ "': '" ++ t ++ "' is not a valid token"
  | unbalanced e => "Unbalanced parentheses in expression: \"" ++ e ++ "\""
  | missingOperand op e =>
    "Operator '" ++ op.name ++ "' is missing an operand in expression: \"" ++ e ++ "\""
  | unexpectedOperand op e =>
    "Unary operator '" ++ op.name ++ "' takes no left operand in expression: \"" ++ e ++ "\""

end Malformed

end Propositional

import Propositional.Token.Basic

/-!
# The tokens of a text

A text is cut at spaces and parentheses and nowhere else. Spaces are dropped, each parenthesis is a
token, and every other run of characters is a word that is kept as it stands.
-/

namespace Propositional.Token

/-- A word, unless it is empty, in front of the tokens that follow it. -/
def flush (word : List Char) (ts : List Token) : List Token :=
  if word.isEmpty then ts else String.ofList word :: ts

/-- The word that the characters begin with (empty if a space or a parenthesis comes first), and the
tokens after that word. -/
def cut : List Char → List Char × List Token
  | [] => ([], [])
  | c :: cs =>
    let (word, ts) := cut cs
    if c = ' ' then ([], flush word ts)
    else if c = '(' then ([], "(" :: flush word ts)
    else if c = ')' then ([], ")" :: flush word ts)
    else (c :: word, ts)

/-- The tokens of a list of characters. -/
def ofChars (cs : List Char) : List Token := flush (cut cs).1 (cut cs).2

/-- The tokens of a text. -/
def lex (s : String) : List Token := ofChars s.toList

/-! ## One character at a time -/

@[simp] theorem flush_nil (ts : List Token) : flush [] ts = ts := rfl

@[simp] theorem flush_cons (c : Char) (cs : List Char) (ts : List Token) :
    flush (c :: cs) ts = String.ofList (c :: cs) :: ts := rfl

@[simp] theorem ofChars_nil : ofChars [] = [] := rfl

@[simp] theorem ofChars_space (cs : List Char) : ofChars (' ' :: cs) = ofChars cs := rfl

@[simp] theorem ofChars_opening (cs : List Char) : ofChars ('(' :: cs) = "(" :: ofChars cs := rfl

@[simp] theorem ofChars_closing (cs : List Char) : ofChars (')' :: cs) = ")" :: ofChars cs := rfl

end Propositional.Token

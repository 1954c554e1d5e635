import Propositional.Letter
import Propositional.Operator

/-!
# Tokens

A token is any text; what a statement makes of it depends on its `kind` alone. Tokens are written
one after the other with a single space between them.
-/

namespace Propositional

/-- A piece of a statement: a parenthesis or a word. -/
abbrev Token := String

namespace Token

/-- What a token stands for. -/
inductive Kind
  /-- The token `(`. -/
  | opening
  /-- The token `)`. -/
  | closing
  /-- One capital letter. -/
  | letter (v : Letter)
  /-- A spelling of an operator. -/
  | operator (op : Operator)
  /-- Anything else, also the empty text. -/
  | other
deriving DecidableEq, Repr

/-- The kind of a token. -/
def kind (t : Token) : Kind :=
  if t = "(" then .opening
  else if t = ")" then .closing
  else match Operator.ofSpelling? t with
    | some op => .operator op
    | none => match Letter.ofName? t with
      | some v => .letter v
      | none => .other

/-- The token is one capital letter. -/
def isLetter (t : Token) : Bool := (Letter.ofName? t).isSome

/-- The token is a parenthesis. -/
def isParen (t : Token) : Bool := t == "(" || t == ")"

/-- The operator that the token spells, if any. -/
def operator? (t : Token) : Option Operator := Operator.ofSpelling? t

/-- The tokens one after the other, with a space between two of them. -/
def text (ts : List Token) : String := " ".intercalate ts

/-! ## Kinds of single tokens -/

@[simp] theorem kind_opening : kind "(" = .opening := rfl

@[simp] theorem kind_closing : kind ")" = .closing := rfl

theorem kind_eq_opening_iff {t : Token} : kind t = .opening ↔ t = "(" := by
  unfold kind
  repeat' split
  all_goals simp_all

theorem kind_eq_closing_iff {t : Token} : kind t = .closing ↔ t = ")" := by
  unfold kind
  repeat' split
  all_goals simp_all

theorem isParen_iff {t : Token} : isParen t = true ↔ t = "(" ∨ t = ")" := by
  simp [isParen]

theorem isParen_iff_kind {t : Token} :
    isParen t = true ↔ kind t = .opening ∨ kind t = .closing := by
  rw [isParen_iff, kind_eq_opening_iff, kind_eq_closing_iff]

/-- Every spelling of an operator has the operator's kind. -/
theorem kind_eq_operator_iff {t : Token} {op : Operator} :
    kind t = .operator op ↔ operator? t = some op := by
  have hopen : operator? "(" = none := by decide
  have hclose : operator? ")" = none := by decide
  unfold kind
  repeat' split
  all_goals simp_all [operator?]

/-- Every capital letter has the letter's kind. -/
theorem kind_eq_letter_iff {t : Token} {v : Letter} :
    kind t = .letter v ↔ Letter.ofName? t = some v := by
  constructor
  · intro h
    unfold kind at h
    repeat' split at h
    all_goals simp_all
  · intro h
    obtain rfl := Letter.ofName?_eq_some_iff.1 h
    have hword : ∀ c d : Char, ∀ w, v.name ≠ String.ofList (c :: d :: w) := by
      intro c d w hc
      have := congrArg String.toList hc
      simp at this
    have hspell : Operator.ofSpelling? v.name = none := by
      rw [Option.eq_none_iff_forall_ne_some]
      intro op hop
      rw [Operator.ofSpelling?_eq_some_iff] at hop
      have hmem := (List.filter_sublist.map Prod.fst).subset hop
      simp only [Operator.spellingTable, List.map_cons, List.map_nil, List.mem_cons,
        List.not_mem_nil, or_false] at hmem
      rcases hmem with h | h | h | h | h | h | h
      · exact hword 'n' 'o' ['t'] h
      · exact hword 'a' 'n' ['d'] h
      · exact hword 'o' 'r' [] h
      · exact hword 'e' 'q' [] h
      · exact hword '<' '=' ['>'] h
      · exact hword 'i' 'm' ['p', 'l'] h
      · exact hword '=' '>' [] h
    have hparen : v.name ≠ "(" ∧ v.name ≠ ")" := by
      constructor <;> intro hv <;> rw [hv] at h <;> revert h <;> simp [Letter.ofName?, Letter.ofChar?]
    unfold kind
    rw [if_neg hparen.1, if_neg hparen.2, hspell]
    simp

end Token

end Propositional

/-!
# Operators

The connectives of propositional logic, with their spellings in a statement, the order in which they
bind, the symbols that stand for them in a heading, and their truth functions.

The higher the rank, the looser an operator binds and the nearer it comes to the root of the tree.
The two conditionals share the loosest rank and have no order between them.
-/

namespace Propositional

/-- A connective; `identity` is the operator of a statement that is a lone letter. -/
inductive Operator
  | identity
  | not
  | and
  | or
  | implies
  | equivalent
deriving DecidableEq, Repr

namespace Operator

/-- Every spelling that is read as an operator. -/
def spellingTable : List (String × Operator) :=
  [("not", .not), ("and", .and), ("or", .or), ("eq", .equivalent), ("<=>", .equivalent),
   ("impl", .implies), ("=>", .implies)]

/-- The operator that a token spells; upper and lower case differ. -/
def ofSpelling? (t : String) : Option Operator :=
  (spellingTable.find? fun entry => entry.1 = t).map Prod.snd

/-- The spellings of an operator, in the order of the table. -/
def spellings (op : Operator) : List String :=
  (spellingTable.filter fun entry => entry.2 = op).map Prod.fst

/-- How loosely an operator binds. -/
def rank : Operator → Nat
  | identity => 0
  | not => 1
  | and => 2
  | or => 3
  | implies => 4
  | equivalent => 4

/-- The number of operands. -/
def arity : Operator → Nat
  | identity => 1
  | not => 1
  | _ => 2

/-- The operator takes two operands. -/
def isBinary (op : Operator) : Bool := op.arity == 2

/-- The two operators that may not meet without parentheses between them. -/
def isConditional : Operator → Bool
  | implies => true
  | equivalent => true
  | _ => false

/-- The spelling used when an operator is named in a message or a tree. -/
def name : Operator → String
  | identity => ""
  | not => "not"
  | and => "and"
  | or => "or"
  | implies => "=>"
  | equivalent => "<=>"

/-- The mathematical sign. -/
def glyph : Operator → String
  | identity => ""
  | not => "¬"
  | and => "∧"
  | or => "∨"
  | implies => "⇒"
  | equivalent => "⇔"

/-- The LaTeX command for the sign. -/
def latex : Operator → String
  | identity => ""
  | not => "\\lnot"
  | and => "\\land"
  | or => "\\lor"
  | implies => "\\Rightarrow"
  | equivalent => "\\Leftrightarrow"

/-- The truth function; the operators of one operand look at the right value only. -/
def apply : Operator → Bool → Bool → Bool
  | identity, _, y => y
  | not, _, y => !y
  | and, x, y => x && y
  | or, x, y => x || y
  | implies, x, y => !x || y
  | equivalent, x, y => x == y

/-! ## Spellings -/

/-- A token spells an operator exactly when it is one of the operator's spellings. -/
theorem ofSpelling?_eq_some_iff {t : String} {op : Operator} :
    ofSpelling? t = some op ↔ t ∈ op.spellings := by
  by_cases ht : t ∈ spellingTable.map Prod.fst
  · simp only [spellingTable, List.map_cons, List.map_nil, List.mem_cons, List.not_mem_nil,
      or_false] at ht
    rcases ht with rfl | rfl | rfl | rfl | rfl | rfl | rfl <;> cases op <;> decide
  · have hfind : ofSpelling? t = none := by
      simp only [ofSpelling?, Option.map_eq_none_iff, List.find?_eq_none, decide_eq_true_eq]
      exact fun entry hentry h => ht (h ▸ List.mem_map_of_mem hentry)
    have hmem : t ∉ op.spellings := fun h =>
      ht ((List.filter_sublist.map Prod.fst).subset h)
    simp [hfind, hmem]

/-- Every operator but `identity` is read back from its name. -/
theorem ofSpelling?_name {op : Operator} (h : op ≠ identity) : ofSpelling? op.name = some op := by
  revert h
  cases op <;> decide

/-- No spelling is read as `identity`. -/
theorem ofSpelling?_ne_identity (t : String) : ofSpelling? t ≠ some identity := by
  simp [ofSpelling?_eq_some_iff, spellings, spellingTable]

end Operator

end Propositional

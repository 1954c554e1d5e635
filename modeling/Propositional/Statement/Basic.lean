import Propositional.Formula

/-!
# Statements

A statement is a formula in which every node keeps its literal, the text that the node stands for, and
the set of the letters below it. Two statements are equal when they have the same shape, the same letters
and operators, and at every node the same literal and the same set. Which sets the nodes keep is up to who
makes the nodes: the reader, which writes them as it goes.
-/

namespace Propositional

/-- A statement of propositional logic with the text and the set of letters of each of its parts. -/
inductive Statement
  | letter (literal : String) (letters : LetterSet) (v : Letter)
  | negation (literal : String) (letters : LetterSet) (operand : Statement)
  | binary (literal : String) (letters : LetterSet) (op : Operator) (left right : Statement)
deriving DecidableEq, Repr

namespace Statement

/-- The statement of one letter. -/
def ofLetter (v : Letter) : Statement := letter v.name (.singleton v) v

/-- The text that the whole statement stands for. -/
def literal : Statement → String
  | letter text _ _ => text
  | negation text _ _ => text
  | binary text _ _ _ _ => text

/-- The set of letters that the root keeps. -/
def letters : Statement → LetterSet
  | letter _ vs _ => vs
  | negation _ vs _ => vs
  | binary _ vs _ _ _ => vs

/-- The operator at the root. -/
def operator : Statement → Operator
  | letter _ _ _ => .identity
  | negation _ _ _ => .not
  | binary _ _ op _ _ => op

/-- The tree without the texts and the sets. -/
def formula : Statement → Formula
  | letter _ _ v => .letter v
  | negation _ _ s => .negation s.formula
  | binary _ _ op l r => .binary op l.formula r.formula

/-- The height of the tree. -/
def depth (s : Statement) : Nat := s.formula.depth

/-- The operands of the root, from left to right. -/
def operands : Statement → List Statement
  | letter _ _ _ => []
  | negation _ _ s => [s]
  | binary _ _ _ l r => [l, r]

/-- All nodes: each before the nodes of its operands, the left operand first. -/
def nodes : Statement → List Statement
  | letter text vs v => [letter text vs v]
  | negation text vs s => negation text vs s :: s.nodes
  | binary text vs op l r => binary text vs op l r :: (l.nodes ++ r.nodes)

@[simp] theorem self_mem_nodes (s : Statement) : s ∈ s.nodes := by
  cases s <;> simp [nodes]

end Statement

end Propositional

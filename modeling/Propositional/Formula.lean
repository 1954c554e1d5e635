import Propositional.LetterSet
import Propositional.Operator

/-!
# Formulas

A formula is the tree that a statement means, without the text it was read from. Its value under
truth values for all letters is the usual one.
-/

namespace Propositional

/-- A formula over the letters. -/
inductive Formula
  | letter (v : Letter)
  | negation (operand : Formula)
  | binary (op : Operator) (left right : Formula)
deriving DecidableEq, Repr

namespace Formula

/-- The value of a formula when every letter has a truth value. -/
def value (truth : Letter → Bool) : Formula → Bool
  | letter v => truth v
  | negation f => !f.value truth
  | binary op l r => op.apply (l.value truth) (r.value truth)

/-- The letters at the leaves, from left to right, with repetitions. -/
def leaves : Formula → List Letter
  | letter v => [v]
  | negation f => f.leaves
  | binary _ l r => l.leaves ++ r.leaves

/-- The height of the tree; a letter has height 0. -/
def depth : Formula → Nat
  | letter _ => 0
  | negation f => f.depth + 1
  | binary _ l r => max l.depth r.depth + 1

/-- The value depends on the letters at the leaves only. -/
theorem value_congr {s t : Letter → Bool} (f : Formula) (h : ∀ v ∈ f.leaves, s v = t v) :
    f.value s = f.value t := by
  induction f with
  | letter v => exact h v (List.mem_singleton_self v)
  | negation f ih => simp only [value, ih h]
  | binary op l r ihl ihr =>
    simp only [value]
    rw [ihl fun v hv => h v (List.mem_append_left _ hv),
      ihr fun v hv => h v (List.mem_append_right _ hv)]

end Formula

end Propositional

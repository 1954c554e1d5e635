import Propositional.Statement.Basic
import Propositional.Valuation

/-!
# Values of statements

A statement is evaluated from left to right, and always to the end: a letter without a value is a
fault also where the other operand alone would settle the result.
-/

namespace Propositional.Statement

/-- The value of a statement, or the first of its letters without a value. -/
def value (a : Valuation) : Statement → Except Unassigned Bool
  | letter _ _ v => a.value v
  | negation _ _ s => do
    let x ← s.value a
    return !x
  | binary _ _ op l r => do
    let x ← l.value a
    let y ← r.value a
    return op.apply x y

/-- Where every letter has a value, the value is that of the formula. -/
theorem value_eq_ok {a : Valuation} {truth : Letter → Bool} (s : Statement)
    (h : ∀ v ∈ s.formula.leaves, a.get? v = some (truth v)) :
    s.value a = .ok (s.formula.value truth) := by
  induction s with
  | letter text vs v =>
    simp only [value, Valuation.value, formula, Formula.value,
      h v (by simp [formula, Formula.leaves])]
  | negation text vs s ih =>
    simp only [value, ih h]
    rfl
  | binary text vs op l r ihl ihr =>
    simp only [value, ihl fun v hv => h v (List.mem_append_left _ hv),
      ihr fun v hv => h v (List.mem_append_right _ hv)]
    rfl

end Propositional.Statement

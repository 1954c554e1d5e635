import Propositional.Formula

/-!
# What a formula says

`Holds` is the usual meaning of a formula, in the connectives of logic and without truth tables. The
value of a formula says the same (`value_eq_true_iff`) when every node with two operands has one of
the four operators that take two (`Proper`).
-/

namespace Propositional

/-- What an operator of two operands says of them. -/
def Operator.Connects : Operator → Prop → Prop → Prop
  | and, p, q => p ∧ q
  | or, p, q => p ∨ q
  | implies, p, q => p → q
  | equivalent, p, q => (p ↔ q)
  | _, _, _ => False

theorem Operator.apply_eq_true_iff {op : Operator} (h : op.isBinary = true) (x y : Bool) :
    op.apply x y = true ↔ op.Connects (x = true) (y = true) := by
  cases op with
  | identity => cases h
  | not => cases h
  | and => simp [apply, Connects]
  | or => simp [apply, Connects]
  | implies => cases x <;> simp [apply, Connects]
  | equivalent => cases x <;> cases y <;> simp [apply, Connects]

namespace Formula

/-- The operator at the root. -/
def root : Formula → Operator
  | letter _ => .identity
  | negation _ => .not
  | binary op _ _ => op

/-- Every node with two operands has an operator that takes two. -/
def Proper : Formula → Prop
  | letter _ => True
  | negation f => f.Proper
  | binary op f g => op.isBinary = true ∧ f.Proper ∧ g.Proper

def Holds (truth : Letter → Prop) : Formula → Prop
  | letter v => truth v
  | negation f => ¬ f.Holds truth
  | binary op f g => op.Connects (f.Holds truth) (g.Holds truth)

theorem value_eq_true_iff {f : Formula} (h : f.Proper) (truth : Letter → Bool) :
    f.value truth = true ↔ f.Holds fun v => truth v = true := by
  induction f with
  | letter v => exact Iff.rfl
  | negation f ih =>
    rw [value, Holds, ← ih h, Bool.not_eq_true', Bool.not_eq_true]
  | binary op f g ihf ihg =>
    obtain ⟨hop, hf, hg⟩ := h
    rw [value, Operator.apply_eq_true_iff hop, Holds, propext (ihf hf), propext (ihg hg)]

theorem holds_congr {p q : Letter → Prop} (f : Formula) (h : ∀ v ∈ f.leaves, (p v ↔ q v)) :
    f.Holds p ↔ f.Holds q := by
  induction f with
  | letter v => exact h v (List.mem_singleton_self v)
  | negation f ih => rw [Holds, Holds, ih h]
  | binary op f g ihf ihg =>
    have hf := ihf fun v hv => h v (List.mem_append_left _ hv)
    have hg := ihg fun v hv => h v (List.mem_append_right _ hv)
    rw [Holds, Holds, propext hf, propext hg]

end Formula

end Propositional

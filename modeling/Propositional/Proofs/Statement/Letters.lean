import Propositional.Proofs.Statement.Reader

/-!
# The letters that a node keeps

Nothing in the form of a statement makes the set that a node keeps that of the letters below it: a statement
may be put together with any sets. The reader keeps the sets right (`Exact`), one lemma for each kind of node
that it makes: at a leaf it writes the set of the one letter, a negation gets the set of its operand, and two
operands get theirs joined. So the set at the root of whatever is read has the letters at the leaves and no
others (`exact_of_ofSpan`).
-/

namespace Propositional.Statement

/-- The set that the root keeps is that of the letters at the leaves. -/
def Exact (s : Statement) : Prop := s.letters = .ofList s.formula.leaves

namespace Exact

variable {s l r : Statement}

theorem letters_eq (h : s.Exact) : s.letters = .ofList s.formula.leaves := h

theorem mem_letters (h : s.Exact) {v : Letter} : v ∈ s.letters ↔ v ∈ s.formula.leaves := by
  rw [h.letters_eq, LetterSet.mem_ofList]

theorem letter (text : String) (v : Letter) : (letter text (.singleton v) v).Exact :=
  (LetterSet.ofList_singleton v).symm

theorem negation (h : s.Exact) (text : String) : (negation text s.letters s).Exact := h

theorem binary (hl : l.Exact) (hr : r.Exact) (text : String) (op : Operator) :
    (binary text (l.letters.union r.letters) op l r).Exact := by
  rw [Exact, formula, Formula.leaves, LetterSet.ofList_append, ← hl.letters_eq, ← hr.letters_eq]
  rfl

end Exact

/-- Whatever is read is exact, whether or not the parentheses of the list pair up. -/
theorem exact_of_ofSpan {l : String} {ts : List Token} {s : Statement}
    (h : (ofSpan l ts).result = .ok s) : s.Exact := by
  refine ofSpan_induction (P := fun _ s => s.Exact) (fun l ts v hts => ?_)
    (fun l ts us t vs a hts hroot hus ih => ?_) (fun l op ts us t vs a b hts hroot hop iha ihb => ?_) h
  · exact .letter l v
  · exact ih.negation l
  · exact iha.binary ihb l op

theorem exact_of_ofPaired {l : String} {ts : List Token} {s : Statement}
    (h : (ofPaired l ts).result = .ok s) : s.Exact :=
  exact_of_ofSpan (ofSpan_of_ofPaired h).2

end Propositional.Statement

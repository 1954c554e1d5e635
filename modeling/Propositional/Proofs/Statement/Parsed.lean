import Propositional.Proofs.Statement.Grammar
import Propositional.Proofs.Statement.Letters
import Propositional.Proofs.Statement.Text

/-!
# Statements that were read

A statement is `Parsed` when a list of tokens or a text is read as it. Its formula is then derived by
the grammar, so that every node with two operands has an operator that takes two, and its root keeps the
letters at its leaves.
-/

namespace Propositional

/-- The statement is what some list of tokens or some text is read as. -/
def Statement.Parsed (s : Statement) : Prop :=
  (∃ ts, Statement.ofTokens ts = .ok s) ∨ ∃ expression, Statement.ofText expression = .ok s

namespace Statement

/-- A text is read as its tokens are. -/
theorem ofPaired_of_ofText {expression : String} {s : Statement} (h : ofText expression = .ok s) :
    (ofPaired (Text.trim expression) (Token.lex (Text.trim expression))).result = .ok s := by
  rwa [ofText, readText_eq, Reading.result_mapError_eq_ok_iff] at h

/-- From tokens or from a text, a statement was read from a list in which all parentheses pair up. -/
theorem Parsed.exists_ofPaired {s : Statement} (h : s.Parsed) :
    ∃ l ts, (ofPaired l ts).result = .ok s := by
  rcases h with ⟨ts, hts⟩ | ⟨expression, hexpression⟩
  · exact ⟨_, ts, hts⟩
  · exact ⟨_, _, ofPaired_of_ofText hexpression⟩

theorem Parsed.proper {s : Statement} (h : s.Parsed) : s.formula.Proper := by
  obtain ⟨l, ts, hread⟩ := h.exists_ofPaired
  exact (derives_of_ofPaired hread).proper

theorem Parsed.exact {s : Statement} (h : s.Parsed) : s.Exact := by
  obtain ⟨l, ts, hread⟩ := h.exists_ofPaired
  exact exact_of_ofPaired hread

end Statement

end Propositional

import Propositional.Proofs.Statement.Reader

/-!
# The literal of the root

The literal that a statement is to have is handed to the reader along with the tokens. It ends up at
the root and has no other effect: with another literal the reader gives the same statement but for the
root's literal, or fails for the same reason (`result_ofSpan`).
-/

namespace Propositional.Statement

open Token

/-- The statement with the given literal at its root, and all below the root as it was. -/
def withLiteral (text : String) : Statement → Statement
  | letter _ vs v => letter text vs v
  | negation _ vs s => negation text vs s
  | binary _ vs op l r => binary text vs op l r

@[simp] theorem letters_withLiteral (text : String) (s : Statement) :
    (s.withLiteral text).letters = s.letters := by
  cases s <;> rfl

/-! ## Literals and readings -/

theorem ofOperatorless_eq_map (l m : String) (ts : List Token) :
    ofOperatorless l ts = (ofOperatorless m ts).map (withLiteral l) := by
  unfold ofOperatorless
  split
  · rfl
  · split <;> rfl
  · rfl

/-- The literal has no say in what a list of tokens is read as, the root's literal apart. -/
theorem result_ofSpan (l m : String) (ts : List Token) :
    (ofSpan l ts).result = (ofSpan m ts).result.map (withLiteral l) := by
  rcases Root.root_cases (strip ts) with hops | hcount | ⟨op, us, t, vs, hts, hroot⟩
  · rw [ofSpan_absent l hops, ofSpan_absent m hops]
    exact ofOperatorless_eq_map l m (strip ts)
  · rw [ofSpan_ambiguous l hcount, ofSpan_ambiguous m hcount]
    rfl
  · -- both sides of the root are read with literals of their own
    rw [← ofSpan_strip l, ← ofSpan_strip m, hts, ofSpan_isRoot l hroot, ofSpan_isRoot m hroot,
      Reading.result_noting, Reading.result_noting]
    split
    · rfl
    · split
      · split
        · rw [Reading.result_map, Reading.result_map]
          cases (ofSpan (text (strip vs)) vs).result <;> rfl
        · rfl
      · split
        · rfl
        · rw [Reading.result_bind, Reading.result_bind]
          cases (ofSpan (text (strip us)) us).result with
          | error e => rfl
          | ok a =>
            simp only [Except.bind, Reading.result_map]
            cases (ofSpan (text (strip vs)) vs).result <;> rfl

theorem ofSpan_error_congr {l : String} {ts : List Token} {e : Malformed}
    (h : (ofSpan l ts).result = .error e) (m : String) : (ofSpan m ts).result = .error e := by
  rw [result_ofSpan m l, h]
  rfl

theorem literal_of_ofSpan {l : String} {ts : List Token} {s : Statement}
    (h : (ofSpan l ts).result = .ok s) : s.literal = l := by
  rcases ofSpan_ok_cases h with ⟨_, _, rfl⟩ | ⟨_, _, _, _, _, _, _, _, rfl⟩ |
    ⟨_, _, _, _, _, _, _, _, _, _, _, rfl⟩ <;> rfl

theorem literal_of_ofTokens {ts : List Token} {s : Statement} (h : ofTokens ts = .ok s) :
    s.literal = text ts :=
  literal_of_ofSpan (ofSpan_of_ofPaired h).2

end Propositional.Statement

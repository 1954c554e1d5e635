import Propositional.Proofs.Statement.Fault
import Propositional.Proofs.Statement.Nodes

/-!
# A text and its tokens

Reading a text and reading the tokens of the trimmed text differ in nothing but what is kept of the
text: the literal at the root, and the text that two kinds of faults carry. The tokens alone decide
which statement or which fault it is.
-/

namespace Propositional

open Token

/-- The fault with the given text, if it is one of the two that are laid to a text as a whole. -/
def Malformed.carrying (text : String) : Malformed → Malformed
  | unbalanced _ => unbalanced text
  | ambiguousPrecedence _ => ambiguousPrecedence text
  | e => e

theorem Malformed.carrying_eq_blaming {e : Malformed} (h : ∀ x, e ≠ .unbalanced x) (text : String) :
    e.carrying text = e.blaming text := by
  cases e with
  | unbalanced x => exact absurd rfl (h x)
  | _ => rfl

namespace Statement

theorem ofText_of_ofTokens_ok {expression : String} {s : Statement}
    (h : ofTokens (lex (Text.trim expression)) = .ok s) :
    ofText expression = .ok (s.withLiteral (Text.trim expression)) := by
  obtain ⟨hbalanced, hread⟩ := ofSpan_of_ofPaired h
  rw [ofText, readText_eq, Reading.result_mapError_eq_ok_iff, ofPaired, if_pos hbalanced,
    result_ofSpan _ _ _, hread]
  rfl

theorem ofText_of_ofTokens_error {expression : String} {e : Malformed}
    (h : ofTokens (lex (Text.trim expression)) = .error e) :
    ofText expression = .error (e.carrying (Text.trim expression)) := by
  rw [ofText, readText_eq, Reading.result_mapError, ofPaired]
  rcases ofTokens_error_cases h with ⟨hbalanced, rfl⟩ | ⟨hbalanced, hne, -⟩
  · simp only [hbalanced, Bool.false_eq_true, if_false]
    rfl
  · rw [ofTokens_of_balanced hbalanced] at h
    rw [if_pos hbalanced, ofSpan_error_congr h, Malformed.carrying_eq_blaming hne]
    rfl

/-- A text is read as the tokens of the trimmed text are: as the same statement but for the literal at
the root, which is the trimmed text in one case and the joined tokens in the other, or with the same
fault but for the text that it carries. So texts with the same tokens have the same outcome. -/
theorem ofText_agrees_with_ofTokens (expression : String) :
    let text := Text.trim expression
    let ts := lex text
    ((∃ s : Statement, ofTokens ts = .ok s ∧ ofText expression = .ok (s.withLiteral text) ∧
        s.literal = Token.text ts ∧ (s.withLiteral text).letters = s.letters) ∨
      ∃ e : Malformed, ofTokens ts = .error e ∧ ofText expression = .error (e.carrying text) ∧
        (∀ x, e = .unbalanced x → x = Token.text ts) ∧
        ∀ x, e = .ambiguousPrecedence x →
          ∃ span, Subspan ts span ∧ x = Token.text span ∧ ofTokens span = .error e) ∧
      ∀ other, lex (Text.trim other) = ts →
        (∃ s : Statement, ofText expression = .ok (s.withLiteral text) ∧
          ofText other = .ok (s.withLiteral (Text.trim other))) ∨
        ∃ e : Malformed, ofText expression = .error (e.carrying text) ∧
          ofText other = .error (e.carrying (Text.trim other)) := by
  intro text ts
  cases h : ofTokens ts with
  | ok s =>
    have htext : ofText expression = .ok (s.withLiteral text) := ofText_of_ofTokens_ok h
    refine ⟨Or.inl ⟨s, rfl, htext, literal_of_ofTokens h, letters_withLiteral text s⟩, ?_⟩
    exact fun other hother => Or.inl ⟨s, htext, ofText_of_ofTokens_ok (hother ▸ h)⟩
  | error e =>
    have htext : ofText expression = .error (e.carrying text) := ofText_of_ofTokens_error h
    refine ⟨Or.inr ⟨e, rfl, htext, ?_, ?_⟩, ?_⟩
    · rintro x rfl
      rcases ofTokens_error_cases h with ⟨-, hx⟩ | ⟨-, hne, -⟩
      · exact Malformed.unbalanced.inj hx
      · exact absurd rfl (hne x)
    · rintro x rfl
      rcases ofTokens_error_cases h with ⟨-, hx⟩ | ⟨-, -, span, hspan, htext, hread, -⟩
      · cases hx
      · exact ⟨span, hspan, htext, hread⟩
    · exact fun other hother => Or.inr ⟨e, htext, ofText_of_ofTokens_error (hother ▸ h)⟩

/-- Two ways to space out `C and (A => B <=> C)`, one with blanks that are no spaces at the ends: the
fault is the same, but for the text. -/
theorem ofText_agrees_with_ofTokens_ambiguous :
    let expression := "C and (A => B <=> C)"
    let other := "\u00a0C and( A =>  B <=> C)\u2003"
    lex (Text.trim other) = lex (Text.trim expression) ∧
      ofText expression = .error (.ambiguousPrecedence "C and (A => B <=> C)") ∧
      ofText other = .error (.ambiguousPrecedence "C and( A =>  B <=> C)") := by
  intro expression other
  have hlex : lex (Text.trim other) = lex (Text.trim expression) := by decide +kernel
  have htext : ofText expression = .error (.ambiguousPrecedence "C and (A => B <=> C)") := by
    decide +kernel
  have htrim : Text.trim other = "C and( A =>  B <=> C)" := by decide +kernel
  refine ⟨hlex, htext, ?_⟩
  rcases (ofText_agrees_with_ofTokens expression).2 other hlex with ⟨s, hs, -⟩ | ⟨e, he, hother⟩
  · rw [htext] at hs
    cases hs
  · rw [hother, htrim]
    rw [htext] at he
    cases e with
    | ambiguousPrecedence x => rfl
    | _ => cases he

end Statement

end Propositional

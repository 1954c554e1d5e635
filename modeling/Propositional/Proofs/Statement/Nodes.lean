import Propositional.Proofs.Statement.Literal
import Propositional.Proofs.Statement.Parsed
import Propositional.Proofs.Statement.Subspan

/-!
# The nodes of a statement that was read

The literal of a statement that was read is a text that is read as this statement
(`Parsed.ofText_literal`), wherever the statement came from. Each operand was read from a subspan of
the tokens of that literal, and was itself read from tokens (`Parsed.operand`), so that what holds of
every statement that was read holds of all its nodes (`Parsed.node`).
-/

namespace Propositional.Statement

open Token

/-- The reader makes each operand from a subspan that it could have been given by itself. -/
theorem exists_subspan_of_mem_operands {l : String} {ts : List Token} {s a : Statement}
    (h : (ofSpan l ts).result = .ok s) (hbalanced : balanced ts = true) (ha : a ∈ s.operands) :
    ∃ us, Subspan ts us ∧ ofTokens us = .ok a := by
  rcases ofSpan_ok_cases h with ⟨v, -, rfl⟩ | ⟨us, t, vs, b, hts, hroot, -, hb, rfl⟩ |
    ⟨op, us, t, vs, b, c, hts, hroot, -, hb, hc, rfl⟩
  · cases ha
  · obtain ⟨-, hpart, hright⟩ := hroot.sides hts hbalanced
    rw [operands, List.mem_singleton] at ha
    exact ⟨strip vs, .of_part hpart hright, by rw [ofTokens_strip hright, hb, ha]⟩
  · obtain ⟨⟨hleftPart, hleft⟩, hrightPart, hright⟩ := hroot.sides hts hbalanced
    rw [operands, List.mem_cons, List.mem_singleton] at ha
    rcases ha with rfl | rfl
    · exact ⟨strip us, .of_part hleftPart hleft, by rw [ofTokens_strip hleft, hb]⟩
    · exact ⟨strip vs, .of_part hrightPart hright, by rw [ofTokens_strip hright, hc]⟩

/-! ## Literals -/

/-- Trimming a text beforehand makes no difference. -/
theorem ofText_trim (expression : String) : ofText (Text.trim expression) = ofText expression := by
  rw [ofText, ofText, readText_eq, Text.trim_trim, ← readText_eq]

theorem literal_of_ofText {expression : String} {s : Statement} (h : ofText expression = .ok s) :
    s.literal = Text.trim expression :=
  literal_of_ofSpan (ofSpan_of_ofPaired (ofPaired_of_ofText h)).2

/-- Accepted tokens hold nothing but parentheses and words with a meaning. -/
theorem kind_ne_other_of_ofTokens {ts : List Token} {s : Statement} (h : ofTokens ts = .ok s) :
    ∀ t ∈ ts, kind t ≠ .other :=
  (derives_of_ofPaired h).kind_ne_other

theorem ne_nil_of_ofTokens {ts : List Token} {s : Statement} (h : ofTokens ts = .ok s) : ts ≠ [] := by
  rintro rfl
  exact strip_ne_nil_of_ok (ofSpan_of_ofPaired h).2 strip_nil

/-- Writing accepted tokens out and cutting the text again changes nothing. -/
theorem lex_literal_of_ofTokens {ts : List Token} {s : Statement} (h : ofTokens ts = .ok s) :
    lex s.literal = ts := by
  rw [literal_of_ofTokens h, lex_text fun t ht => clean_of_kind (kind_ne_other_of_ofTokens h t ht)]

theorem ofText_text_of_ofTokens {ts : List Token} {s : Statement} (h : ofTokens ts = .ok s) :
    ofText (text ts) = .ok s := by
  rw [ofText, readText_of_spaced (spaced_text (ne_nil_of_ofTokens h)) (kind_ne_other_of_ofTokens h)]
  exact Reading.result_mapError_eq_ok_iff.2 h

namespace Parsed

variable {s a : Statement}

theorem ofText_literal (h : s.Parsed) : ofText s.literal = .ok s := by
  rcases h with ⟨ts, hts⟩ | ⟨expression, hexpression⟩
  · rw [literal_of_ofTokens hts, ofText_text_of_ofTokens hts]
  · rw [literal_of_ofText hexpression, ofText_trim, hexpression]

/-- The tokens of the literal are read as the statement, and pair up. -/
theorem ofSpan_lex (h : s.Parsed) :
    balanced (lex s.literal) = true ∧ (ofSpan s.literal (lex s.literal)).result = .ok s := by
  have hliteral := h.ofText_literal
  have hread := ofPaired_of_ofText hliteral
  rw [← literal_of_ofText hliteral] at hread
  exact ofSpan_of_ofPaired hread

theorem derives (h : s.Parsed) : Derives .conditional (lex s.literal) s.formula :=
  derives_of_ofSpan h.ofSpan_lex.2 .conditional fun o _ => o.rank_le

theorem operand (h : s.Parsed) (ha : a ∈ s.operands) :
    a.Parsed ∧ Subspan (lex s.literal) (lex a.literal) := by
  obtain ⟨hbalanced, hs⟩ := h.ofSpan_lex
  obtain ⟨us, hsubspan, hus⟩ := exists_subspan_of_mem_operands hs hbalanced ha
  rw [lex_literal_of_ofTokens hus]
  exact ⟨Or.inl ⟨us, hus⟩, hsubspan⟩

theorem node {n : Statement} (h : s.Parsed) (hn : n ∈ s.nodes) : n.Parsed := by
  induction s with
  | letter text vs v =>
    rw [nodes, List.mem_singleton] at hn
    exact hn ▸ h
  | negation text vs b ih =>
    rcases List.mem_cons.1 hn with rfl | hn
    · exact h
    · exact ih (h.operand (by simp [operands])).1 hn
  | binary text vs op b c ihb ihc =>
    rcases List.mem_cons.1 hn with rfl | hn
    · exact h
    · rcases List.mem_append.1 hn with hn | hn
      · exact ihb (h.operand (by simp [operands])).1 hn
      · exact ihc (h.operand (by simp [operands])).1 hn

end Parsed

/-- Each node of a statement that was read is what its own literal is read as, down to the literals of
all nodes below it, so that a literal stands for one statement only. -/
theorem literal_denotes_node {s : Statement} (hs : s.Parsed) :
    (∀ n ∈ s.nodes, ofText n.literal = .ok n) ∧
      ∀ t : Statement, t.Parsed → ∀ m ∈ s.nodes, ∀ n ∈ t.nodes, (m = n ↔ m.literal = n.literal) := by
  refine ⟨fun n hn => (hs.node hn).ofText_literal, fun t ht m hm n hn => ?_⟩
  constructor
  · rintro rfl
    rfl
  · intro hliteral
    have hm' := (hs.node hm).ofText_literal
    rw [hliteral, (ht.node hn).ofText_literal] at hm'
    exact (Except.ok.inj hm').symm

/-- The node `B or C` of a text with spaces to spare, and the node with this literal that was read
from tokens. -/
theorem literal_denotes_node_or :
    let node : Statement := .binary "B or C" (.ofList [⟨1⟩, ⟨2⟩]) .or (.ofLetter ⟨1⟩) (.ofLetter ⟨2⟩)
    let s : Statement := .binary "A  and(B  or C)" (.ofList [⟨0⟩, ⟨1⟩, ⟨2⟩]) .and (.ofLetter ⟨0⟩) node
    let t : Statement := .negation "( not ( B or C ) )" (.ofList [⟨1⟩, ⟨2⟩]) node
    s.Parsed ∧ t.Parsed ∧ ofText "A  and(B  or C)" = .ok s ∧
      ∀ m ∈ s.nodes, m.literal = "B or C" → m ∈ t.nodes ∧ ofText m.literal = .ok m := by
  intro node s t
  have hs : s.Parsed := Or.inr ⟨" A  and(B  or C)\u3000", by decide +kernel⟩
  have ht : t.Parsed :=
    Or.inl ⟨["(", "not", "(", "B", "or", "C", ")", ")"], by decide +kernel⟩
  obtain ⟨hdenotes, hequal⟩ := literal_denotes_node hs
  refine ⟨hs, ht, hdenotes s s.self_mem_nodes, fun m hm hliteral => ?_⟩
  have hnode : node ∈ t.nodes := by simp [t, node, nodes]
  have hmnode := (hequal t ht m hm _ hnode).2 hliteral
  exact ⟨hmnode ▸ hnode, hdenotes m hm⟩

end Propositional.Statement

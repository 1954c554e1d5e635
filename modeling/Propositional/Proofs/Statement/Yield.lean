import Propositional.Proofs.Statement.Nodes

/-!
# What stands in a literal

Reading a formula from left to right, with each operator between its operands or before its only one,
gives its `yield`. The tokens of a phrase, without the parentheses, mean the yield of the formula that
it stands for (`Derives.map_kind_words`). So the literal of a node, the letters of the node and the tree
below it tell the same.
-/

namespace Propositional

open Token

/-- The meanings of the words that a formula takes to write, from left to right. -/
def Formula.yield : Formula → List Token.Kind
  | letter v => [.letter v]
  | negation f => .operator .not :: f.yield
  | binary op f g => f.yield ++ .operator op :: g.yield

namespace Token

/-- The tokens that are no parentheses. -/
def words (ts : List Token) : List Token := ts.filter fun t => !isParen t

theorem words_append (us ts : List Token) : words (us ++ ts) = words us ++ words ts :=
  List.filter_append us ts

theorem words_enclosed (ts : List Token) : words (enclosed ts) = words ts := by
  rw [enclosed, words_append]
  simp [words, isParen]

theorem map_kind_words_cons {t : Token} (hopen : kind t ≠ .opening) (hclose : kind t ≠ .closing)
    (ts : List Token) : (words (t :: ts)).map kind = kind t :: (words ts).map kind := by
  have ht : isParen t = false := by
    rw [Bool.eq_false_iff, ne_eq, isParen_iff_kind]
    exact fun h => h.elim hopen hclose
  simp [words, ht]

theorem map_kind_words_joined {us vs : List Token} {t : Token} {op : Operator}
    (h : operator? t = some op) :
    (words (us ++ t :: vs)).map kind =
      (words us).map kind ++ .operator op :: (words vs).map kind := by
  have ht : kind t = .operator op := kind_eq_operator_iff.2 h
  rw [words_append, List.map_append, map_kind_words_cons (by simp [ht]) (by simp [ht]), ht]

end Token

theorem EmptyGroup.words_eq {es : List Token} (h : EmptyGroup es) : words es = [] := by
  induction h with
  | pair => rfl
  | wrap h ih => rw [words_enclosed, ih]

/-- The words of a phrase mean the yield of its formula: none is lost, moved, doubled or foreign. -/
theorem Derives.map_kind_words {p : Phrase} {ts : List Token} {f : Formula} (h : Derives p ts f) :
    (words ts).map kind = f.yield := by
  induction h with
  | letter v =>
    rw [map_kind_words_cons (by simp) (by simp), kind_name]
    rfl
  | group h ih => rw [words_enclosed, ih]
  | @not es ts f he h ih =>
    have hes : words es = [] := by
      rcases he with rfl | he
      · rfl
      · exact he.words_eq
    rw [map_kind_words_joined (operator?_eq_not_iff.2 rfl), hes, ih]
    rfl
  | and hf hg ihf ihg => rw [map_kind_words_joined (operator?_eq_and_iff.2 rfl), ihf, ihg, Formula.yield]
  | or hf hg ihf ihg => rw [map_kind_words_joined (operator?_eq_or_iff.2 rfl), ihf, ihg, Formula.yield]
  | conditional hc hf hg ihf ihg =>
    rw [map_kind_words_joined (mem_conditionalWords_iff.1 hc).1, ihf, ihg, Formula.yield]
  | _ => assumption

namespace Statement

theorem Parsed.map_kind_words {s : Statement} (h : s.Parsed) :
    (words (lex s.literal)).map kind = s.formula.yield :=
  h.derives.map_kind_words

theorem parsed_ofLetter (v : Letter) : (ofLetter v).Parsed :=
  Or.inl ⟨[v.name], by rw [ofTokens, readTokens, text, String.intercalate_singleton, ofPaired_name]; rfl⟩

theorem Parsed.isBinary {text : String} {vs : LetterSet} {op : Operator} {l r : Statement}
    (h : (binary text vs op l r).Parsed) : op.isBinary = true :=
  h.proper.1

/-- For every node of a statement that was read, or that was made of a letter, the words of its literal
mean the yield of the tree below it, the letters that it keeps are those at the leaves of the tree, two
operands have an operator that takes two, and the literal of each operand stands for a subspan of its own. -/
theorem literal_agrees_with_tree {s n : Statement} (h : s.Parsed ∨ ∃ v, s = ofLetter v)
    (hn : n ∈ s.nodes) :
    (words (lex n.literal)).map kind = n.formula.yield ∧
      (∀ v, v ∈ n.letters ↔ v ∈ n.formula.leaves) ∧
      (∀ text vs op l r, n = .binary text vs op l r → op ∈ [.and, .or, .implies, .equivalent]) ∧
      ∀ a ∈ n.operands, Subspan (lex n.literal) (lex a.literal) := by
  have hs : s.Parsed := by
    rcases h with h | ⟨v, rfl⟩
    · exact h
    · exact parsed_ofLetter v
  have hread := hs.node hn
  refine ⟨hread.map_kind_words, fun v => hread.exact.mem_letters, ?_,
    fun a ha => (hread.operand ha).2⟩
  rintro text vs op l r rfl
  have hop := hread.isBinary
  revert hop
  cases op <;> decide

/-- The reading of `( ) not A impl(B)`, where nothing is left of the group before `not` but its
parentheses in the literal. -/
theorem literal_agrees_with_tree_not :
    let n : Statement := .negation "( ) not A" (.singleton ⟨0⟩) (.ofLetter ⟨0⟩)
    let s : Statement := .binary "( ) not A impl(B)" (.ofList [⟨0⟩, ⟨1⟩]) .implies n (.ofLetter ⟨1⟩)
    s.Parsed ∧ n ∈ s.nodes ∧ (words (lex n.literal)).map kind = [.operator .not, .letter ⟨0⟩] ∧
      (∀ v, v ∈ n.letters ↔ v = ⟨0⟩) ∧ Subspan (lex n.literal) (lex "A") := by
  intro n s
  have hs : s.Parsed := Or.inr ⟨"( ) not A impl(B)", by decide +kernel⟩
  have hn : n ∈ s.nodes := by simp [s, nodes]
  obtain ⟨hwords, hletters, -, hoperands⟩ := literal_agrees_with_tree (Or.inl hs) hn
  refine ⟨hs, hn, hwords, fun v => ?_, hoperands (.ofLetter ⟨0⟩) (by simp [n, operands])⟩
  rw [hletters]
  exact List.mem_singleton

end Statement

end Propositional

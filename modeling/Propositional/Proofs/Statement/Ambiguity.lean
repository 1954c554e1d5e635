import Propositional.Proofs.Statement.Agreement
import Propositional.Proofs.Statement.Clash
import Propositional.Proofs.Statement.Yield

/-!
# Where precedence is missing

In a `Chained` list, which is a phrase but for the number of conditionals in its scopes, the reader
finds no other fault than a missing precedence (`Chained.onlyAmbiguous`), so that clashes alone decide
whether the list is accepted. In every other list a clash outside the parentheses still comes before
all other faults, and a missing precedence is reported for a clash and for nothing else
(`ambiguity_is_clash`).
-/

namespace Propositional

open Token Occurrence Root

/-! ## Chains of conditionals -/

/-- A list of tokens is a phrase of a kind, but for conditionals, which may chain. Parentheses are
never empty. -/
inductive Chained : Phrase → List Token → Prop
  | letter (v : Letter) : Chained .atom [v.name]
  | group {ts : List Token} (h : Chained .conditional ts) : Chained .atom (enclosed ts)
  | atom {ts : List Token} (h : Chained .atom ts) : Chained .negation ts
  | not {ts : List Token} (h : Chained .negation ts) : Chained .negation ("not" :: ts)
  | negation {ts : List Token} (h : Chained .negation ts) : Chained .conjunction ts
  | and {us vs : List Token} (hus : Chained .negation us) (hvs : Chained .conjunction vs) :
      Chained .conjunction (us ++ "and" :: vs)
  | conjunction {ts : List Token} (h : Chained .conjunction ts) : Chained .disjunction ts
  | or {us vs : List Token} (hus : Chained .conjunction us) (hvs : Chained .disjunction vs) :
      Chained .disjunction (us ++ "or" :: vs)
  | disjunction {ts : List Token} (h : Chained .disjunction ts) : Chained .conditional ts
  | conditional {us vs : List Token} {c : Token} (hc : c ∈ conditionalWords.map Prod.fst)
      (hus : Chained .disjunction us) (hvs : Chained .conditional vs) :
      Chained .conditional (us ++ c :: vs)

namespace Chained

theorem balanced {p : Phrase} {ts : List Token} (h : Chained p ts) : Token.balanced ts = true := by
  induction h with
  | letter v => rw [balanced_cons_of_step (step_name v), balanced_nil]
  | group h ih => rw [balanced_enclosed (balanced_iff.1 ih).2, ih]
  | not h ih => exact balanced_joined rfl balanced_nil ih
  | and hus hvs ihus ihvs => exact balanced_joined rfl ihus ihvs
  | or hus hvs ihus ihvs => exact balanced_joined rfl ihus ihvs
  | conditional hc hus hvs ihus ihvs =>
    obtain ⟨op, hop, -⟩ := mem_map_conditionalWords_iff.1 hc
    exact balanced_joined (step_of_operator hop) ihus ihvs
  | _ => assumption

/-- Something other than parentheses is left when redundant parentheses are taken away. -/
theorem strip_ne_nil {p : Phrase} {ts : List Token} (h : Chained p ts) : strip ts ≠ [] := by
  have hword : words ts ≠ [] := by
    induction h with
    | letter v =>
      have hparen : isParen v.name = false := by simp [Bool.eq_false_iff, isParen_iff_kind]
      simp [words, hparen]
    | group h ih => rwa [words_enclosed]
    | not h ih => simp [words, isParen]
    | and hus hvs ihus ihvs => simp [words_append, ihus]
    | or hus hvs ihus ihvs => simp [words_append, ihus]
    | conditional hc hus hvs ihus ihvs => simp [words_append, ihus]
    | _ => assumption
  intro hnil
  rcases strip_eq_nil_iff.1 hnil with rfl | he
  · exact hword rfl
  · exact hword he.words_eq

theorem rank_le {p : Phrase} {ts : List Token} (h : Chained p ts) :
    ∀ o ∈ operators ts, o.rank ≤ p.rank := by
  induction h with
  | letter v => simp
  | group h ih => simp [operators_enclosed (balanced_iff.1 h.balanced).2]
  | not h ih => exact (Derives.isRoot_not (Or.inl rfl) ih).rank_le
  | and hus hvs ihus ihvs =>
    exact (Derives.isRoot_of_rank_le (operator?_eq_and_iff.2 rfl) hus.balanced ihus ihvs (by decide)
      (by decide)).rank_le
  | or hus hvs ihus ihvs =>
    exact (Derives.isRoot_of_rank_le (operator?_eq_or_iff.2 rfl) hus.balanced ihus ihvs (by decide)
      (by decide)).rank_le
  | conditional hc hus hvs ihus ihvs => exact fun o _ => o.rank_le
  | _ h ih => exact fun o ho => Nat.le_succ_of_le (ih o ho)

theorem isRoot {p : Phrase} {n : Nat} {op : Operator} {us vs : List Token} {t : Token}
    (hus : Chained p us) (hvs : ∀ o ∈ operators vs, o.rank ≤ n) (ht : operator? t = some op)
    (hp : p.rank < op.rank) (hn : n ≤ min op.rank 3) : IsRoot op us t vs :=
  Derives.isRoot_of_rank_le ht hus.balanced hus.rank_le hvs hp hn

end Chained

/-- If the list is refused, then because precedence is missing. -/
def OnlyAmbiguous (ts : List Token) : Prop :=
  ∀ l e, (Statement.ofSpan l ts).result = .error e → e.isAmbiguous = true

theorem OnlyAmbiguous.joined {op : Operator} {us vs : List Token} {t : Token}
    (hroot : IsRoot op us t vs) (hop : op ≠ .not) (husNil : strip us ≠ []) (hvsNil : strip vs ≠ [])
    (hus : OnlyAmbiguous us) (hvs : OnlyAmbiguous vs) : OnlyAmbiguous (us ++ t :: vs) := by
  intro l e h
  rcases Statement.ofSpan_isRoot_cases l hroot with ⟨hnil, -⟩ | ⟨hnot, -⟩ | ⟨-, hnil, -⟩ |
    ⟨hnot, -⟩ | ⟨-, heq⟩
  · exact absurd hnil hvsNil
  · exact absurd hnot hop
  · exact absurd hnil husNil
  · exact absurd hnot hop
  · rw [heq, Reading.result_noting] at h
    rcases Reading.result_bind_eq_error_iff.1 h with ha | ⟨a, -, hb⟩
    · exact hus _ e ha
    · exact hvs _ e (Reading.result_map_eq_error_iff.1 hb)

theorem OnlyAmbiguous.negated {vs : List Token} (hroot : IsRoot .not [] "not" vs)
    (hvsNil : strip vs ≠ []) (hvs : OnlyAmbiguous vs) : OnlyAmbiguous ("not" :: vs) := by
  intro l e h
  rw [← List.nil_append ("not" :: vs)] at h
  rcases Statement.ofSpan_isRoot_cases l hroot with ⟨hnil, -⟩ | ⟨-, hnil, -⟩ | ⟨hnot, -⟩ |
    ⟨-, -, heq⟩ | ⟨hnot, -⟩
  · exact absurd hnil hvsNil
  · exact absurd strip_nil hnil
  · exact absurd rfl hnot
  · rw [heq, Reading.result_noting] at h
    exact hvs _ e (Reading.result_map_eq_error_iff.1 h)
  · exact absurd rfl hnot

/-- A conditional clashes with another one to its right. -/
theorem clash_of_mem_operators {op : Operator} {us vs : List Token} {c : Token}
    (hbalanced : balanced (us ++ c :: vs) = true) (hus : balanced us = true)
    (hop : operator? c = some op) (hcond : op.isConditional = true)
    (hvs : ∃ o ∈ operators vs, o.isConditional = true) : Clash (us ++ c :: vs) := by
  have hright := List.countP_pos_iff.2 hvs
  rw [clash_iff hbalanced, operators_append (balanced_iff.1 hus).1, operators_cons_operator hop,
    List.countP_append, List.countP_cons, if_pos hcond]
  omega

/-- A chain of conditionals clashes, and a single conditional is the root. -/
theorem Chained.onlyAmbiguous {p : Phrase} {ts : List Token} (h : Chained p ts) :
    OnlyAmbiguous ts := by
  induction h with
  | letter v =>
    intro l e h
    rw [Statement.ofSpan_letter l (strip_singleton v.name)] at h
    cases h
  | group h ih =>
    intro l e he
    rw [Statement.ofSpan_enclosed l (balanced_iff.1 h.balanced).2] at he
    exact ih l e he
  | not h ih => exact ih.negated (Derives.isRoot_not (Or.inl rfl) h.rank_le) h.strip_ne_nil
  | and hus hvs ihus ihvs =>
    have hroot := hus.isRoot hvs.rank_le (operator?_eq_and_iff.2 rfl) (by decide) (by decide)
    exact ihus.joined hroot (by decide) hus.strip_ne_nil hvs.strip_ne_nil ihvs
  | or hus hvs ihus ihvs =>
    have hroot := hus.isRoot hvs.rank_le (operator?_eq_or_iff.2 rfl) (by decide) (by decide)
    exact ihus.joined hroot (by decide) hus.strip_ne_nil hvs.strip_ne_nil ihvs
  | @conditional us vs c hc hus hvs ihus ihvs =>
    have hbalanced := (Chained.conditional hc hus hvs).balanced
    obtain ⟨op, hop, hcond⟩ := mem_map_conditionalWords_iff.1 hc
    have hrank := Operator.isConditional_iff.1 hcond
    by_cases hchain : ∃ o ∈ operators vs, o.isConditional = true
    · intro l e h
      have hclash := clash_of_mem_operators hbalanced hus.balanced hop hcond hchain
      rw [Statement.ofSpan_of_clash l hbalanced (by rwa [hclash.strip_eq hbalanced])] at h
      cases h
      rfl
    · have hright : ∀ o ∈ operators vs, o.rank ≤ 3 := by
        intro o ho
        have hne : o.rank ≠ 4 := fun h => hchain ⟨o, ho, Operator.isConditional_iff.2 h⟩
        have := o.rank_le
        omega
      have hroot := hus.isRoot hright hop (by rw [hrank]; decide) (by rw [hrank]; decide)
      refine ihus.joined hroot ?_ hus.strip_ne_nil hvs.strip_ne_nil ihvs
      rintro rfl
      cases hrank
  | _ h ih => exact ih

namespace Statement

/-- The fault that is laid to a text for missing precedence carries the whole trimmed text. -/
theorem ofText_ambiguous_iff {expression x : String} :
    ofText expression = .error (.ambiguousPrecedence x) ↔
      x = Text.trim expression ∧
        ∃ y, ofTokens (lex (Text.trim expression)) = .error (.ambiguousPrecedence y) := by
  cases h : ofTokens (lex (Text.trim expression)) with
  | ok s =>
    rw [ofText_of_ofTokens_ok h]
    simp
  | error e =>
    rw [ofText_of_ofTokens_error h]
    cases e with
    | ambiguousPrecedence y => simp [Malformed.carrying, eq_comm]
    | _ => simp [Malformed.carrying]

theorem not_clash_of_ofTokens {ts span : List Token} {s : Statement} (h : ofTokens ts = .ok s)
    (hspan : Scope ts span) : ¬ Clash span :=
  (derives_of_ofPaired h).not_clash_of_scope hspan

theorem exists_clash_of_ofTokens {ts : List Token} {x : String}
    (h : ofTokens ts = .error (.ambiguousPrecedence x)) : ∃ span, Scope ts span ∧ Clash span := by
  rcases ofTokens_error_cases h with ⟨-, hx⟩ | ⟨hbalanced, -⟩
  · cases hx
  · rw [ofTokens_of_balanced hbalanced] at h
    exact exists_clash_of_ambiguous h hbalanced

theorem ofTokens_of_clash {ts : List Token} (hbalanced : balanced ts = true)
    (h : Clash (strip ts)) : ofTokens ts = .error (.ambiguousPrecedence (text (strip ts))) := by
  rw [ofTokens_of_balanced hbalanced, ofSpan_of_clash _ hbalanced h, Reading.result_failed]

theorem ofTokens_of_chained {ts : List Token} (h : Chained .conditional ts) :
    (∃ s, ofTokens ts = .ok s) ∨ ∃ x, ofTokens ts = .error (.ambiguousPrecedence x) := by
  cases hread : ofTokens ts with
  | ok s => exact Or.inl ⟨s, rfl⟩
  | error e =>
    rw [ofTokens_of_balanced h.balanced] at hread
    have hambiguous := h.onlyAmbiguous _ e hread
    cases e with
    | ambiguousPrecedence x => exact Or.inr ⟨x, rfl⟩
    | _ => cases hambiguous

/-- Missing precedence is reported exactly for clashes. A list that is read has a clash in no scope; a
list with the report has one in some scope; a clash outside the parentheses, the redundant ones apart,
is reported whatever else is wrong; and where conditionals may chain and all else is as it should be, a
list is read or has the report, and is read exactly when no scope has a clash. For a text the report
carries the whole text, without the blanks at its ends. -/
theorem ambiguity_is_clash (ts : List Token) :
    (∀ s, ofTokens ts = .ok s → ∀ span, Scope ts span → ¬ Clash span) ∧
      (∀ x, ofTokens ts = .error (.ambiguousPrecedence x) → ∃ span, Scope ts span ∧ Clash span) ∧
      (balanced ts = true → Clash (strip ts) →
        ofTokens ts = .error (.ambiguousPrecedence (text (strip ts)))) ∧
      (Chained .conditional ts →
        ((∃ s, ofTokens ts = .ok s) ∨ ∃ x, ofTokens ts = .error (.ambiguousPrecedence x)) ∧
          ((∃ s, ofTokens ts = .ok s) ↔ ∀ span, Scope ts span → ¬ Clash span)) ∧
      ∀ expression x, lex (Text.trim expression) = ts →
        (ofText expression = .error (.ambiguousPrecedence x) ↔
          x = Text.trim expression ∧ ∃ y, ofTokens ts = .error (.ambiguousPrecedence y)) := by
  refine ⟨fun s hs span => not_clash_of_ofTokens hs, fun x => exists_clash_of_ofTokens,
    ofTokens_of_clash, fun h => ⟨ofTokens_of_chained h, ?_⟩, ?_⟩
  · constructor
    · rintro ⟨s, hs⟩ span
      exact not_clash_of_ofTokens hs
    · intro hnone
      rcases ofTokens_of_chained h with hok | ⟨x, hx⟩
      · exact hok
      · obtain ⟨span, hspan, hclash⟩ := exists_clash_of_ofTokens hx
        exact absurd hclash (hnone span hspan)
  · rintro expression x rfl
    exact ofText_ambiguous_iff

/-- In `A or (B eq C => D)` a chain of two conditionals clashes between parentheses. With a faulty
token in place of `D` the same chain without parentheses is still said to be ambiguous. -/
theorem ambiguity_is_clash_eq_implies :
    let ts := ["A", "or", "(", "B", "eq", "C", "=>", "D", ")"]
    let us := ["(", "B", "eq", "C", "=>", "d", "(", ")", ")"]
    Chained .conditional ts ∧ (∃ span, Scope ts span ∧ Clash span) ∧
      (¬ ∃ s, ofTokens ts = .ok s) ∧
      ofText " A or (B eq C => D)" = .error (.ambiguousPrecedence "A or (B eq C => D)") ∧
      balanced us = true ∧ Clash (strip us) ∧
      ofTokens us = .error (.ambiguousPrecedence "B eq C => d ( )") := by
  intro ts us
  have hatom (v : Letter) : Chained .disjunction [v.name] :=
    .conjunction (.negation (.atom (.letter v)))
  have hchain : Chained .conditional ["B", "eq", "C", "=>", "D"] :=
    .conditional (by decide) (hatom ⟨1⟩)
      (.conditional (by decide) (hatom ⟨2⟩) (.disjunction (hatom ⟨3⟩)))
  have hts : Chained .conditional ts :=
    .disjunction (.or (.negation (.atom (.letter ⟨0⟩)))
      (.conjunction (.negation (.atom (.group hchain)))))
  have hclash : Clash ["B", "eq", "C", "=>", "D"] :=
    ⟨["B"], "eq", ["C"], "=>", ["D"], rfl, rfl, rfl, by decide, by decide⟩
  have hscope : Scope ts ["B", "eq", "C", "=>", "D"] := Or.inr ⟨⟨["A", "or"], [], rfl⟩, by decide⟩
  obtain ⟨-, -, -, hchained, htext⟩ := ambiguity_is_clash ts
  obtain ⟨hcases, hread⟩ := hchained hts
  have hnot : ¬ ∃ s, ofTokens ts = .ok s := fun hok => hread.1 hok _ hscope hclash
  have hstrip : strip us = ["B", "eq", "C", "=>", "d", "(", ")"] := by decide +kernel
  have hus : Clash (strip us) :=
    hstrip ▸ ⟨["B"], "eq", ["C"], "=>", ["d", "(", ")"], rfl, rfl, rfl, by decide, by decide⟩
  refine ⟨hts, ⟨_, hscope, hclash⟩, hnot, ?_, by decide, hus, ?_⟩
  · exact (htext " A or (B eq C => D)" _ (by decide +kernel)).2
      ⟨by decide +kernel, hcases.resolve_left hnot⟩
  · rw [(ambiguity_is_clash us).2.2.1 (by decide) hus, hstrip]
    rfl

end Statement

end Propositional

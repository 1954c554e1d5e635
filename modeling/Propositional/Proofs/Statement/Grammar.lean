import Propositional.Proofs.Formula
import Propositional.Proofs.Statement.Reader

/-!
# The grammar of statements

A grammar with five kinds of phrases, from the loosest to the tightest, says which lists of tokens are
statements and of which formula. The reader is not written after it: it strips parentheses and cuts
at the loosest operator. Both agree on every list of texts, and on the formula
(`ofTokens_eq_ok_iff_derives`).

The bridge is the rank. A phrase has a rank, the greatest of an operator outside all its parentheses
(`Derives.rank_le`), and a list that is read and whose operators stay within the rank of a kind of
phrase is a phrase of that kind (`derives_of_ofSpan`).
-/

namespace Propositional

open Token Occurrence Root

/-- The kinds of phrases. -/
inductive Phrase
  | conditional
  | disjunction
  | conjunction
  | negation
  | atom
deriving DecidableEq, Repr

/-- The rank of the loosest operator that a phrase may have outside its parentheses. -/
def Phrase.rank : Phrase → Nat
  | conditional => 4
  | disjunction => 3
  | conjunction => 2
  | negation => 1
  | atom => 0

/-- The words for the two conditionals. -/
def conditionalWords : List (Token × Operator) :=
  [("=>", .implies), ("impl", .implies), ("<=>", .equivalent), ("eq", .equivalent)]

/-- Parentheses around nothing, perhaps several pairs. -/
inductive EmptyGroup : List Token → Prop
  | pair : EmptyGroup (enclosed [])
  | wrap {es : List Token} (h : EmptyGroup es) : EmptyGroup (enclosed es)

/-- A list of tokens is a phrase of a kind, with the formula that it stands for. Conditionals do not
chain, the other operators of two operands chain to the right, and parentheses leave no trace in the
formula. Before `not` there may be an empty group. -/
inductive Derives : Phrase → List Token → Formula → Prop
  | letter (v : Letter) : Derives .atom [v.name] (.letter v)
  | group {ts : List Token} {f : Formula} (h : Derives .conditional ts f) :
      Derives .atom (enclosed ts) f
  | atom {ts : List Token} {f : Formula} (h : Derives .atom ts f) : Derives .negation ts f
  | not {es ts : List Token} {f : Formula} (he : es = [] ∨ EmptyGroup es)
      (h : Derives .negation ts f) : Derives .negation (es ++ "not" :: ts) (.negation f)
  | negation {ts : List Token} {f : Formula} (h : Derives .negation ts f) : Derives .conjunction ts f
  | and {us vs : List Token} {f g : Formula} (hf : Derives .negation us f)
      (hg : Derives .conjunction vs g) : Derives .conjunction (us ++ "and" :: vs) (.binary .and f g)
  | conjunction {ts : List Token} {f : Formula} (h : Derives .conjunction ts f) :
      Derives .disjunction ts f
  | or {us vs : List Token} {f g : Formula} (hf : Derives .conjunction us f)
      (hg : Derives .disjunction vs g) : Derives .disjunction (us ++ "or" :: vs) (.binary .or f g)
  | disjunction {ts : List Token} {f : Formula} (h : Derives .disjunction ts f) :
      Derives .conditional ts f
  | conditional {us vs : List Token} {c : Token} {op : Operator} {f g : Formula}
      (hc : (c, op) ∈ conditionalWords) (hf : Derives .disjunction us f)
      (hg : Derives .disjunction vs g) : Derives .conditional (us ++ c :: vs) (.binary op f g)

/-! ## Words -/

theorem mem_conditionalWords_iff {c : Token} {op : Operator} :
    (c, op) ∈ conditionalWords ↔ operator? c = some op ∧ op.rank = 4 := by
  rw [operator?, Operator.ofSpelling?_eq_some_iff]
  cases op <;> simp [conditionalWords, Operator.spellings, Operator.spellingTable, Operator.rank,
    or_comm]

theorem operator?_eq_not_iff {t : Token} : operator? t = some .not ↔ t = "not" := by
  rw [operator?, Operator.ofSpelling?_eq_some_iff]
  simp [Operator.spellings, Operator.spellingTable]

theorem operator?_eq_and_iff {t : Token} : operator? t = some .and ↔ t = "and" := by
  rw [operator?, Operator.ofSpelling?_eq_some_iff]
  simp [Operator.spellings, Operator.spellingTable]

theorem operator?_eq_or_iff {t : Token} : operator? t = some .or ↔ t = "or" := by
  rw [operator?, Operator.ofSpelling?_eq_some_iff]
  simp [Operator.spellings, Operator.spellingTable]

theorem forall_kind_enclosed {us : List Token} (h : ∀ t ∈ us, kind t ≠ .other) :
    ∀ t ∈ enclosed us, kind t ≠ .other := by
  intro t ht
  simp only [enclosed, List.cons_append, List.mem_cons, List.mem_append, List.not_mem_nil,
    or_false] at ht
  rcases ht with rfl | ht | rfl
  · simp
  · exact h t ht
  · simp

theorem forall_kind_joined {us vs : List Token} {t : Token} {op : Operator}
    (hop : operator? t = some op) (hus : ∀ t ∈ us, kind t ≠ .other)
    (hvs : ∀ t ∈ vs, kind t ≠ .other) : ∀ u ∈ us ++ t :: vs, kind u ≠ .other := by
  intro u hu
  rcases List.mem_append.1 hu with hu | hu
  · exact hus u hu
  · rcases List.mem_cons.1 hu with rfl | hu
    · simp [kind_eq_operator_iff.2 hop]
    · exact hvs u hu

/-! ## Empty groups -/

theorem EmptyGroup.balanced {es : List Token} (h : EmptyGroup es) : Token.balanced es = true := by
  induction h with
  | pair => rfl
  | wrap h ih => rw [balanced_enclosed (balanced_iff.1 ih).2, ih]

theorem EmptyGroup.operators_eq {es : List Token} (h : EmptyGroup es) : operators es = [] := by
  cases h with
  | pair => rfl
  | wrap h => exact operators_enclosed (balanced_iff.1 h.balanced).2

theorem EmptyGroup.strip_eq {es : List Token} (h : EmptyGroup es) : strip es = [] := by
  induction h with
  | pair => rw [strip_enclosed (balanced_iff.1 balanced_nil).2, strip_nil]
  | wrap h ih => rw [strip_enclosed (balanced_iff.1 h.balanced).2, ih]

theorem EmptyGroup.kind_ne_other {es : List Token} (h : EmptyGroup es) :
    ∀ t ∈ es, kind t ≠ .other := by
  induction h with
  | pair => exact forall_kind_enclosed (by simp)
  | wrap h ih => exact forall_kind_enclosed ih

/-- Nothing is left of a list when there was nothing but parentheses around nothing. -/
theorem strip_eq_nil_iff {es : List Token} : strip es = [] ↔ es = [] ∨ EmptyGroup es := by
  constructor
  · refine strip_induction (P := fun es us => us = [] → es = [] ∨ EmptyGroup es)
      (fun es _ h => Or.inl h) (fun es _ ih h => Or.inr ?_) es
    rcases ih h with rfl | hes
    · exact .pair
    · exact .wrap hes
  · rintro (rfl | h)
    · exact strip_nil
    · exact h.strip_eq

/-! ## What the grammar derives -/

namespace Derives

/-- A phrase is a phrase of every looser kind. -/
theorem mono {p q : Phrase} {ts : List Token} {f : Formula} (h : Derives p ts f)
    (hrank : p.rank ≤ q.rank) : Derives q ts f := by
  cases q with
  | atom =>
    cases p with
    | atom => exact h
    | _ => exact absurd hrank (by decide)
  | negation =>
    cases p with
    | atom => exact .atom h
    | negation => exact h
    | _ => exact absurd hrank (by decide)
  | conjunction =>
    cases p with
    | atom => exact .negation (.atom h)
    | negation => exact .negation h
    | conjunction => exact h
    | _ => exact absurd hrank (by decide)
  | disjunction =>
    cases p with
    | atom => exact .conjunction (.negation (.atom h))
    | negation => exact .conjunction (.negation h)
    | conjunction => exact .conjunction h
    | disjunction => exact h
    | conditional => exact absurd hrank (by decide)
  | conditional =>
    cases p with
    | atom => exact .disjunction (.conjunction (.negation (.atom h)))
    | negation => exact .disjunction (.conjunction (.negation h))
    | conjunction => exact .disjunction (.conjunction h)
    | disjunction => exact .disjunction h
    | conditional => exact h

theorem balanced {p : Phrase} {ts : List Token} {f : Formula} (h : Derives p ts f) :
    Token.balanced ts = true := by
  induction h with
  | letter v => rw [balanced_cons_of_step (step_name v), balanced_nil]
  | group h ih => rw [balanced_enclosed (balanced_iff.1 ih).2, ih]
  | not he h ih =>
    refine balanced_joined rfl ?_ ih
    rcases he with rfl | he
    · exact balanced_nil
    · exact he.balanced
  | and hf hg ihf ihg => exact balanced_joined rfl ihf ihg
  | or hf hg ihf ihg => exact balanced_joined rfl ihf ihg
  | conditional hc hf hg ihf ihg =>
    exact balanced_joined (step_of_operator (mem_conditionalWords_iff.1 hc).1) ihf ihg
  | _ => assumption

theorem covered {p : Phrase} {ts : List Token} {f : Formula} (h : Derives p ts f) : Covered ts :=
  (balanced_iff.1 h.balanced).2

/-- Nothing without a meaning stands in a phrase. -/
theorem kind_ne_other {p : Phrase} {ts : List Token} {f : Formula} (h : Derives p ts f) :
    ∀ t ∈ ts, kind t ≠ .other := by
  induction h with
  | letter v => simp
  | group h ih => exact forall_kind_enclosed ih
  | not he h ih =>
    refine forall_kind_joined (operator?_eq_not_iff.2 rfl) ?_ ih
    rcases he with rfl | he
    · simp
    · exact he.kind_ne_other
  | and hf hg ihf ihg => exact forall_kind_joined (operator?_eq_and_iff.2 rfl) ihf ihg
  | or hf hg ihf ihg => exact forall_kind_joined (operator?_eq_or_iff.2 rfl) ihf ihg
  | conditional hc hf hg ihf ihg => exact forall_kind_joined (mem_conditionalWords_iff.1 hc).1 ihf ihg
  | _ => assumption

theorem proper {p : Phrase} {ts : List Token} {f : Formula} (h : Derives p ts f) : f.Proper := by
  induction h with
  | letter v => trivial
  | and hf hg ihf ihg => exact ⟨rfl, ihf, ihg⟩
  | or hf hg ihf ihg => exact ⟨rfl, ihf, ihg⟩
  | @conditional us vs c op f g hc hf hg ihf ihg =>
    have hrank := (mem_conditionalWords_iff.1 hc).2
    refine ⟨?_, ihf, ihg⟩
    cases op <;> first | rfl | cases hrank
  | _ => assumption

/-- A word between two lists is their root when the operators of both keep to ranks that it admits. -/
theorem isRoot_of_rank_le {op : Operator} {us vs : List Token} {t : Token} {m n : Nat}
    (ht : operator? t = some op) (hus : Token.balanced us = true)
    (hleft : ∀ o ∈ operators us, o.rank ≤ m) (hright : ∀ o ∈ operators vs, o.rank ≤ n)
    (hm : m < op.rank) (hn : n ≤ min op.rank 3) : IsRoot op us t vs where
  spells := ht
  rise_eq := (balanced_iff.1 hus).1
  left o ho := Nat.lt_of_le_of_lt (hleft o ho) hm
  right o ho := Nat.le_trans (hright o ho) hn

theorem isRoot_not {es vs : List Token} (he : es = [] ∨ EmptyGroup es)
    (hright : ∀ o ∈ operators vs, o.rank ≤ 1) : IsRoot .not es "not" vs := by
  have hes : Token.balanced es = true ∧ operators es = [] := by
    rcases he with rfl | he
    · exact ⟨balanced_nil, operators_nil⟩
    · exact ⟨he.balanced, he.operators_eq⟩
  refine isRoot_of_rank_le (m := 0) (operator?_eq_not_iff.2 rfl) hes.1 ?_ hright (by decide) (by decide)
  rw [hes.2]
  simp

/-- The operators outside the parentheses of a phrase stay within its rank. -/
theorem rank_le {p : Phrase} {ts : List Token} {f : Formula} (h : Derives p ts f) :
    ∀ o ∈ operators ts, o.rank ≤ p.rank := by
  induction h with
  | letter v => simp
  | group h ih => simp [operators_enclosed h.covered]
  | not he h ih => exact (isRoot_not he ih).rank_le
  | and hf hg ihf ihg =>
    exact (isRoot_of_rank_le (operator?_eq_and_iff.2 rfl) hf.balanced ihf ihg (by decide)
      (by decide)).rank_le
  | or hf hg ihf ihg =>
    exact (isRoot_of_rank_le (operator?_eq_or_iff.2 rfl) hf.balanced ihf ihg (by decide)
      (by decide)).rank_le
  | conditional hc hf hg ihf ihg =>
    obtain ⟨hop, hrank⟩ := mem_conditionalWords_iff.1 hc
    have hroot := isRoot_of_rank_le hop hf.balanced ihf ihg (by rw [hrank]; decide)
      (by rw [hrank]; decide)
    intro o ho
    rw [Phrase.rank, ← hrank]
    exact hroot.rank_le o ho
  | _ h ih => exact fun o ho => Nat.le_succ_of_le (ih o ho)

/-- A word between two phrases of kinds that it admits is their root. -/
theorem isRoot {p q : Phrase} {op : Operator} {us vs : List Token} {t : Token} {f g : Formula}
    (hf : Derives p us f) (hg : Derives q vs g) (ht : operator? t = some op)
    (hp : p.rank < op.rank) (hq : q.rank ≤ min op.rank 3) : IsRoot op us t vs :=
  isRoot_of_rank_le ht hf.balanced hf.rank_le hg.rank_le hp hq

end Derives

/-! ## The reader and the grammar -/

/-- The list is read, and stands for the formula, whatever literal the statement is to have. -/
def Reads (ts : List Token) (f : Formula) : Prop :=
  ∀ l, ∃ s, (Statement.ofSpan l ts).result = .ok s ∧ s.formula = f

theorem Reads.joined {op : Operator} {us vs : List Token} {t : Token} {f g : Formula}
    (hf : Reads us f) (hg : Reads vs g) (hroot : IsRoot op us t vs) (hop : op ≠ .not) :
    Reads (us ++ t :: vs) (.binary op f g) := by
  intro l
  obtain ⟨a, ha, rfl⟩ := hf (text (strip us))
  obtain ⟨b, hb, rfl⟩ := hg (text (strip vs))
  exact ⟨_, Statement.ofSpan_binary l hroot.strip_eq hroot hop ha hb, rfl⟩

theorem Reads.negated {us vs : List Token} {t : Token} {f : Formula} (hf : Reads vs f)
    (hroot : IsRoot .not us t vs) (hus : strip us = []) : Reads (us ++ t :: vs) (.negation f) := by
  intro l
  obtain ⟨a, ha, rfl⟩ := hf (text (strip vs))
  exact ⟨_, Statement.ofSpan_negation l hroot.strip_eq hroot hus ha, rfl⟩

theorem Derives.reads {p : Phrase} {ts : List Token} {f : Formula} (h : Derives p ts f) :
    Reads ts f := by
  induction h with
  | letter v => exact fun l => ⟨_, Statement.ofSpan_letter l (strip_singleton v.name), rfl⟩
  | group h ih =>
    intro l
    rw [Statement.ofSpan_enclosed l h.covered]
    exact ih l
  | not he h ih => exact ih.negated (Derives.isRoot_not he h.rank_le) (strip_eq_nil_iff.2 he)
  | and hf hg ihf ihg =>
    have hroot := hf.isRoot hg (operator?_eq_and_iff.2 rfl) (by decide) (by decide)
    exact ihf.joined ihg hroot (by decide)
  | or hf hg ihf ihg =>
    have hroot := hf.isRoot hg (operator?_eq_or_iff.2 rfl) (by decide) (by decide)
    exact ihf.joined ihg hroot (by decide)
  | conditional hc hf hg ihf ihg =>
    obtain ⟨hop, hrank⟩ := mem_conditionalWords_iff.1 hc
    have hroot := hf.isRoot hg hop (by rw [hrank]; decide) (by rw [hrank]; decide)
    refine ihf.joined ihg hroot ?_
    rintro rfl
    cases hrank
  | _ h ih => exact ih

/-- Redundant parentheses make a conditional an atom, so they may be put back around any phrase. -/
theorem derives_of_strip {f : Formula} (ts : List Token)
    (h : ∀ p : Phrase, (∀ o ∈ operators (strip ts), o.rank ≤ p.rank) → Derives p (strip ts) f) :
    ∀ p : Phrase, (∀ o ∈ operators ts, o.rank ≤ p.rank) → Derives p ts f := by
  refine strip_induction (P := fun ts us =>
    (∀ p : Phrase, (∀ o ∈ operators us, o.rank ≤ p.rank) → Derives p us f) →
      ∀ p : Phrase, (∀ o ∈ operators ts, o.rank ≤ p.rank) → Derives p ts f)
    (fun _ _ h => h) (fun ts _ ih h p _ => ?_) ts h
  have hinner : Derives .conditional ts f := ih h .conditional fun o _ => o.rank_le
  exact hinner.group.mono (Nat.zero_le _)

/-- The operator between two phrases says of which kinds they have to be, and of which kind the whole
is then. -/
theorem Derives.joined {op : Operator} {us vs : List Token} {t : Token} {f g : Formula}
    (hspells : operator? t = some op) (hop : op ≠ .not)
    (hf : ∀ p : Phrase, op.rank = p.rank + 1 → Derives p us f)
    (hg : ∀ p : Phrase, min op.rank 3 = p.rank → Derives p vs g) :
    ∃ p : Phrase, p.rank = op.rank ∧ Derives p (us ++ t :: vs) (.binary op f g) := by
  cases op with
  | identity => exact absurd hspells (Operator.ofSpelling?_ne_identity t)
  | not => exact absurd rfl hop
  | and =>
    obtain rfl := operator?_eq_and_iff.1 hspells
    exact ⟨.conjunction, rfl, .and (hf .negation rfl) (hg .conjunction rfl)⟩
  | or =>
    obtain rfl := operator?_eq_or_iff.1 hspells
    exact ⟨.disjunction, rfl, .or (hf .conjunction rfl) (hg .disjunction rfl)⟩
  | implies =>
    exact ⟨.conditional, rfl, .conditional (mem_conditionalWords_iff.2 ⟨hspells, rfl⟩)
      (hf .disjunction rfl) (hg .disjunction rfl)⟩
  | equivalent =>
    exact ⟨.conditional, rfl, .conditional (mem_conditionalWords_iff.2 ⟨hspells, rfl⟩)
      (hf .disjunction rfl) (hg .disjunction rfl)⟩

/-- What the reader accepts is a phrase of every kind that admits the operators outside its
parentheses. -/
theorem derives_of_ofSpan {l : String} {ts : List Token} {s : Statement}
    (h : (Statement.ofSpan l ts).result = .ok s) :
    ∀ p : Phrase, (∀ o ∈ operators ts, o.rank ≤ p.rank) → Derives p ts s.formula := by
  refine Statement.ofSpan_induction (P := fun ts s =>
    ∀ p : Phrase, (∀ o ∈ operators ts, o.rank ≤ p.rank) → Derives p ts s.formula)
    (fun l ts v hts => ?_) (fun l ts us t vs a hts hroot hus ih => ?_)
    (fun l op ts us t vs a b hts hroot hop iha ihb => ?_) h
  · refine derives_of_strip ts fun p _ => ?_
    rw [hts]
    exact (Derives.letter v).mono (Nat.zero_le _)
  · refine derives_of_strip ts fun p hp => ?_
    rw [hts, hroot.operators_eq] at hp
    rw [hts]
    obtain rfl := operator?_eq_not_iff.1 hroot.spells
    have hvs : Derives .negation vs a.formula := ih .negation hroot.right
    exact (Derives.not (strip_eq_nil_iff.1 hus) hvs).mono (hp .not (by simp))
  · refine derives_of_strip ts fun p hp => ?_
    rw [hts, hroot.operators_eq] at hp
    rw [hts]
    obtain ⟨q, hq, hderives⟩ : ∃ q : Phrase, q.rank = op.rank ∧ Derives q (us ++ t :: vs) _ := by
      refine Derives.joined hroot.spells hop (fun q hq => iha q fun o ho => ?_)
        (fun q hq => ihb q fun o ho => ?_)
      · have := hroot.left o ho
        omega
      · have := hroot.right o ho
        omega
    exact hderives.mono (hq ▸ hp op (by simp))

theorem derives_of_ofPaired {l : String} {ts : List Token} {s : Statement}
    (h : (Statement.ofPaired l ts).result = .ok s) : Derives .conditional ts s.formula :=
  derives_of_ofSpan (Statement.ofSpan_of_ofPaired h).2 .conditional fun o _ => o.rank_le

theorem Derives.ofPaired_eq_ok {ts : List Token} {f : Formula} (h : Derives .conditional ts f)
    (l : String) : ∃ s, (Statement.ofPaired l ts).result = .ok s ∧ s.formula = f := by
  rw [Statement.ofPaired, if_pos h.balanced]
  exact h.reads l

/-- A list of texts is read as a statement of a formula exactly when the grammar derives it as a
conditional, the loosest kind of phrase, with that formula. -/
theorem ofTokens_eq_ok_iff_derives (ts : List Token) (f : Formula) :
    (∃ s, Statement.ofTokens ts = .ok s ∧ s.formula = f) ↔ Derives .conditional ts f := by
  constructor
  · rintro ⟨s, hs, rfl⟩
    exact derives_of_ofPaired hs
  · exact fun h => h.ofPaired_eq_ok (text ts)

end Propositional

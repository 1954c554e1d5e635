import Propositional.Proofs.Statement.Literal
import Propositional.Proofs.Statement.Subspan

/-!
# What is wrong with a list that is refused

A reason for a failure says something of a list of tokens (`Malformed.AppliesTo`). When the reader fails
on a list in which every parenthesis has its partner, the reason applies to a subspan of it: the one
whose text the reason carries, and which fails for the same reason when it is read by itself
(`exists_faulty_subspan`). One step of the reader finds the fault in what it looks at or passes a fault
on from one of the two sides (`ofSpan_error_cases`).
-/

namespace Propositional

open Token Occurrence Root

/-- The reason is true of the tokens: they have the fault that it names. -/
def Malformed.AppliesTo (span : List Token) : Malformed → Prop
  | ambiguousPrecedence _ => 2 ≤ (operators span).countP Operator.isConditional
  | noLetters _ => operators span = [] ∧ ∀ t ∈ span, isLetter t = false
  | severalLetters _ => operators span = [] ∧ 2 ≤ span.countP isLetter
  | invalidToken t _ => operators span = [] ∧ span.countP isLetter = 1 ∧ 2 ≤ span.length ∧
      t ∈ span ∧ isLetter t = false ∧
        (isParen t = true → ∀ u ∈ span, isLetter u = true ∨ isParen u = true)
  | unbalanced _ => ¬ Paired span
  | missingOperand op _ => ∃ us t vs, span = us ++ t :: vs ∧ IsRoot op us t vs ∧
      (strip vs = [] ∨ (op.isBinary = true ∧ strip us = []))
  | unexpectedOperand op _ => op = .not ∧ ∃ us t vs, span = us ++ t :: vs ∧ IsRoot op us t vs ∧
      strip us ≠ [] ∧ strip vs ≠ []

theorem Root.IsRoot.isBinary {op : Operator} {us vs : List Token} {t : Token}
    (h : IsRoot op us t vs) (hop : op ≠ .not) : op.isBinary = true := by
  cases op with
  | identity => exact absurd h.spells (Operator.ofSpelling?_ne_identity t)
  | not => exact absurd rfl hop
  | _ => rfl

namespace Statement

/-! ## Lists without an operator outside the parentheses -/

theorem two_le_length_of_lone? {span : List Token} (hcount : span.countP isLetter = 1)
    (hlone : lone? span = none) : 2 ≤ span.length := by
  match span, hcount, hlone with
  | [t], hcount, hlone =>
    -- a list of one token that is a letter is a lone letter
    have ht : isLetter t = true := by simpa using hcount
    rw [isLetter, show Letter.ofName? t = none from hlone] at ht
    cases ht
  | t :: u :: span, _, _ => simp

theorem exists_not_isLetter {span : List Token} (hcount : span.countP isLetter = 1)
    (hlength : 2 ≤ span.length) : ∃ t ∈ span, isLetter t = false := by
  refine Classical.byContradiction fun hnone => ?_
  have hall : ∀ t ∈ span, isLetter t = true := fun t ht =>
    Bool.not_eq_false _ ▸ fun hf => hnone ⟨t, ht, hf⟩
  rw [List.countP_eq_length.2 hall] at hcount
  omega

/-- The token to blame is one of the list and no letter, and it is a parenthesis only where there is
nothing worse. -/
theorem offender_spec {span : List Token} (h : ∃ t ∈ span, isLetter t = false) :
    offender span ∈ span ∧ isLetter (offender span) = false ∧
      (isParen (offender span) = true → ∀ u ∈ span, isLetter u = true ∨ isParen u = true) := by
  unfold offender
  cases hword : span.find? fun t => !isLetter t && !isParen t with
  | some w =>
    have hw := List.find?_some hword
    simp only [Bool.and_eq_true, Bool.not_eq_true'] at hw
    refine ⟨List.mem_of_find?_eq_some hword, hw.1, fun hparen => ?_⟩
    simp [hw.2] at hparen
  | none =>
    obtain ⟨t, ht, hletter⟩ := h
    cases hparen : span.find? fun t => !isLetter t with
    | none =>
      have := List.find?_eq_none.1 hparen t ht
      simp [hletter] at this
    | some w =>
      refine ⟨List.mem_of_find?_eq_some hparen, by simpa using List.find?_some hparen, fun _ u hu => ?_⟩
      have hneither := List.find?_eq_none.1 hword u hu
      cases hu : isLetter u with
      | true => exact Or.inl rfl
      | false => exact Or.inr (by simpa [hu] using hneither)

theorem ofOperatorless_error {l : String} {span : List Token} {e : Malformed}
    (hops : operators span = []) (h : ofOperatorless l span = .error e) :
    e.expression = text span ∧ e.AppliesTo span := by
  unfold ofOperatorless at h
  split at h
  · rename_i hcount
    cases h
    refine ⟨rfl, hops, fun t ht => ?_⟩
    simpa using List.countP_eq_zero.1 hcount t ht
  · rename_i hcount
    split at h
    · cases h
    · rename_i hlone
      cases h
      have hlength := two_le_length_of_lone? hcount hlone
      exact ⟨rfl, hops, hcount, hlength, offender_spec (exists_not_isLetter hcount hlength)⟩
  · rename_i hzero hone
    cases h
    have hnotZero : span.countP isLetter ≠ 0 := hzero
    have hnotOne : span.countP isLetter ≠ 1 := hone
    exact ⟨rfl, hops, by omega⟩

/-! ## One step and all steps -/

/-- A failure is due to a fault of the stripped list, or is that of one of the sides of its root. -/
theorem ofSpan_error_cases {l : String} {ts : List Token} {e : Malformed}
    (h : (ofSpan l ts).result = .error e) :
    (e.expression = text (strip ts) ∧ e.AppliesTo (strip ts)) ∨
    ∃ op us t vs, strip ts = us ++ t :: vs ∧ IsRoot op us t vs ∧
      ∃ m, (ofSpan m us).result = .error e ∨ (ofSpan m vs).result = .error e := by
  rcases root_cases (strip ts) with hops | hcount | ⟨op, us, t, vs, hts, hroot⟩
  · rw [ofSpan_absent l hops] at h
    exact Or.inl (ofOperatorless_error hops h)
  · rw [ofSpan_ambiguous l hcount] at h
    cases h
    exact Or.inl ⟨rfl, hcount⟩
  · rw [← ofSpan_strip, hts] at h
    rw [hts]
    rcases ofSpan_isRoot_cases l hroot with ⟨hvs, heq⟩ | ⟨rfl, hus, hvs, heq⟩ | ⟨hop, hus, heq⟩ |
      ⟨-, -, heq⟩ | ⟨-, heq⟩ <;> rw [heq, Reading.result_noting] at h
    · -- the root is at fault in the first three ways, a side in the last two
      cases h
      exact Or.inl ⟨rfl, us, t, vs, rfl, hroot, Or.inl hvs⟩
    · cases h
      exact Or.inl ⟨rfl, rfl, us, t, vs, rfl, hroot, hus, hvs⟩
    · cases h
      exact Or.inl ⟨rfl, us, t, vs, rfl, hroot, Or.inr ⟨hroot.isBinary hop, hus⟩⟩
    · exact Or.inr ⟨op, us, t, vs, rfl, hroot, _, Or.inr (Reading.result_map_eq_error_iff.1 h)⟩
    · rcases Reading.result_bind_eq_error_iff.1 h with ha | ⟨a, -, hb⟩
      · exact Or.inr ⟨op, us, t, vs, rfl, hroot, _, Or.inl ha⟩
      · exact Or.inr ⟨op, us, t, vs, rfl, hroot, _, Or.inr (Reading.result_map_eq_error_iff.1 hb)⟩

/-- Every failure on a list in which all parentheses pair up goes back to a subspan with a fault. -/
theorem exists_faulty_subspan {l : String} {ts : List Token} {e : Malformed}
    (h : (ofSpan l ts).result = .error e) (hbalanced : balanced ts = true) :
    ∃ span, Subspan ts span ∧ e.expression = text span ∧ ofTokens span = .error e ∧
      e.AppliesTo span := by
  induction hn : ts.length using Nat.strongRecOn generalizing l ts with
  | ind n ih =>
    rcases ofSpan_error_cases h with ⟨htext, happlies⟩ | ⟨op, us, t, vs, hts, hroot, m, hside⟩
    · refine ⟨strip ts, .of_part List.infix_rfl hbalanced, htext, ?_, happlies⟩
      rw [ofTokens_strip hbalanced, ofSpan_error_congr h]
    · -- the side that fails is a shorter part, and a subspan of it is one of the whole
      obtain ⟨⟨hleftPart, hleft⟩, hrightPart, hright⟩ := hroot.sides hts hbalanced
      obtain ⟨hleftLt, hrightLt⟩ := length_sides_lt hts
      rcases hside with hus | hvs
      · obtain ⟨span, hspan, hfault⟩ := ih us.length (hn ▸ hleftLt) hus hleft rfl
        exact ⟨span, hspan.widen hleftPart, hfault⟩
      · obtain ⟨span, hspan, hfault⟩ := ih vs.length (hn ▸ hrightLt) hvs hright rfl
        exact ⟨span, hspan.widen hrightPart, hfault⟩

/-- Parentheses that pair up are never said not to. -/
theorem ofSpan_ne_unbalanced {l x : String} {ts : List Token} (hbalanced : balanced ts = true) :
    (ofSpan l ts).result ≠ .error (.unbalanced x) := by
  intro h
  obtain ⟨span, hspan, -, -, hfault⟩ := exists_faulty_subspan h hbalanced
  exact hfault hspan.paired

/-- A list is refused for a parenthesis without partner, or else for a fault of a subspan. -/
theorem ofTokens_error_cases {ts : List Token} {e : Malformed} (h : ofTokens ts = .error e) :
    (balanced ts = false ∧ e = .unbalanced (text ts)) ∨
    (balanced ts = true ∧ (∀ x, e ≠ .unbalanced x) ∧
      ∃ span, Subspan ts span ∧ e.expression = text span ∧ ofTokens span = .error e ∧
        e.AppliesTo span) := by
  by_cases hbalanced : balanced ts = true
  · rw [ofTokens_of_balanced hbalanced] at h
    refine Or.inr ⟨hbalanced, ?_, exists_faulty_subspan h hbalanced⟩
    rintro x rfl
    exact ofSpan_ne_unbalanced hbalanced h
  · rw [ofTokens_of_not_balanced hbalanced] at h
    cases h
    exact Or.inl ⟨Bool.not_eq_true _ ▸ hbalanced, rfl⟩

/-- A list of texts is refused as unbalanced exactly when a parenthesis has no partner, and then as a
whole. Every other refusal names a fault of a subspan, carries the text of that subspan, and is given
to the subspan by itself as well. -/
theorem error_names_fault {ts : List Token} {e : Malformed} (h : ofTokens ts = .error e) :
    ((∃ x, e = .unbalanced x) ↔ ¬ Paired ts) ∧
      (¬ Paired ts → e = .unbalanced (text ts)) ∧
      (Paired ts → ∃ span, Subspan ts span ∧ e.expression = text span ∧
        ofTokens span = .error e ∧ e.AppliesTo span) := by
  rcases ofTokens_error_cases h with ⟨hbalanced, rfl⟩ | ⟨hbalanced, hne, hfault⟩
  · simp [← balanced_iff_paired, hbalanced]
  · simp [← balanced_iff_paired, hbalanced, hne, hfault]

/-- In `C and ( ( A ) xor )` the fault is inside the outer parentheses to the right. -/
theorem error_names_fault_xor :
    let ts := ["C", "and", "(", "(", "A", ")", "xor", ")"]
    let e : Malformed := .invalidToken "xor" "( A ) xor"
    ofTokens ts = .error e ∧ ∃ span, Subspan ts span ∧ "( A ) xor" = text span ∧
      ofTokens span = .error e ∧ e.AppliesTo span := by
  intro ts e
  have h : ofTokens ts = .error e := by decide +kernel
  have hpaired : Paired ts := balanced_iff_paired.1 (by decide)
  exact ⟨h, (error_names_fault h).2.2 hpaired⟩

end Statement

end Propositional

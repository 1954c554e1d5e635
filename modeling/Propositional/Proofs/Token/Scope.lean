import Propositional.Proofs.Token.Strip

/-!
# Scopes

Two parentheses of a list match when every parenthesis between the two has its partner there. A scope
is a whole list, or what stands between two matching parentheses of it (`Scope`). A pair of matching
parentheses does not reach over a cut at level 0: it lies on one side (`Inside.of_append`), and a
pair around the whole list holds all others (`Inside.of_enclosed`).
-/

namespace Propositional.Token

/-- The span stands between two matching parentheses of the list. -/
def Inside (ts span : List Token) : Prop := enclosed span <:+: ts ∧ balanced span = true

/-- The span is the whole list, or stands between two matching parentheses of it. -/
def Scope (ts span : List Token) : Prop := span = ts ∨ Inside ts span

theorem Inside.widen {us ts span : List Token} (h : Inside us span) (hpart : us <:+: ts) :
    Inside ts span :=
  ⟨h.1.trans hpart, h.2⟩

theorem inside_enclosed_self {ts : List Token} (h : balanced ts = true) : Inside (enclosed ts) ts :=
  ⟨List.infix_rfl, h⟩

theorem isInfix_enclosed (ts : List Token) : ts <:+: enclosed ts := ⟨["("], [")"], rfl⟩

theorem Scope.inside_enclosed {ts span : List Token} (h : Scope ts span)
    (hbalanced : balanced ts = true) : Inside (enclosed ts) span := by
  rcases h with rfl | h
  · exact inside_enclosed_self hbalanced
  · exact h.widen (isInfix_enclosed ts)

theorem Inside.length_le {ts span : List Token} (h : Inside ts span) :
    span.length + 2 ≤ ts.length := by
  rw [← length_enclosed]
  exact h.1.length_le

/-- Between its two ends an enclosed list stays above the level outside. -/
theorem rise_pos_of_prefix_enclosed {ts us : List Token} (h : Covered ts) (hus : us <+: enclosed ts)
    (hne : us ≠ []) (hproper : us ≠ enclosed ts) : 0 < rise us := by
  rw [enclosed, List.cons_append, List.prefix_cons_iff] at hus
  rcases hus with hnil | ⟨vs, rfl, hvs⟩
  · exact absurd hnil hne
  · rcases List.prefix_concat_iff.1 hvs with rfl | hvs
    · exact absurd rfl hproper
    · have := h vs hvs
      rw [rise_cons, step_opening]
      omega

/-- A pair of matching parentheses lies on one side of a cut at level 0. -/
theorem Inside.of_append {us vs span : List Token} (h : Inside (us ++ vs) span)
    (hus : balanced us = true) : Inside us span ∨ Inside vs span := by
  obtain ⟨⟨as, bs, heq⟩, hspan⟩ := h
  rw [List.append_assoc] at heq
  rcases List.append_eq_append_iff.1 heq with ⟨cs, rfl, hcs⟩ | ⟨cs, -, rfl⟩
  · rcases List.append_eq_append_iff.1 hcs with ⟨ds, rfl, -⟩ | ⟨ds, hcut, rfl⟩
    · exact Or.inl ⟨⟨as, ds, List.append_assoc _ _ _⟩, hspan⟩
    · by_cases hne : cs = []
      · subst hne
        exact Or.inr ⟨⟨[], bs, by rw [hcut]; rfl⟩, hspan⟩
      by_cases hproper : cs = enclosed span
      · exact Or.inl ⟨⟨as, [], by rw [hproper, List.append_nil]⟩, hspan⟩
      · -- the pair would be open at the cut
        obtain ⟨hrise, hcov⟩ := balanced_iff.1 hus
        have has := hcov as (List.prefix_append as cs)
        have hpos := rise_pos_of_prefix_enclosed (balanced_iff.1 hspan).2 ⟨ds, hcut.symm⟩ hne hproper
        rw [rise_append] at hrise
        omega
  · exact Or.inr ⟨⟨cs, bs, List.append_assoc _ _ _⟩, hspan⟩

/-- A word between two balanced lists is no parenthesis, so that a pair lies in one of the two. -/
theorem Inside.of_joined {us vs span : List Token} {t : Token} (h : Inside (us ++ t :: vs) span)
    (hus : balanced us = true) (ht : step t = 0) : Inside us span ∨ Inside vs span := by
  refine (h.of_append hus).imp_right fun hvs => ?_
  have hword : balanced [t] = true := by rw [balanced_cons_of_step ht, balanced_nil]
  rw [← List.singleton_append] at hvs
  rcases hvs.of_append hword with hone | hvs
  · have := hone.length_le
    rw [List.length_singleton] at this
    omega
  · exact hvs

/-- The pair around a whole list is its own partner; every other pair lies between the two. -/
theorem Inside.of_enclosed {ts span : List Token} (h : Inside (enclosed ts) span)
    (hts : balanced ts = true) : Scope ts span := by
  obtain ⟨⟨as, bs, heq⟩, hspan⟩ := h
  obtain ⟨hrise, hcov⟩ := balanced_iff.1 hts
  obtain ⟨hspanRise, -⟩ := balanced_iff.1 hspan
  cases as with
  | nil =>
    -- the span ends at the level where it begins, which is at the end of the list
    have hprefix : enclosed span <+: enclosed ts := ⟨bs, heq⟩
    by_cases hall : enclosed span = enclosed ts
    · exact Or.inl (enclosed_inj.1 hall)
    · have := rise_pos_of_prefix_enclosed hcov hprefix (by simp [enclosed]) hall
      rw [rise_enclosed, hspanRise] at this
      omega
  | cons a as =>
    have htail : as ++ enclosed span ++ bs = ts ++ [")"] := (List.cons.inj heq).2
    rcases List.eq_nil_or_concat bs with rfl | ⟨cs, c, rfl⟩
    · -- a pair that takes the last parenthesis would leave the first one open
      have hts : as ++ "(" :: span = ts := by
        have hends : as ++ "(" :: span ++ [")"] = ts ++ [")"] := by
          rw [← htail, enclosed]
          simp
        exact List.append_cancel_right hends
      have has := hcov as ⟨"(" :: span, hts⟩
      rw [← hts, rise_append, rise_cons, step_opening, hspanRise] at hrise
      omega
    · rw [List.concat_eq_append, ← List.append_assoc] at htail
      exact Or.inr ⟨⟨as, cs, (List.append_inj' htail rfl).1⟩, hspan⟩

/-- Redundant parentheses are matching ones. -/
theorem scope_strip {ts : List Token} (h : balanced ts = true) : Scope ts (strip ts) := by
  refine strip_induction (P := fun ts us => balanced ts = true → Scope ts us)
    (fun ts _ _ => Or.inl rfl) (fun ts hts ih h => ?_) ts h
  rw [balanced_enclosed hts] at h
  exact Or.inr ((ih h).inside_enclosed h)

end Propositional.Token

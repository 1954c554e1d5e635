import Mathlib.Data.List.Chain
import Propositional.Proofs.Statement.Grammar
import Propositional.Proofs.Statement.Subspan

/-!
# Empty groups

Parentheses around nothing are no operand, and where an operand is looked for they are refused like
nothing at all. But in front of `not`, where nothing may stand, they pass for nothing as well. A list is
accepted exactly when it is without empty groups and accepted once the groups in front of `not` are
cleared away (`empty_groups_only_before_not`). The grammar is what both directions go by: a derivation
keeps its shape when groups in front of `not` come or go (`Derives.exists_cleared`,
`Derives.of_cleared`).
-/

namespace Propositional

open Token Occurrence Root

/-! ## Lists without empty groups -/

namespace Token

/-- Nowhere does a closing parenthesis follow right after an opening one. -/
def Solid (ts : List Token) : Prop := ¬ ["(", ")"] <:+: ts

/-- Not an opening parenthesis and a closing one. -/
def Apart (t u : Token) : Prop := ¬ (t = "(" ∧ u = ")")

theorem solid_iff_isChain {ts : List Token} : Solid ts ↔ ts.IsChain Apart := by
  rw [List.isChain_iff_forall_rel_of_append_cons_cons]
  constructor
  · rintro h t u us vs rfl ⟨rfl, rfl⟩
    exact h ⟨us, vs, by simp⟩
  · rintro h ⟨us, vs, rfl⟩
    have hsplit : us ++ ["(", ")"] ++ vs = us ++ "(" :: ")" :: vs := by simp
    exact h hsplit ⟨rfl, rfl⟩

theorem Solid.of_isInfix {us ts : List Token} (h : Solid ts) (hpart : us <:+: ts) : Solid us :=
  fun hus => h (hus.trans hpart)

theorem Solid.sides {us vs : List Token} {t : Token} (h : Solid (us ++ t :: vs)) :
    Solid us ∧ Solid vs :=
  ⟨h.of_isInfix (List.prefix_append us _).isInfix,
    h.of_isInfix ((List.suffix_cons t vs).trans (List.suffix_append us _)).isInfix⟩

theorem solid_joined {us vs : List Token} {t : Token} {op : Operator} (ht : operator? t = some op)
    (hus : Solid us) (hvs : Solid vs) : Solid (us ++ t :: vs) := by
  have hopen : t ≠ "(" := by
    rintro rfl
    cases ht
  have hclose : t ≠ ")" := by
    rintro rfl
    cases ht
  rw [solid_iff_isChain] at hus hvs ⊢
  refine List.isChain_append.2 ⟨hus, List.isChain_cons.2 ⟨fun u _ h => hopen h.1, hvs⟩, ?_⟩
  rintro u - v hv ⟨-, rfl⟩
  exact hclose (Option.some.inj hv)

/-- A list in which every parenthesis has its partner does not begin with a closing one. -/
theorem ne_closing_of_mem_head? {ts : List Token} (h : balanced ts = true) :
    ∀ t ∈ ts.head?, t ≠ ")" := by
  rintro t ht rfl
  obtain ⟨us, rfl⟩ := List.head?_eq_some_iff.1 ht
  have hrise := (balanced_iff.1 h).2 [")"] ⟨us, rfl⟩
  simp at hrise

theorem ne_opening_of_mem_getLast? {ts : List Token} (h : balanced ts = true) :
    ∀ t ∈ ts.getLast?, t ≠ "(" := by
  rintro t ht rfl
  obtain ⟨us, rfl⟩ := List.getLast?_eq_some_iff.1 ht
  obtain ⟨hrise, hcov⟩ := balanced_iff.1 h
  have hus := hcov us ⟨_, rfl⟩
  simp at hrise
  omega

theorem solid_enclosed {ts : List Token} (h : Solid ts) (hne : ts ≠ []) (hbalanced : balanced ts = true) :
    Solid (enclosed ts) := by
  rw [solid_iff_isChain] at h ⊢
  have hfront : ("(" :: ts).IsChain Apart :=
    List.isChain_cons.2 ⟨fun t ht hapart => ne_closing_of_mem_head? hbalanced t ht hapart.2, h⟩
  refine List.isChain_append.2 ⟨hfront, .singleton _, ?_⟩
  rintro t ht u - ⟨rfl, -⟩
  rw [List.getLast?_cons_of_ne_nil hne] at ht
  exact ne_opening_of_mem_getLast? hbalanced _ ht rfl

end Token

theorem EmptyGroup.not_solid {es : List Token} (h : EmptyGroup es) : ¬ Solid es := by
  induction h with
  | pair => exact fun hsolid => hsolid List.infix_rfl
  | wrap h ih => exact fun hsolid => ih (hsolid.of_isInfix ⟨["("], [")"], rfl⟩)

/-! ## Clearing groups away -/

/-- What is left of a list when some of the empty groups in front of `not` are taken out. -/
inductive Cleared : List Token → List Token → Prop
  | nil : Cleared [] []
  | cons {ts us : List Token} (t : Token) (h : Cleared ts us) : Cleared (t :: ts) (t :: us)
  | not {es ts us : List Token} (he : EmptyGroup es) (h : Cleared ts us) :
      Cleared (es ++ "not" :: ts) ("not" :: us)

namespace Cleared

variable {ts us vs ws : List Token} {t : Token}

theorem append (h : Cleared ts us) (h' : Cleared vs ws) : Cleared (ts ++ vs) (us ++ ws) := by
  induction h with
  | nil => exact h'
  | cons t h ih => exact .cons t ih
  | not he h ih =>
    rw [List.append_assoc]
    exact .not he ih

theorem joined (t : Token) (h : Cleared ts us) (h' : Cleared vs ws) :
    Cleared (ts ++ t :: vs) (us ++ t :: ws) :=
  h.append (.cons t h')

/-- Without `not` there is nothing to clear. -/
theorem eq_of_not_mem (h : Cleared ts us) (hnot : "not" ∉ ts) : us = ts := by
  induction h with
  | nil => rfl
  | cons t h ih => rw [ih fun hmem => hnot (List.mem_cons_of_mem t hmem)]
  | not he h ih => exact absurd (by simp) hnot

theorem exists_cons (h : Cleared ts (t :: us)) (ht : t ≠ "not") :
    ∃ as, ts = t :: as ∧ Cleared as us := by
  cases h with
  | cons t h => exact ⟨_, rfl, h⟩
  | not he h => exact absurd rfl ht

theorem exists_not (h : Cleared ts ("not" :: us)) :
    ∃ es as, (es = [] ∨ EmptyGroup es) ∧ ts = es ++ "not" :: as ∧ Cleared as us := by
  cases h with
  | cons t h => exact ⟨[], _, Or.inl rfl, rfl, h⟩
  | not he h => exact ⟨_, _, Or.inr he, rfl, h⟩

theorem exists_append (h : Cleared ts (us ++ vs)) :
    ∃ as bs, ts = as ++ bs ∧ Cleared as us ∧ Cleared bs vs := by
  induction us generalizing ts with
  | nil => exact ⟨[], ts, rfl, .nil, h⟩
  | cons u us ih =>
    cases h with
    | cons u h =>
      obtain ⟨as, bs, rfl, has, hbs⟩ := ih h
      exact ⟨u :: as, bs, rfl, .cons u has, hbs⟩
    | not he h =>
      obtain ⟨as, bs, rfl, has, hbs⟩ := ih h
      exact ⟨_, bs, by rw [← List.cons_append, ← List.append_assoc], .not he has, hbs⟩

theorem exists_joined (h : Cleared ts (us ++ t :: vs)) (ht : t ≠ "not") :
    ∃ as bs, ts = as ++ t :: bs ∧ Cleared as us ∧ Cleared bs vs := by
  obtain ⟨as, rest, rfl, has, hrest⟩ := h.exists_append
  obtain ⟨bs, rfl, hbs⟩ := hrest.exists_cons ht
  exact ⟨as, bs, rfl, has, hbs⟩

theorem exists_enclosed (h : Cleared ts (enclosed us)) : ∃ as, ts = enclosed as ∧ Cleared as us := by
  obtain ⟨front, back, rfl, hfront, hback⟩ := h.exists_joined (by decide)
  obtain ⟨as, rfl, has⟩ := hfront.exists_cons (by decide)
  cases hback
  exact ⟨as, rfl, has⟩

end Cleared

namespace Derives

variable {p : Phrase} {ts us : List Token} {f : Formula}

theorem ne_nil (h : Derives p ts f) : ts ≠ [] := by
  induction h <;> simp_all [enclosed]

/-- An operator between two lists from which the groups are gone makes no empty group. -/
theorem exists_cleared_joined {p q r : Phrase} {us vs : List Token} {t : Token} {op : Operator}
    {f g k : Formula} (ht : Token.operator? t = some op)
    (hf : ∃ ws, Cleared us ws ∧ Solid ws ∧ Derives p ws f)
    (hg : ∃ ws, Cleared vs ws ∧ Solid ws ∧ Derives q ws g)
    (hjoin : ∀ {us vs}, Derives p us f → Derives q vs g → Derives r (us ++ t :: vs) k) :
    ∃ ws, Cleared (us ++ t :: vs) ws ∧ Solid ws ∧ Derives r ws k := by
  obtain ⟨as, has, hsolid, hderives⟩ := hf
  obtain ⟨bs, hbs, hsolid', hderives'⟩ := hg
  exact ⟨_, has.joined t hbs, solid_joined ht hsolid hsolid', hjoin hderives hderives'⟩

/-- The groups in front of `not` may go, and then there are no empty groups. -/
theorem exists_cleared (h : Derives p ts f) : ∃ us, Cleared ts us ∧ Solid us ∧ Derives p us f := by
  induction h with
  | letter v =>
    exact ⟨_, .cons _ .nil, solid_iff_isChain.2 (.singleton _), .letter v⟩
  | group h ih =>
    obtain ⟨us, hus, hsolid, hderives⟩ := ih
    exact ⟨_, .joined _ (.cons _ hus) .nil, solid_enclosed hsolid hderives.ne_nil hderives.balanced,
      .group hderives⟩
  | not he h ih =>
    obtain ⟨us, hus, hsolid, hderives⟩ := ih
    refine ⟨"not" :: us, ?_, ?_, .not (Or.inl rfl) hderives⟩
    · rcases he with rfl | he
      · exact .cons _ hus
      · exact .not he hus
    · have hnil : Solid [] := by simp [Solid]
      exact List.nil_append ("not" :: us) ▸ solid_joined (operator?_eq_not_iff.2 rfl) hnil hsolid
  | and hf hg ihf ihg => exact exists_cleared_joined (operator?_eq_and_iff.2 rfl) ihf ihg .and
  | or hf hg ihf ihg => exact exists_cleared_joined (operator?_eq_or_iff.2 rfl) ihf ihg .or
  | conditional hc hf hg ihf ihg =>
    exact exists_cleared_joined (mem_conditionalWords_iff.1 hc).1 ihf ihg (.conditional hc)
  | atom h ih => exact ih.imp fun _ ⟨hus, hsolid, hderives⟩ => ⟨hus, hsolid, .atom hderives⟩
  | negation h ih => exact ih.imp fun _ ⟨hus, hsolid, hderives⟩ => ⟨hus, hsolid, .negation hderives⟩
  | conjunction h ih =>
    exact ih.imp fun _ ⟨hus, hsolid, hderives⟩ => ⟨hus, hsolid, .conjunction hderives⟩
  | disjunction h ih =>
    exact ih.imp fun _ ⟨hus, hsolid, hderives⟩ => ⟨hus, hsolid, .disjunction hderives⟩

/-- Groups may be put in front of each `not` of a list without empty groups. -/
theorem of_cleared (h : Derives p us f) (hsolid : Solid us) (hts : Cleared ts us) : Derives p ts f := by
  induction h generalizing ts with
  | letter v =>
    have hname : v.name ≠ "not" := by
      intro hname
      have hop := operator?_name v
      rw [hname] at hop
      cases hop
    obtain ⟨as, rfl, has⟩ := hts.exists_cons hname
    cases has
    exact .letter v
  | group h ih =>
    obtain ⟨as, rfl, has⟩ := hts.exists_enclosed
    exact .group (ih (hsolid.of_isInfix ⟨["("], [")"], rfl⟩) has)
  | @not gs us f hg h ih =>
    rcases hg with rfl | hg
    · obtain ⟨es, as, he, rfl, has⟩ := Cleared.exists_not hts
      exact .not he (ih (hsolid.of_isInfix (List.suffix_cons _ us).isInfix) has)
    · exact absurd (hsolid.of_isInfix (List.prefix_append gs _).isInfix) hg.not_solid
  | and hf hg ihf ihg =>
    obtain ⟨as, bs, rfl, has, hbs⟩ := hts.exists_joined (by decide)
    obtain ⟨hleft, hright⟩ := hsolid.sides
    exact .and (ihf hleft has) (ihg hright hbs)
  | or hf hg ihf ihg =>
    obtain ⟨as, bs, rfl, has, hbs⟩ := hts.exists_joined (by decide)
    obtain ⟨hleft, hright⟩ := hsolid.sides
    exact .or (ihf hleft has) (ihg hright hbs)
  | conditional hc hf hg ihf ihg =>
    have hword : ∀ {c op}, (c, op) ∈ conditionalWords → c ≠ "not" := by
      rintro c op hc rfl
      obtain ⟨hop, hrank⟩ := mem_conditionalWords_iff.1 hc
      rw [operator?_eq_not_iff.2 rfl] at hop
      obtain rfl := Option.some.inj hop
      cases hrank
    obtain ⟨as, bs, rfl, has, hbs⟩ := hts.exists_joined (hword hc)
    obtain ⟨hleft, hright⟩ := hsolid.sides
    exact .conditional hc (ihf hleft has) (ihg hright hbs)
  | atom h ih => exact .atom (ih hsolid hts)
  | negation h ih => exact .negation (ih hsolid hts)
  | conjunction h ih => exact .conjunction (ih hsolid hts)
  | disjunction h ih => exact .disjunction (ih hsolid hts)

end Derives

namespace Statement

/-- A list in which `not` is the only operator outside the parentheses, and does not come first, is refused
unless it is an empty group that comes first. -/
theorem ofTokens_of_all_not {ts : List Token} (hbalanced : balanced ts = true)
    (hne : operators (strip ts) ≠ []) (hall : ∀ op ∈ operators (strip ts), op = .not)
    (hhead : (strip ts).head? ≠ some "not") :
    ∃ us vs, strip ts = us ++ "not" :: vs ∧ IsRoot .not us "not" vs ∧ us ≠ [] ∧
      (¬ EmptyGroup us → ofTokens ts = .error (if strip vs = [] then
        .missingOperand .not (text (strip ts)) else .unexpectedOperand .not (text (strip ts)))) := by
  rcases root_cases (strip ts) with hops | hcount | ⟨op, us, t, vs, hts, hroot⟩
  · exact absurd hops hne
  · rw [List.countP_eq_zero.2 fun op hop => by rw [hall op hop]; decide] at hcount
    cases hcount
  · obtain rfl : op = .not := hall op (by rw [hts, hroot.operators_eq]; simp)
    obtain rfl := operator?_eq_not_iff.1 hroot.spells
    have hus : us ≠ [] := by
      rintro rfl
      exact hhead (by rw [hts]; rfl)
    refine ⟨us, vs, hts, hroot, hus, fun hgroup => ?_⟩
    have hleft : strip us ≠ [] := fun h => (strip_eq_nil_iff.1 h).elim hus hgroup
    rw [ofTokens_of_balanced hbalanced, ← ofSpan_strip, hts, ofSpan_isRoot _ hroot, if_pos rfl,
      if_neg hleft, Reading.result_noting]
    split <;> rfl

/-- A list is accepted, as a certain formula, exactly when it is accepted as that formula after empty
groups in front of `not` are taken out and no empty group is left then. So lists with any other empty group
are refused, and a list in which something stands to the left of `not` is refused unless that is an empty
group. -/
theorem empty_groups_only_before_not (ts : List Token) :
    (∀ f, (∃ s, ofTokens ts = .ok s ∧ s.formula = f) ↔
      ∃ us, Cleared ts us ∧ Solid us ∧ ∃ s, ofTokens us = .ok s ∧ s.formula = f) ∧
    ((∀ us, Cleared ts us → ["(", ")"] <:+: us) → ∃ e, ofTokens ts = .error e) ∧
    (balanced ts = true → operators (strip ts) ≠ [] → (∀ op ∈ operators (strip ts), op = .not) →
      (strip ts).head? ≠ some "not" →
        ∃ us vs, strip ts = us ++ "not" :: vs ∧ IsRoot .not us "not" vs ∧ us ≠ [] ∧
          (¬ EmptyGroup us → ofTokens ts = .error (if strip vs = [] then
            .missingOperand .not (text (strip ts)) else .unexpectedOperand .not (text (strip ts))))) := by
  refine ⟨fun f => ⟨?_, ?_⟩, fun h => ?_, ofTokens_of_all_not⟩
  · rintro ⟨s, hs, rfl⟩
    obtain ⟨us, hus, hsolid, hderives⟩ := (derives_of_ofPaired hs).exists_cleared
    exact ⟨us, hus, hsolid, hderives.ofPaired_eq_ok (text us)⟩
  · rintro ⟨us, hus, hsolid, s, hs, rfl⟩
    exact ((derives_of_ofPaired hs).of_cleared hsolid hus).ofPaired_eq_ok (text ts)
  · cases hread : ofTokens ts with
    | error e => exact ⟨e, rfl⟩
    | ok s =>
      obtain ⟨us, hus, hsolid, -⟩ := (derives_of_ofPaired hread).exists_cleared
      exact absurd (h us hus) hsolid

theorem empty_groups_only_before_not_and :
    let ts := ["A", "and", "(", ")"]
    let us := ["(", "A", ")", "not", "B"]
    (∀ ws, Cleared ts ws → ["(", ")"] <:+: ws) ∧ (∃ e, ofTokens ts = .error e) ∧
      balanced us = true ∧ operators (strip us) ≠ [] ∧ (∀ op ∈ operators (strip us), op = .not) ∧
      (strip us).head? ≠ some "not" ∧ ∃ front back, strip us = front ++ "not" :: back ∧
        (¬ EmptyGroup front → ofTokens us = .error (if strip back = [] then
          .missingOperand .not "( A ) not B" else .unexpectedOperand .not "( A ) not B")) := by
  intro ts us
  have hgroup : ∀ ws, Cleared ts ws → ["(", ")"] <:+: ws := by
    intro ws hws
    rw [hws.eq_of_not_mem (by decide)]
    exact ⟨["A", "and"], [], rfl⟩
  have hstrip : strip us = us := by decide +kernel
  have hne : operators (strip us) ≠ [] := by decide +kernel
  have hall : ∀ op ∈ operators (strip us), op = .not := by decide +kernel
  have hhead : (strip us).head? ≠ some "not" := by decide +kernel
  obtain ⟨front, back, hus, -, -, hread⟩ :=
    (empty_groups_only_before_not us).2.2 (by decide) hne hall hhead
  rw [hstrip] at hread
  exact ⟨hgroup, (empty_groups_only_before_not ts).2.1 hgroup, by decide, hne, hall, hhead, front, back, hus,
    hread⟩

/-- An empty group is accepted in front of `not`. -/
theorem empty_group_accepted :
    let ts := ["(", ")", "not", "A"]
    balanced ts = true ∧ ["(", ")"] <:+: ts ∧ operators (strip ts) = [.not] ∧
      (strip ts).head? ≠ some "not" ∧
      ofTokens ts = .ok (.negation "( ) not A" (.singleton ⟨0⟩) (.ofLetter ⟨0⟩)) := by
  decide +kernel

end Statement

end Propositional

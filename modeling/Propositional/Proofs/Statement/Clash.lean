import Propositional.Proofs.Statement.Fault
import Propositional.Proofs.Statement.Grammar
import Propositional.Proofs.Token.Scope

/-!
# Conditionals that clash

Two conditionals that stand in one scope, with no parentheses to tell which of them comes first, are a
`Clash`. The reader compares each conditional with the loosest operator so far only, and looks at one
part of a list after the other; still it says that precedence is missing only where there is a clash
in some scope (`exists_clash_of_ambiguous`), and a list that it accepts has a clash in none
(`Derives.not_clash_of_scope`).
-/

namespace Propositional

open Token Occurrence Root

/-- Two conditionals stand in the list outside all its parentheses. -/
def Clash (ts : List Token) : Prop :=
  ∃ us c ms d vs, ts = us ++ c :: (ms ++ d :: vs) ∧ balanced us = true ∧ balanced ms = true ∧
    c ∈ conditionalWords.map Prod.fst ∧ d ∈ conditionalWords.map Prod.fst

/-! ## Clashes and operators -/

theorem mem_map_conditionalWords_iff {c : Token} :
    c ∈ conditionalWords.map Prod.fst ↔ ∃ op, operator? c = some op ∧ op.isConditional = true := by
  simp only [List.mem_map, Prod.exists, exists_and_right, exists_eq_right,
    mem_conditionalWords_iff, Operator.isConditional_iff]

/-- Two of the elements that are counted, the first before the second. -/
theorem exists_pair_of_two_le_countP {α : Type} {p : α → Bool} {xs : List α}
    (h : 2 ≤ xs.countP p) :
    ∃ as x bs y cs, xs = as ++ x :: (bs ++ y :: cs) ∧ p x = true ∧ p y = true := by
  obtain ⟨x, hx, hpx⟩ := List.countP_pos_iff.1 (Nat.lt_of_lt_of_le Nat.zero_lt_two h)
  obtain ⟨as, ds, rfl⟩ := List.append_of_mem hx
  rw [List.countP_append, List.countP_cons, if_pos hpx] at h
  by_cases hds : 0 < ds.countP p
  · obtain ⟨y, hy, hpy⟩ := List.countP_pos_iff.1 hds
    obtain ⟨bs, cs, rfl⟩ := List.append_of_mem hy
    exact ⟨as, x, bs, y, cs, rfl, hpx, hpy⟩
  · have has : 0 < as.countP p := by omega
    obtain ⟨y, hy, hpy⟩ := List.countP_pos_iff.1 has
    obtain ⟨bs, cs, rfl⟩ := List.append_of_mem hy
    exact ⟨bs, y, cs, x, ds, by rw [List.append_assoc, List.cons_append], hpy, hpx⟩

/-- Conditionals outside all parentheses are operators there. -/
theorem clash_iff {ts : List Token} (h : balanced ts = true) :
    Clash ts ↔ 2 ≤ (operators ts).countP Operator.isConditional := by
  constructor
  · rintro ⟨us, c, ms, d, vs, rfl, hus, hms, hc, hd⟩
    obtain ⟨o, ho, hocond⟩ := mem_map_conditionalWords_iff.1 hc
    obtain ⟨p, hp, hpcond⟩ := mem_map_conditionalWords_iff.1 hd
    rw [operators_append (balanced_iff.1 hus).1, operators_cons_operator ho,
      operators_append (balanced_iff.1 hms).1, operators_cons_operator hp]
    simp only [List.countP_append, List.countP_cons, hocond, hpcond, if_true]
    omega
  · intro hcount
    rw [operators, List.countP_map] at hcount
    obtain ⟨as, o, bs, p, cs, houter, hocond, hpcond⟩ := exists_pair_of_two_le_countP hcount
    -- the first of the two cuts the list, and the second one cuts what follows it
    obtain ⟨us, c, ws, rfl, -, hc, hus, -, hws⟩ := exists_split_of_outerFrom houter
    rw [Int.zero_add] at hus
    obtain ⟨husBalanced, hwsBalanced⟩ := balanced_split h hus (step_of_operator hc)
    obtain ⟨ms, d, vs, rfl, -, hd, hms, -, -⟩ := exists_split_of_outerFrom hws
    rw [Int.zero_add] at hms
    obtain ⟨hmsBalanced, -⟩ := balanced_split hwsBalanced hms (step_of_operator hd)
    exact ⟨us, c, ms, d, vs, rfl, husBalanced, hmsBalanced,
      mem_map_conditionalWords_iff.2 ⟨_, hc, hocond⟩, mem_map_conditionalWords_iff.2 ⟨_, hd, hpcond⟩⟩

theorem not_clash_of_rank_le {ts : List Token} (h : balanced ts = true)
    (hrank : ∀ o ∈ operators ts, o.rank ≤ 3) : ¬ Clash ts := by
  have hnone : (operators ts).countP Operator.isConditional = 0 := by
    rw [List.countP_eq_zero]
    intro o ho hcond
    have := hrank o ho
    rw [Operator.isConditional_iff] at hcond
    omega
  rw [clash_iff h]
  omega

theorem Clash.strip_eq {ts : List Token} (h : Clash ts) (hbalanced : balanced ts = true) :
    strip ts = ts := by
  refine strip_of_operators fun hnil => ?_
  have := (clash_iff hbalanced).1 h
  rw [hnil] at this
  cases this

/-- The two sides of a root have no clash outside their parentheses. -/
theorem Root.IsRoot.not_clash {op : Operator} {us vs : List Token} {t : Token}
    (h : IsRoot op us t vs) (hus : balanced us = true) (hvs : balanced vs = true) :
    ¬ Clash us ∧ ¬ Clash vs := by
  have hop := op.rank_le
  refine ⟨not_clash_of_rank_le hus fun o ho => ?_, not_clash_of_rank_le hvs fun o ho => ?_⟩
  · have := h.left o ho
    omega
  · have := h.right o ho
    omega

namespace Statement

/-- A clash in what is left of a list without redundant parentheses comes before all other faults. -/
theorem ofSpan_of_clash (l : String) {ts : List Token} (hbalanced : balanced ts = true)
    (h : Clash (strip ts)) : ofSpan l ts = .failed (.ambiguousPrecedence (text (strip ts))) := by
  rw [← balanced_strip] at hbalanced
  exact ofSpan_ambiguous l ((clash_iff hbalanced).1 h)

/-! ## Where precedence is said to be missing -/

/-- Precedence is said to be missing only where two conditionals clash. -/
theorem exists_clash_of_ambiguous {l x : String} {ts : List Token}
    (h : (ofSpan l ts).result = .error (.ambiguousPrecedence x)) (hbalanced : balanced ts = true) :
    ∃ span, Scope ts span ∧ Clash span := by
  induction hn : ts.length using Nat.strongRecOn generalizing l ts with
  | ind n ih =>
    rcases ofSpan_error_cases h with ⟨-, happlies⟩ | ⟨op, us, t, vs, hts, hroot, m, hside⟩
    · refine ⟨strip ts, scope_strip hbalanced, (clash_iff ?_).2 happlies⟩
      rw [balanced_strip, hbalanced]
    · -- the side that fails has no clash of its own, but one between parentheses
      obtain ⟨⟨hleftPart, hleft⟩, hrightPart, hright⟩ := hroot.sides hts hbalanced
      obtain ⟨hleftClash, hrightClash⟩ := hroot.not_clash hleft hright
      obtain ⟨hleftLt, hrightLt⟩ := length_sides_lt hts
      rcases hside with hus | hvs
      · obtain ⟨span, rfl | hspan, hclash⟩ := ih us.length (hn ▸ hleftLt) hus hleft rfl
        · exact absurd hclash hleftClash
        · exact ⟨span, Or.inr (hspan.widen hleftPart), hclash⟩
      · obtain ⟨span, rfl | hspan, hclash⟩ := ih vs.length (hn ▸ hrightLt) hvs hright rfl
        · exact absurd hclash hrightClash
        · exact ⟨span, Or.inr (hspan.widen hrightPart), hclash⟩

end Statement

/-! ## Accepted lists -/

theorem EmptyGroup.of_inside {es span : List Token} (h : EmptyGroup es) (hspan : Inside es span) :
    span = [] ∨ EmptyGroup span := by
  induction h with
  | pair =>
    rcases hspan.of_enclosed balanced_nil with rfl | hspan
    · exact Or.inl rfl
    · cases hspan.length_le
  | wrap h ih =>
    rcases hspan.of_enclosed h.balanced with rfl | hspan
    · exact Or.inr h
    · exact ih hspan

/-- Between matching parentheses of a phrase stands a phrase, or nothing at all. -/
theorem Derives.of_inside {p : Phrase} {ts span : List Token} {f : Formula} (h : Derives p ts f)
    (hspan : Inside ts span) : (∃ g, Derives .conditional span g) ∨ span = [] ∨ EmptyGroup span := by
  induction h with
  | letter v =>
    have := hspan.length_le
    rw [List.length_singleton] at this
    omega
  | group h ih =>
    rcases hspan.of_enclosed h.balanced with rfl | hspan
    · exact Or.inl ⟨_, h⟩
    · exact ih hspan
  | not he h ih =>
    rcases he with rfl | he
    · rcases hspan.of_joined balanced_nil rfl with hspan | hspan
      · cases hspan.length_le
      · exact ih hspan
    · rcases hspan.of_joined he.balanced rfl with hspan | hspan
      · exact Or.inr (he.of_inside hspan)
      · exact ih hspan
  | and hf hg ihf ihg => exact (hspan.of_joined hf.balanced rfl).elim ihf ihg
  | or hf hg ihf ihg => exact (hspan.of_joined hf.balanced rfl).elim ihf ihg
  | conditional hc hf hg ihf ihg =>
    exact (hspan.of_joined hf.balanced (step_of_operator (mem_conditionalWords_iff.1 hc).1)).elim
      ihf ihg
  | _ h ih => exact ih hspan

theorem EmptyGroup.not_clash {es : List Token} (h : EmptyGroup es) : ¬ Clash es :=
  not_clash_of_rank_le h.balanced (by simp [h.operators_eq])

theorem Derives.not_clash {p : Phrase} {ts : List Token} {f : Formula} (h : Derives p ts f) :
    ¬ Clash ts := by
  intro hclash
  obtain ⟨s, hs, -⟩ := h.reads (text ts)
  rw [Statement.ofSpan_of_clash _ h.balanced (by rwa [hclash.strip_eq h.balanced])] at hs
  cases hs

/-- No scope of a phrase has a clash. -/
theorem Derives.not_clash_of_scope {p : Phrase} {ts span : List Token} {f : Formula}
    (h : Derives p ts f) (hspan : Scope ts span) : ¬ Clash span := by
  rcases hspan with rfl | hspan
  · exact h.not_clash
  · rcases h.of_inside hspan with ⟨g, hg⟩ | rfl | he
    · exact hg.not_clash
    · exact not_clash_of_rank_le balanced_nil (by simp)
    · exact he.not_clash

end Propositional

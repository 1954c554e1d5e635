import Propositional.Proofs.Token.Strip
import Propositional.Statement.Root

/-!
# The root of a list of tokens

The search for the root goes through the operators outside all parentheses and keeps the best so far.
`Root.Describes` says what the best so far knows of the operators seen; one more operator keeps it
(`Describes.extend`), so that it holds of the root found in the end. Read backwards this gives the
three outcomes: no operator, two conditionals, or a cut at an operator (`IsRoot`) that binds looser
than all before it and at least as loosely as all behind it.
-/

namespace Propositional

open Token

theorem Operator.isConditional_iff {op : Operator} : op.isConditional = true ↔ op.rank = 4 := by
  cases op <;> decide

theorem Operator.rank_le (op : Operator) : op.rank ≤ 4 := by
  cases op <;> decide

namespace Occurrence

/-! ## Operators outside all parentheses -/

/-- The operators outside all parentheses, without their places. -/
def operators (ts : List Token) : List Operator := (outer ts).map op

/-- A token as an operator outside all parentheses: only at level 0. -/
def here (level : Int) (i : Nat) (t : Token) : List Occurrence :=
  match operator? t with
  | some op => if level = 0 then [⟨i, op⟩] else []
  | none => []

theorem here_operator {t : Token} {op : Operator} (h : operator? t = some op) (i : Nat) :
    here 0 i t = [⟨i, op⟩] := by
  rw [here, h]
  rfl

theorem here_cases (level : Int) (i : Nat) (t : Token) :
    here level i t = [] ∨
      ∃ op, level = 0 ∧ operator? t = some op ∧ here level i t = [⟨i, op⟩] := by
  cases hop : operator? t with
  | none => exact Or.inl (by rw [here, hop])
  | some op =>
    by_cases hlevel : level = 0
    · subst hlevel
      exact Or.inr ⟨op, rfl, rfl, here_operator hop i⟩
    · refine Or.inl ?_
      rw [here, hop]
      exact if_neg hlevel

theorem here_of_ne {level : Int} (h : level ≠ 0) (i : Nat) (t : Token) : here level i t = [] := by
  rcases here_cases level i t with hnil | ⟨_, hlevel, _⟩
  · exact hnil
  · exact absurd hlevel h

theorem outerFrom_cons (level : Int) (i : Nat) (t : Token) (ts : List Token) :
    outerFrom level i (t :: ts) = here level i t ++ outerFrom (level + step t) (i + 1) ts := by
  cases hop : operator? t with
  | some op =>
    have hk := kind_eq_operator_iff.2 hop
    simp only [outerFrom, here, hk, hop, step_of_operator hop, Int.add_zero]
    split <;> rfl
  | none =>
    rw [outerFrom, here, hop]
    split
    · rename_i op hk
      rw [kind_eq_operator_iff.1 hk] at hop
      cases hop
    · rfl

theorem outerFrom_append (level : Int) (i : Nat) (us ts : List Token) :
    outerFrom level i (us ++ ts) =
      outerFrom level i us ++ outerFrom (level + rise us) (i + us.length) ts := by
  induction us generalizing level i with
  | nil => simp [outerFrom]
  | cons u us ih =>
    have hlevel : level + step u + rise us = level + rise (u :: us) := by
      rw [rise_cons]
      omega
    have hplace : i + 1 + us.length = i + (u :: us).length := by
      rw [List.length_cons]
      omega
    rw [List.cons_append, outerFrom_cons, ih, outerFrom_cons level i u us, List.append_assoc, hlevel,
      hplace]

theorem map_op_outerFrom (level : Int) (i j : Nat) (ts : List Token) :
    (outerFrom level i ts).map op = (outerFrom level j ts).map op := by
  induction ts generalizing level i j with
  | nil => rfl
  | cons t ts ih =>
    have hhere : (here level i t).map op = (here level j t).map op := by
      rcases here_cases level i t with h | ⟨op, rfl, hop, h⟩
      · rcases here_cases level j t with h' | ⟨op, rfl, hop, -⟩
        · rw [h, h']
        · rw [here_operator hop] at h
          cases h
      · rw [h, here_operator hop]
        rfl
    rw [outerFrom_cons, outerFrom_cons, List.map_append, List.map_append, hhere,
      ih _ (i + 1) (j + 1)]

/-- Nothing is outside all parentheses in a list that stays above level 0. -/
theorem outerFrom_eq_nil {level : Int} {ts : List Token} (i : Nat)
    (h : ∀ us, us <+: ts → 0 < level + rise us) : outerFrom level i ts = [] := by
  induction ts generalizing level i with
  | nil => rfl
  | cons t ts ih =>
    rw [forall_prefix_cons] at h
    have hlevel : level ≠ 0 := by
      have := h.1
      rw [rise_nil] at this
      omega
    have hrest : outerFrom (level + step t) (i + 1) ts = [] := by
      refine ih _ fun us hus => ?_
      have := h.2 us hus
      rw [rise_cons] at this
      omega
    rw [outerFrom_cons, here_of_ne hlevel, hrest]
    rfl

/-- A place among the operators outside all parentheses is a place in the list, at level 0. -/
theorem exists_split_of_outerFrom {level : Int} {i : Nat} {ts : List Token}
    {before after : List Occurrence} {o : Occurrence}
    (h : outerFrom level i ts = before ++ o :: after) :
    ∃ us t vs, ts = us ++ t :: vs ∧ o.place = i + us.length ∧ operator? t = some o.op ∧
      level + rise us = 0 ∧ outerFrom level i us = before ∧ outerFrom 0 (o.place + 1) vs = after := by
  induction ts generalizing level i before with
  | nil => simp [outerFrom] at h
  | cons t ts ih =>
    rw [outerFrom_cons] at h
    -- the operator sought is the token at hand or stands behind it
    have hcases : (here level i t = [o] ∧ before = [] ∧ outerFrom (level + step t) (i + 1) ts = after) ∨
        ∃ rest, before = here level i t ++ rest ∧
          outerFrom (level + step t) (i + 1) ts = rest ++ o :: after := by
      rcases here_cases level i t with hnil | ⟨op, -, -, hone⟩
      · rw [hnil] at h ⊢
        exact Or.inr ⟨before, rfl, h⟩
      · rw [hone] at h ⊢
        cases before with
        | nil =>
          cases h
          exact Or.inl ⟨rfl, rfl, rfl⟩
        | cons b rest =>
          rw [List.cons_append, List.cons_append, List.nil_append, List.cons.injEq] at h
          exact Or.inr ⟨rest, by rw [h.1]; rfl, h.2⟩
    rcases hcases with ⟨hhere, rfl, hafter⟩ | ⟨rest, rfl, hrest⟩
    · rcases here_cases level i t with hnil | ⟨op, rfl, hop, hone⟩
      · rw [hnil] at hhere
        cases hhere
      · rw [hone] at hhere
        cases hhere
        rw [step_of_operator hop] at hafter
        exact ⟨[], t, ts, rfl, rfl, hop, rfl, rfl, hafter⟩
    · obtain ⟨us, u, vs, rfl, hplace, hop, hlevel, hus, hvs⟩ := ih hrest
      refine ⟨t :: us, u, vs, rfl, ?_, hop, ?_, ?_, hvs⟩
      · rw [List.length_cons]
        omega
      · rw [rise_cons]
        omega
      · rw [outerFrom_cons, hus]

@[simp] theorem operators_nil : operators [] = [] := rfl

theorem operators_append {us : List Token} (h : rise us = 0) (ts : List Token) :
    operators (us ++ ts) = operators us ++ operators ts := by
  rw [operators, outer, outerFrom_append, List.map_append, h, Int.add_zero,
    map_op_outerFrom 0 _ 0 ts]
  rfl

theorem operators_cons_operator {t : Token} {op : Operator} (h : operator? t = some op)
    (ts : List Token) : operators (t :: ts) = op :: operators ts := by
  have ht : operators [t] = [op] := by
    rw [operators, outer, outerFrom_cons, here_operator h]
    rfl
  have hrise : rise [t] = 0 := by
    rw [rise_cons, step_of_operator h]
    rfl
  rw [← List.singleton_append, operators_append hrise, ht]
  rfl

theorem operators_enclosed {ts : List Token} (h : Covered ts) : operators (enclosed ts) = [] := by
  have hinner : outerFrom 1 1 ts = [] := by
    refine outerFrom_eq_nil 1 fun us hus => ?_
    have := h us hus
    omega
  have hpos : (1 : Int) + rise ts ≠ 0 := by
    have := h.rise_nonneg
    omega
  rw [operators, outer, enclosed, List.cons_append, outerFrom_cons, outerFrom_append, step_opening,
    Int.zero_add, hinner, outerFrom_cons, here_of_ne hpos]
  rfl

@[simp] theorem operators_name (v : Letter) : operators [v.name] = [] := by
  rw [operators, outer, outerFrom_cons, here, operator?_name]
  rfl

end Occurrence

namespace Root

open Occurrence

/-! ## The best operator so far -/

/-- What a root says of the operators it was chosen from. The rank 3 is the greatest of those that
may meet a conditional: two conditionals never stand in one described list with a root. -/
def Describes : Root → List Occurrence → Prop
  | absent, os => os = []
  | found o, os => ∃ before after, os = before ++ o :: after ∧
      (∀ p ∈ before, p.op.rank < o.op.rank) ∧ ∀ p ∈ after, p.op.rank ≤ min o.op.rank 3
  | ambiguous, os => 2 ≤ os.countP (·.op.isConditional)

theorem Describes.extend {r : Root} {os : List Occurrence} (h : r.Describes os) (o : Occurrence) :
    (r.extend o).Describes (os ++ [o]) := by
  cases r with
  | absent =>
    obtain rfl : os = [] := h
    exact ⟨[], [], rfl, by simp, by simp⟩
  | found best =>
    obtain ⟨before, after, rfl, hbefore, hafter⟩ := h
    by_cases hboth : best.op.isConditional && o.op.isConditional
    · -- two conditionals have met
      rw [Root.extend, if_pos hboth]
      rw [Bool.and_eq_true] at hboth
      simp only [Describes, List.countP_append, List.countP_cons, hboth, if_true]
      omega
    · have hnot : ¬ (best.op.rank = 4 ∧ o.op.rank = 4) := by
        rw [Bool.and_eq_true, Operator.isConditional_iff, Operator.isConditional_iff] at hboth
        exact hboth
      have hbest := best.op.rank_le
      by_cases hrank : best.op.rank < o.op.rank
      · -- the new operator is looser than all before it
        rw [Root.extend, if_neg hboth, if_pos hrank]
        refine ⟨before ++ best :: after, [], rfl, fun p hp => ?_, by simp⟩
        rcases List.mem_append.1 hp with hp | hp
        · have := hbefore p hp
          omega
        · rcases List.mem_cons.1 hp with rfl | hp
          · exact hrank
          · have := hafter p hp
            omega
      · rw [Root.extend, if_neg hboth, if_neg hrank]
        refine ⟨before, after ++ [o], by simp, hbefore, fun p hp => ?_⟩
        rcases List.mem_append.1 hp with hp | hp
        · exact hafter p hp
        · obtain rfl := List.mem_singleton.1 hp
          omega
  | ambiguous =>
    simp only [Root.extend, Describes, List.countP_append] at h ⊢
    omega

theorem Describes.foldl_extend {r : Root} {os : List Occurrence} (h : r.Describes os)
    (ps : List Occurrence) : (ps.foldl Root.extend r).Describes (os ++ ps) := by
  induction ps generalizing r os with
  | nil => simpa using h
  | cons p ps ih =>
    have := ih (h.extend p)
    rwa [List.append_assoc, List.singleton_append] at this

/-- A root that is found leaves room for one conditional at most. -/
theorem Describes.countP_le_one {o : Occurrence} {os : List Occurrence} (h : (found o).Describes os) :
    os.countP (·.op.isConditional) ≤ 1 := by
  obtain ⟨before, after, rfl, hbefore, hafter⟩ := h
  have hole := o.op.rank_le
  have hzero : ∀ ps : List Occurrence, (∀ p ∈ ps, p.op.rank < 4) →
      ps.countP (·.op.isConditional) = 0 := by
    intro ps hps
    rw [List.countP_eq_zero]
    intro p hp hcond
    have := hps p hp
    rw [Operator.isConditional_iff] at hcond
    omega
  rw [List.countP_append, List.countP_cons, hzero before fun p hp => ?_, hzero after fun p hp => ?_]
  · split <;> omega
  · have := hafter p hp
    omega
  · have := hbefore p hp
    omega

/-- The root is the leftmost of the loosest operators, so there is one at most. -/
theorem Describes.found_inj {o p : Occurrence} {os : List Occurrence} (ho : (found o).Describes os)
    (hp : (found p).Describes os) : o = p := by
  -- of two such operators the first would be tighter than the second and no tighter
  have hfirst : ∀ {o p : Occurrence} {before between after : List Occurrence},
      (∀ q ∈ before ++ o :: between, q.op.rank < p.op.rank) →
        ¬ ∀ q ∈ between ++ p :: after, q.op.rank ≤ min o.op.rank 3 := by
    intro o p before between after hlt hle
    have := hlt o (by simp)
    have := hle p (by simp)
    omega
  obtain ⟨before, after, rfl, hbefore, hafter⟩ := ho
  obtain ⟨before', after', hos, hbefore', hafter'⟩ := hp
  rcases List.append_eq_append_iff.1 hos with ⟨as, rfl, has⟩ | ⟨as, rfl, has⟩
  · cases as with
    | nil => exact (List.cons.inj has).1
    | cons a as =>
      obtain ⟨rfl, rfl⟩ := List.cons.inj has
      exact absurd hafter (hfirst hbefore')
  · cases as with
    | nil => exact (List.cons.inj has).1.symm
    | cons a as =>
      obtain ⟨rfl, rfl⟩ := List.cons.inj has
      exact absurd hafter' (hfirst hbefore)

/-- The operators decide which root describes them. -/
theorem Describes.unique {r r' : Root} {os : List Occurrence} (h : r.Describes os)
    (h' : r'.Describes os) : r = r' := by
  cases r with
  | absent =>
    obtain rfl : os = [] := h
    cases r' with
    | absent => rfl
    | found o =>
      obtain ⟨before, after, hos, -⟩ := h'
      simp at hos
    | ambiguous => simp [Describes] at h'
  | found o =>
    cases r' with
    | absent =>
      obtain rfl : os = [] := h'
      obtain ⟨before, after, hos, -⟩ := h
      simp at hos
    | found p => exact congrArg found (h.found_inj h')
    | ambiguous =>
      have := h.countP_le_one
      simp only [Describes] at h'
      omega
  | ambiguous =>
    cases r' with
    | absent =>
      obtain rfl : os = [] := h'
      simp [Describes] at h
    | found o =>
      have := h'.countP_le_one
      simp only [Describes] at h
      omega
    | ambiguous => rfl

theorem describes_ofTokens (ts : List Token) : (ofTokens ts).Describes (outer ts) :=
  Describes.foldl_extend (show absent.Describes [] from rfl) (outer ts)

theorem ofTokens_eq_iff {ts : List Token} {r : Root} : ofTokens ts = r ↔ r.Describes (outer ts) :=
  ⟨fun h => h ▸ describes_ofTokens ts, fun h => (describes_ofTokens ts).unique h⟩

/-! ## The three outcomes, said of tokens -/

/-- The list `us ++ t :: vs` has its root at `t`, which spells `op`: no parenthesis is open there, the
operators to the left bind tighter, and those to the right no looser. None of these is a conditional
if `op` is one: that is what the 3 is for. -/
structure IsRoot (op : Operator) (us : List Token) (t : Token) (vs : List Token) : Prop where
  spells : operator? t = some op
  rise_eq : rise us = 0
  left : ∀ p ∈ operators us, p.rank < op.rank
  right : ∀ p ∈ operators vs, p.rank ≤ min op.rank 3

theorem ofTokens_eq_absent_iff {ts : List Token} : ofTokens ts = absent ↔ operators ts = [] := by
  rw [ofTokens_eq_iff, Describes, operators, List.map_eq_nil_iff]

theorem ofTokens_eq_ambiguous_iff {ts : List Token} :
    ofTokens ts = ambiguous ↔ 2 ≤ (operators ts).countP Operator.isConditional := by
  rw [ofTokens_eq_iff, Describes, operators, List.countP_map]
  rfl

theorem exists_isRoot {ts : List Token} {o : Occurrence} (h : ofTokens ts = found o) :
    ∃ us t vs, ts = us ++ t :: vs ∧ us.length = o.place ∧ IsRoot o.op us t vs := by
  obtain ⟨before, after, hos, hbefore, hafter⟩ := ofTokens_eq_iff.1 h
  obtain ⟨us, t, vs, rfl, hplace, hop, hrise, hus, hvs⟩ := exists_split_of_outerFrom hos
  rw [Int.zero_add] at hrise
  rw [Nat.zero_add] at hplace
  refine ⟨us, t, vs, rfl, hplace.symm, hop, hrise, fun p hp => ?_, fun p hp => ?_⟩
  · rw [operators, outer, hus] at hp
    obtain ⟨q, hq, rfl⟩ := List.mem_map.1 hp
    exact hbefore q hq
  · rw [operators, outer, map_op_outerFrom 0 0 (o.place + 1), hvs] at hp
    obtain ⟨q, hq, rfl⟩ := List.mem_map.1 hp
    exact hafter q hq

theorem IsRoot.ofTokens_eq {op : Operator} {us vs : List Token} {t : Token} (h : IsRoot op us t vs) :
    ofTokens (us ++ t :: vs) = found ⟨us.length, op⟩ := by
  rw [ofTokens_eq_iff]
  have houter : outer (us ++ t :: vs) =
      outer us ++ ⟨us.length, op⟩ :: outerFrom 0 (us.length + 1) vs := by
    rw [outer, outerFrom_append, h.rise_eq, Int.zero_add, Nat.zero_add, outerFrom_cons,
      here_operator h.spells, step_of_operator h.spells]
    rfl
  refine ⟨outer us, _, houter, fun p hp => h.left _ (List.mem_map_of_mem hp), fun p hp => ?_⟩
  refine h.right _ ?_
  rw [operators, outer, map_op_outerFrom 0 0 (us.length + 1)]
  exact List.mem_map_of_mem hp

/-- A list with an operator outside all parentheses has no parentheses to lose. -/
theorem strip_of_operators {ts : List Token} (h : operators ts ≠ []) : strip ts = ts := by
  refine strip_eq_self fun us hus hcov => h ?_
  rw [hus, operators_enclosed hcov]

theorem IsRoot.operators_eq {op : Operator} {us vs : List Token} {t : Token}
    (h : IsRoot op us t vs) : operators (us ++ t :: vs) = operators us ++ op :: operators vs := by
  rw [operators_append h.rise_eq, operators_cons_operator h.spells]

theorem IsRoot.rank_le {op : Operator} {us vs : List Token} {t : Token} (h : IsRoot op us t vs) :
    ∀ p ∈ operators (us ++ t :: vs), p.rank ≤ op.rank := by
  intro p hp
  rw [h.operators_eq, List.mem_append, List.mem_cons] at hp
  rcases hp with hp | rfl | hp
  · exact Nat.le_of_lt (h.left p hp)
  · exact Nat.le_refl _
  · exact Nat.le_trans (h.right p hp) (Nat.min_le_left _ _)

theorem IsRoot.strip_eq {op : Operator} {us vs : List Token} {t : Token} (h : IsRoot op us t vs) :
    strip (us ++ t :: vs) = us ++ t :: vs := by
  refine strip_of_operators ?_
  rw [h.operators_eq]
  simp

/-- The search for the root has one of three outcomes. -/
theorem root_cases (ts : List Token) :
    operators ts = [] ∨ 2 ≤ (operators ts).countP Operator.isConditional ∨
      ∃ op us t vs, ts = us ++ t :: vs ∧ IsRoot op us t vs := by
  cases h : ofTokens ts with
  | absent => exact Or.inl (ofTokens_eq_absent_iff.1 h)
  | ambiguous => exact Or.inr (Or.inl (ofTokens_eq_ambiguous_iff.1 h))
  | found o =>
    obtain ⟨us, t, vs, hts, -, hroot⟩ := exists_isRoot h
    exact Or.inr (Or.inr ⟨o.op, us, t, vs, hts, hroot⟩)

end Root

end Propositional

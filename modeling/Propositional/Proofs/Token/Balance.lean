import Propositional.Token.Strip

/-!
# Levels and balance

The test for balance counts open parentheses and stops early. Here it is tied to levels: a list is
balanced when it ends at the level it starts from (`rise ts = 0`) and never falls below it
(`Covered ts`). Both are about parts of the list, so they can be moved between a list and its pieces.

The records of the parentheses say the same about a list between two parentheses: the level outside
the pair comes back among them exactly when the list is not covered (`not_mem_records_iff`).
-/

namespace Propositional.Token

/-- No beginning of the list closes more parentheses than it opens, so that every `)` of the list
has its partner in the list. -/
def Covered (ts : List Token) : Prop := ∀ us, us <+: ts → 0 ≤ rise us

/-- A list between two parentheses. -/
def enclosed (ts : List Token) : List Token := "(" :: ts ++ [")"]

@[simp] theorem length_enclosed (ts : List Token) : (enclosed ts).length = ts.length + 2 := by
  simp [enclosed]

theorem enclosed_inj {us ts : List Token} : enclosed us = enclosed ts ↔ us = ts := by
  simp [enclosed]

/-! ## Steps -/

@[simp] theorem kind_name (v : Letter) : kind v.name = .letter v :=
  kind_eq_letter_iff.2 (Letter.ofName?_name v)

@[simp] theorem operator?_name (v : Letter) : operator? v.name = none := by
  cases hop : operator? v.name with
  | none => rfl
  | some op =>
    have hkind := kind_eq_operator_iff.2 hop
    rw [kind_name] at hkind
    cases hkind

@[simp] theorem step_opening : step "(" = 1 := rfl

@[simp] theorem step_closing : step ")" = -1 := rfl

theorem step_of_operator {t : Token} {op : Operator} (h : operator? t = some op) : step t = 0 := by
  rw [step, kind_eq_operator_iff.2 h]

/-- Words do not change the level. -/
theorem step_eq_zero_of_word {t : Token} (h : isParen t = false) : step t = 0 := by
  rw [Bool.eq_false_iff, ne_eq, isParen_iff_kind, not_or] at h
  unfold step
  split <;> simp_all

@[simp] theorem step_name (v : Letter) : step v.name = 0 := by
  rw [step, kind_name]

@[simp] theorem rise_enclosed (ts : List Token) : rise (enclosed ts) = rise ts := by
  simp only [enclosed, List.cons_append, rise_cons, rise_append, step_opening, step_closing, rise_nil]
  omega

/-! ## Beginnings of a list -/

theorem forall_prefix_cons {P : List Token → Prop} {t : Token} {ts : List Token} :
    (∀ us, us <+: t :: ts → P us) ↔ P [] ∧ ∀ us, us <+: ts → P (t :: us) := by
  constructor
  · intro h
    exact ⟨h [] (List.nil_prefix), fun us hus => h _ (List.prefix_cons_inj t |>.2 hus)⟩
  · rintro ⟨hnil, hcons⟩ us hus
    rcases List.prefix_cons_iff.1 hus with rfl | ⟨vs, rfl, hvs⟩
    · exact hnil
    · exact hcons vs hvs

theorem forall_prefix_append {P : List Token → Prop} {us ts : List Token} :
    (∀ vs, vs <+: us ++ ts → P vs) ↔
      (∀ vs, vs <+: us → P vs) ∧ ∀ vs, vs <+: ts → P (us ++ vs) := by
  induction us generalizing P with
  | nil =>
    simp only [List.nil_append, List.prefix_nil, forall_eq]
    exact ⟨fun h => ⟨h [] List.nil_prefix, h⟩, fun h => h.2⟩
  | cons u us ih =>
    rw [List.cons_append, forall_prefix_cons, forall_prefix_cons, ih, and_assoc]
    simp only [List.cons_append]

theorem covered_append {us ts : List Token} :
    Covered (us ++ ts) ↔ Covered us ∧ ∀ vs, vs <+: ts → 0 ≤ rise us + rise vs := by
  simp only [Covered, forall_prefix_append, rise_append]

theorem Covered.rise_nonneg {ts : List Token} (h : Covered ts) : 0 ≤ rise ts :=
  h ts (List.prefix_rfl)

/-! ## Balance -/

/-- Counting from `depth` open parentheses succeeds when the list ends at level 0 and stays above. -/
theorem balancedFrom_iff {depth : Nat} {ts : List Token} :
    balancedFrom depth ts = true ↔
      depth + rise ts = 0 ∧ ∀ us, us <+: ts → 0 ≤ depth + rise us := by
  induction ts generalizing depth with
  | nil =>
    simp only [balancedFrom, beq_iff_eq, rise_nil, List.prefix_nil, forall_eq]
    omega
  | cons t ts ih =>
    rw [forall_prefix_cons]
    simp only [rise_nil, rise_cons, step]
    cases hk : kind t with
    | opening =>
      have hnil : 0 ≤ (depth : Int) + 0 := by omega
      simp only [balancedFrom, hk, ih, Int.natCast_add, Int.cast_ofNat_Int, Int.add_assoc, hnil,
        true_and]
    | closing =>
      cases depth with
      | zero =>
        -- counting gives up here, and this parenthesis alone is a beginning that falls below
        simp only [balancedFrom, hk, Bool.false_eq_true, false_iff]
        rintro ⟨-, -, hpre⟩
        have := hpre [] List.nil_prefix
        simp at this
      | succ d =>
        have hnil : 0 ≤ ((d + 1 : Nat) : Int) + 0 := by omega
        have hback : ∀ x : Int, ((d + 1 : Nat) : Int) + (-1 + x) = d + x := fun x => by omega
        simp only [balancedFrom, hk, ih, hback, hnil, true_and]
    | _ =>
      have hnil : 0 ≤ (depth : Int) + 0 := by omega
      simp only [balancedFrom, hk, ih, Int.zero_add, hnil, true_and]

/-- A list is balanced when it ends where it starts and never falls below. -/
theorem balanced_iff {ts : List Token} : balanced ts = true ↔ rise ts = 0 ∧ Covered ts := by
  rw [balanced, balancedFrom_iff]
  simp only [Int.cast_ofNat_Int, Int.zero_add, Covered]

@[simp] theorem balanced_nil : balanced [] = true := rfl

theorem balanced_append {us : List Token} (hus : balanced us = true) (ts : List Token) :
    balanced (us ++ ts) = balanced ts := by
  obtain ⟨hrise, hcov⟩ := balanced_iff.1 hus
  rw [Bool.eq_iff_iff, balanced_iff, balanced_iff, covered_append, rise_append, hrise]
  simp only [Int.zero_add, hcov, true_and]
  exact Iff.rfl

theorem balanced_cons_of_step {t : Token} (h : step t = 0) (ts : List Token) :
    balanced (t :: ts) = balanced ts := by
  have ht : balanced [t] = true := by
    rw [balanced_iff, Covered, forall_prefix_cons]
    simp [h]
  exact balanced_append ht ts

theorem balanced_joined {us ts : List Token} {t : Token} (ht : step t = 0)
    (hus : balanced us = true) (hts : balanced ts = true) : balanced (us ++ t :: ts) = true := by
  rw [balanced_append hus, balanced_cons_of_step ht, hts]

/-- Whether an enclosed list is balanced is settled inside, when that is covered. -/
theorem balanced_enclosed {ts : List Token} (h : Covered ts) :
    balanced (enclosed ts) = balanced ts := by
  have hcov : Covered (enclosed ts) := by
    rw [enclosed, List.cons_append, Covered, forall_prefix_cons]
    refine ⟨Int.le_refl 0, fun us hus => ?_⟩
    rw [rise_cons, step_opening]
    rcases List.prefix_concat_iff.1 hus with rfl | hus
    · have := h.rise_nonneg
      simp only [rise_append, rise_cons, step_closing, rise_nil]
      omega
    · have := h us hus
      omega
  rw [Bool.eq_iff_iff, balanced_iff, balanced_iff, rise_enclosed]
  simp only [h, hcov]

/-- Cutting a balanced list at level 0, before a token that is no parenthesis, leaves two balanced
lists. -/
theorem balanced_split {us ts : List Token} {t : Token} (h : balanced (us ++ t :: ts) = true)
    (hus : rise us = 0) (ht : step t = 0) : balanced us = true ∧ balanced ts = true := by
  have hcov := (balanced_iff.1 h).2
  have hus : balanced us = true := balanced_iff.2 ⟨hus, (covered_append.1 hcov).1⟩
  rw [balanced_append hus, balanced_cons_of_step ht] at h
  exact ⟨hus, h⟩

/-! ## Records between two parentheses -/

/-- In a list that starts above a level, no parenthesis records the level exactly when the list
stays above it: the level can only be reached by a closing parenthesis, which records it. -/
theorem not_mem_records_iff {level start : Int} (h : level < start) {ts : List Token} :
    level ∉ records start ts ↔ ∀ us, us <+: ts → level < start + rise us := by
  induction ts generalizing start with
  | nil =>
    simp only [records_nil, List.not_mem_nil, not_false_eq_true, List.prefix_nil, forall_eq,
      rise_nil, Int.add_zero, h]
  | cons t ts ih =>
    rw [forall_prefix_cons]
    simp only [rise_nil, rise_cons, step, Int.add_zero, h, true_and]
    cases hk : kind t with
    | opening =>
      have hne : level ≠ start := by omega
      simp only [records, hk, List.mem_cons, hne, false_or, ih (by omega : level < start + 1),
        Int.add_assoc]
    | closing =>
      simp only [records, hk, List.mem_cons, not_or]
      by_cases hne : level = start - 1
      · simp only [hne, not_true_eq_false, false_and, false_iff]
        intro hpre
        have := hpre [] List.nil_prefix
        simp only [rise_nil] at this
        omega
      · have hback : ∀ x : Int, start + (-1 + x) = start - 1 + x := fun x => by omega
        simp only [hne, not_false_eq_true, true_and, ih (by omega : level < start - 1), hback]
    | _ => simp only [records, hk, Int.zero_add, ih h]

/-- The level outside a pair of parentheses does not come back between the two when the list there
is covered. -/
theorem not_mem_records_succ_iff {level : Int} {ts : List Token} :
    level ∉ records (level + 1) ts ↔ Covered ts := by
  rw [not_mem_records_iff (by omega)]
  constructor
  · intro h us hus
    have := h us hus
    omega
  · intro h us hus
    have := h us hus
    omega

end Propositional.Token

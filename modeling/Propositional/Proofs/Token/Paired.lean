import Propositional.Proofs.Token.Balance

/-!
# Lists of pairs

The grammar of lists in which every parenthesis has its partner: nothing, or a word and then such a list,
or such a list between two parentheses and then another one (`Paired`). The test for balance accepts just
these (`balanced_iff_paired`). It goes through a list with some parentheses open, and what it accepts then
is cut at the parentheses that close these (`Closes`); each token keeps this, one lemma for each kind.

The test counts with whole numbers. A counter of 32 bits gives the same answer for all lists that are
short enough for it (`balancedInt32?_eq`).
-/

namespace Propositional.Token

/-! ## The grammar -/

/-- Every parenthesis of the list has its partner in the list. -/
inductive Paired : List Token → Prop
  | nil : Paired []
  | word {t : Token} {ts : List Token} (ht : isParen t = false) (hts : Paired ts) : Paired (t :: ts)
  | group {us ts : List Token} (hus : Paired us) (hts : Paired ts) : Paired ("(" :: us ++ ")" :: ts)

theorem Paired.balanced {ts : List Token} (h : Paired ts) : balanced ts = true := by
  induction h with
  | nil => rfl
  | word ht _ ih => rw [balanced_cons_of_step (step_eq_zero_of_word ht), ih]
  | @group us ts _ _ ihus ihts =>
    have hgroup : Token.balanced (enclosed us) = true := by
      rw [balanced_enclosed (balanced_iff.1 ihus).2, ihus]
    have hsplit : "(" :: us ++ ")" :: ts = enclosed us ++ ts := by simp [enclosed]
    rw [hsplit, balanced_append hgroup, ihts]

/-! ## Some parentheses open -/

/-- The list closes `depth` open parentheses: in front of each of the parentheses that do, and behind the
last of them, all are paired. -/
inductive Closes : Nat → List Token → Prop
  | done {ts : List Token} (hts : Paired ts) : Closes 0 ts
  | close {depth : Nat} {us ts : List Token} (hus : Paired us) (hts : Closes depth ts) :
      Closes (depth + 1) (us ++ ")" :: ts)

namespace Closes

variable {depth : Nat} {ts : List Token}

theorem word {t : Token} (ht : isParen t = false) (h : Closes depth ts) : Closes depth (t :: ts) := by
  cases h with
  | done hts => exact .done (.word ht hts)
  | close hus hts => exact .close (.word ht hus) hts

/-- The first of the parentheses that are closed may be opened by the list itself. -/
theorem opening (h : Closes (depth + 1) ts) : Closes depth ("(" :: ts) := by
  cases h with
  | @close _ us ts hus hts =>
    -- what stood in front of the first closing parenthesis becomes a group, and joins what follows it
    cases hts with
    | done hts => exact .done (.group hus hts)
    | @close depth vs ts hvs hts =>
      have hgroup := Closes.close (.group hus hvs) hts
      rwa [List.cons_append, List.cons_append, List.append_assoc] at hgroup

theorem closing (h : Closes depth ts) : Closes (depth + 1) (")" :: ts) := .close .nil h

end Closes

theorem closes_of_balancedFrom {depth : Nat} {ts : List Token} (h : balancedFrom depth ts = true) :
    Closes depth ts := by
  induction ts generalizing depth with
  | nil =>
    simp only [balancedFrom, beq_iff_eq] at h
    subst h
    exact .done .nil
  | cons t ts ih =>
    cases hk : kind t with
    | opening =>
      simp only [balancedFrom, hk] at h
      rw [kind_eq_opening_iff.1 hk]
      exact (ih h).opening
    | closing =>
      rw [kind_eq_closing_iff.1 hk]
      cases depth with
      | zero => simp [balancedFrom, hk] at h
      | succ d =>
        simp only [balancedFrom, hk] at h
        exact (ih h).closing
    | _ =>
      simp only [balancedFrom, hk] at h
      have ht : isParen t = false := by simp [Bool.eq_false_iff, isParen_iff_kind, hk]
      exact (ih h).word ht

/-- The test for balance accepts the lists of the grammar. -/
theorem balanced_iff_paired {ts : List Token} : balanced ts = true ↔ Paired ts := by
  refine ⟨fun h => ?_, Paired.balanced⟩
  cases closes_of_balancedFrom h with
  | done hts => exact hts

/-! ## A counter of 32 bits -/

/-- The number, if it fits in 32 bits, one of which is for the sign. -/
def int32? (n : Int) : Option Int := if -2147483648 ≤ n ∧ n < 2147483648 then some n else none

/-- The test for balance with a counter of 32 bits; no answer if the counter leaves its range. -/
def balancedInt32? : Int → List Token → Option Bool
  | level, [] => some (level == 0)
  | level, t :: ts =>
    match kind t with
    | .opening => (int32? (level + 1)).bind fun next => balancedInt32? next ts
    | .closing => (int32? (level - 1)).bind fun next =>
      if next < 0 then some false else balancedInt32? next ts
    | _ => balancedInt32? level ts

theorem int32?_eq_some {n : Int} (h : -2147483648 ≤ n ∧ n < 2147483648) : int32? n = some n := if_pos h

/-- The counter stays in its range in a list of fewer tokens than it can count. -/
theorem balancedInt32?_eq {depth : Nat} {ts : List Token} (h : depth + ts.length < 2147483648) :
    balancedInt32? depth ts = some (balancedFrom depth ts) := by
  induction ts generalizing depth with
  | nil =>
    have hzero : ((depth : Int) == 0) = (depth == 0) := by
      rw [Bool.eq_iff_iff, beq_iff_eq, beq_iff_eq]
      omega
    rw [balancedInt32?, balancedFrom, hzero]
  | cons t ts ih =>
    rw [List.length_cons] at h
    cases hk : kind t with
    | opening =>
      have hnext : int32? ((depth : Int) + 1) = some ((depth + 1 : Nat) : Int) := int32?_eq_some (by omega)
      simp only [balancedInt32?, balancedFrom, hk, hnext, Option.bind_some,
        ih (by omega : depth + 1 + ts.length < 2147483648)]
    | closing =>
      cases depth with
      | zero =>
        have hnext : int32? (-1) = some (-1) := by decide
        simp [balancedInt32?, balancedFrom, hk, hnext]
      | succ d =>
        have hnext : int32? (((d + 1 : Nat) : Int) - 1) = some (d : Int) := by
          rw [int32?_eq_some (by omega)]
          simp
        have hge : ¬ (d : Int) < 0 := by omega
        simp only [balancedInt32?, balancedFrom, hk, hnext, Option.bind_some, if_neg hge,
          ih (by omega : d + ts.length < 2147483648)]
    | _ => simp only [balancedInt32?, balancedFrom, hk, ih (by omega : depth + ts.length < 2147483648)]

end Propositional.Token

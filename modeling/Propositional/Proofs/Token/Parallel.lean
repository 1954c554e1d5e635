import Propositional.Proofs.Statement.Root

/-!
# One list in two spellings

The elements of a list are written as tokens in two ways, `g` and `h`, and the two tokens of an element
are always of the same kind, but for the letters, which `h` renames (`Parallel`). Then the two lists of
tokens have the same levels, the same operators in the same places, and lose the same parentheses: what
is left of both is the same stretch of the list, in the two spellings (`Parallel.exists_strip`).
-/

namespace Propositional.Token

/-- The kind of a token after the letters are renamed. -/
def Kind.rename (ρ : Letter → Letter) : Kind → Kind
  | opening => opening
  | closing => closing
  | letter v => letter (ρ v)
  | operator op => operator op
  | other => other

variable {α : Type} {ρ : Letter → Letter} {g h : α → Token} {xs ys : List α}

/-- The two spellings of each element are of the same kind, but for the names of letters. -/
def Parallel (ρ : Letter → Letter) (g h : α → Token) (xs : List α) : Prop :=
  ∀ x ∈ xs, kind (h x) = (kind (g x)).rename ρ

theorem Parallel.subset (hxs : Parallel ρ g h xs) (hys : ys ⊆ xs) : Parallel ρ g h ys :=
  fun x hx => hxs x (hys hx)

/-! ## Single tokens -/

section

variable {t u : Token} (hkind : kind u = (kind t).rename ρ)

include hkind

theorem step_of_rename : step u = step t := by
  rw [step, step, hkind]
  cases kind t <;> rfl

theorem operator?_of_rename : operator? u = operator? t := by
  refine Option.ext fun op => ?_
  rw [← kind_eq_operator_iff, ← kind_eq_operator_iff, hkind]
  cases kind t <;> simp [Kind.rename]

theorem ofName?_of_rename : Letter.ofName? u = (Letter.ofName? t).map ρ := by
  refine Option.ext fun w => ?_
  rw [← kind_eq_letter_iff, hkind, Option.map_eq_some_iff]
  simp only [← kind_eq_letter_iff]
  cases kind t <;> simp [Kind.rename]

theorem isLetter_of_rename : isLetter u = isLetter t := by
  rw [isLetter, isLetter, ofName?_of_rename hkind, Option.isSome_map]

end

theorem step_eq_one_iff {t : Token} : step t = 1 ↔ t = "(" := by
  rw [step, ← kind_eq_opening_iff]
  cases kind t <;> simp

theorem step_eq_neg_one_iff {t : Token} : step t = -1 ↔ t = ")" := by
  rw [step, ← kind_eq_closing_iff]
  cases kind t <;> simp

/-! ## Levels and parentheses

Here it is enough that the two spellings agree on parentheses. -/

/-- The two spellings have the same parentheses. -/
def SameSteps (g h : α → Token) (xs : List α) : Prop := ∀ x ∈ xs, step (h x) = step (g x)

theorem Parallel.sameSteps (hxs : Parallel ρ g h xs) : SameSteps g h xs :=
  fun x hx => step_of_rename (hxs x hx)

namespace SameSteps

theorem symm (hxs : SameSteps g h xs) : SameSteps h g xs := fun x hx => (hxs x hx).symm

theorem subset (hxs : SameSteps g h xs) (hys : ys ⊆ xs) : SameSteps g h ys :=
  fun x hx => hxs x (hys hx)

theorem rise_eq (hxs : SameSteps g h xs) : rise (xs.map h) = rise (xs.map g) := by
  induction xs with
  | nil => rfl
  | cons x xs ih =>
    rw [List.map_cons, List.map_cons, rise_cons, rise_cons, hxs x List.mem_cons_self,
      ih (hxs.subset (List.subset_cons_self x xs))]

theorem covered (hxs : SameSteps g h xs) (hcov : Covered (xs.map g)) : Covered (xs.map h) := by
  intro us hus
  obtain ⟨ys, hys, rfl⟩ := List.prefix_map_iff.1 hus
  rw [(hxs.subset hys.subset).rise_eq]
  exact hcov _ (hys.map g)

theorem balanced_eq (hxs : SameSteps g h xs) : balanced (xs.map h) = balanced (xs.map g) := by
  rw [Bool.eq_iff_iff, balanced_iff, balanced_iff, hxs.rise_eq]
  exact and_congr_right fun _ => ⟨hxs.symm.covered, hxs.covered⟩

/-- A list that is enclosed in one spelling is enclosed in the other. -/
theorem exists_enclosed (hxs : SameSteps g h xs) {us : List Token} (hus : xs.map g = enclosed us) :
    ∃ ys, ys <:+: xs ∧ us = ys.map g ∧ xs.map h = enclosed (ys.map h) := by
  obtain ⟨front, back, rfl, hfront, hback⟩ := List.map_eq_append_iff.1 hus
  obtain ⟨x, ys, rfl, hx, rfl⟩ := List.map_eq_cons_iff.1 hfront
  obtain ⟨y, rfl, hy⟩ := List.map_eq_singleton_iff.1 hback
  have hopen : h x = "(" := by
    rw [← step_eq_one_iff, hxs x (by simp), hx, step_opening]
  have hclose : h y = ")" := by
    rw [← step_eq_neg_one_iff, hxs y (by simp), hy, step_closing]
  exact ⟨ys, ⟨[x], [y], rfl⟩, rfl, by simp [enclosed, hopen, hclose]⟩

/-- The same parentheses go from both spellings. -/
theorem exists_strip (hxs : SameSteps g h xs) :
    ∃ ys, ys <:+: xs ∧ strip (xs.map g) = ys.map g ∧ strip (xs.map h) = ys.map h := by
  induction hn : xs.length using Nat.strongRecOn generalizing xs with
  | ind n ih =>
    by_cases hpair : ∃ us, xs.map g = enclosed us ∧ Covered us
    · obtain ⟨us, hus, hcov⟩ := hpair
      obtain ⟨ys, hpart, rfl, hys⟩ := hxs.exists_enclosed hus
      have hsteps : SameSteps g h ys := hxs.subset hpart.subset
      have hlength := congrArg List.length hus
      rw [length_enclosed, List.length_map, List.length_map] at hlength
      obtain ⟨zs, hzs, hg, hh⟩ := ih ys.length (by omega) hsteps rfl
      refine ⟨zs, hzs.trans hpart, ?_, ?_⟩
      · rw [hus, strip_enclosed hcov, hg]
      · rw [hys, strip_enclosed (hsteps.covered hcov), hh]
    · refine ⟨xs, List.infix_rfl, ?_, ?_⟩
      · exact strip_eq_self fun us hus hcov => hpair ⟨us, hus, hcov⟩
      · -- a pair around the second spelling would be one around the first
        refine strip_eq_self fun us hus hcov => hpair ?_
        obtain ⟨ys, hpart, rfl, hys⟩ := hxs.symm.exists_enclosed hus
        exact ⟨_, hys, (hxs.symm.subset hpart.subset).covered hcov⟩

end SameSteps

/-! ## Operators and roots -/

open Occurrence Root

namespace Parallel

theorem outerFrom_eq (hxs : Parallel ρ g h xs) (level : Int) (i : Nat) :
    outerFrom level i (xs.map h) = outerFrom level i (xs.map g) := by
  induction xs generalizing level i with
  | nil => rfl
  | cons x xs ih =>
    have hx := hxs x List.mem_cons_self
    rw [List.map_cons, List.map_cons, outerFrom_cons, outerFrom_cons, step_of_rename hx, here, here,
      operator?_of_rename hx, ih (hxs.subset (List.subset_cons_self x xs))]

theorem operators_eq (hxs : Parallel ρ g h xs) : operators (xs.map h) = operators (xs.map g) := by
  rw [operators, operators, outer, outer, hxs.outerFrom_eq]

/-- The root of one spelling is the root of the other, at the same element. -/
theorem isRoot {op : Operator} {x : α} (hxs : Parallel ρ g h (xs ++ x :: ys))
    (hroot : IsRoot op (xs.map g) (g x) (ys.map g)) : IsRoot op (xs.map h) (h x) (ys.map h) where
  spells := by rw [operator?_of_rename (hxs x (by simp)), hroot.spells]
  rise_eq := by
    rw [(hxs.subset (List.subset_append_left _ _)).sameSteps.rise_eq, hroot.rise_eq]
  left := by
    rw [(hxs.subset (List.subset_append_left _ _)).operators_eq]
    exact hroot.left
  right := by
    have hsub : ys ⊆ xs ++ x :: ys := fun y hy => by simp [hy]
    rw [(hxs.subset hsub).operators_eq]
    exact hroot.right

theorem countP_isLetter_eq (hxs : Parallel ρ g h xs) :
    (xs.map h).countP isLetter = (xs.map g).countP isLetter := by
  rw [List.countP_map, List.countP_map]
  exact List.countP_congr fun x hx => by
    rw [Function.comp_apply, Function.comp_apply, isLetter_of_rename (hxs x hx)]

end Parallel

end Propositional.Token

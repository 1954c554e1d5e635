import Mathlib.Algebra.Ring.Nat
import Propositional.Statement.Value

/-!
# Rows as valuations

A row over `n` letters gives the letter with index `i` the bit `n - 1 - i` of the row's number
(`get?_ofRow`). Bits beyond these do not count (`ofRow_congr`), and every choice of truth values for
the letters is a row with a number below `2 ^ n` (`exists_ofRow`).
-/

namespace Propositional

namespace Valuation

/-- The value of a letter, where letters without a value are false. -/
def truth (a : Valuation) (v : Letter) : Bool := (a.get? v).getD false

theorem get?_eq_some_truth {a : Valuation} {v : Letter} (h : v ∈ a.domain) :
    a.get? v = some (a.truth v) := by
  cases hv : a.get? v with
  | none => exact absurd h (get?_eq_none_iff.1 hv)
  | some b => rw [truth, hv, Option.getD_some]

theorem truth_eq_of_get? {a : Valuation} {v : Letter} {b : Bool} (h : a.get? v = some b) :
    a.truth v = b := by
  rw [truth, h, Option.getD_some]

/-- A letter has the bit of its first place among the letters of the row. -/
theorem get?_ofRow (vs : List Letter) (r : Nat) (v : Letter) :
    (ofRow vs r).get? v =
      if v ∈ vs then some (r.testBit (vs.length - 1 - vs.idxOf v)) else none := by
  induction vs with
  | nil => simp [ofRow]
  | cons w vs ih =>
    rw [ofRow, get?_set, List.idxOf_cons]
    by_cases hv : v = w
    · subst hv
      simp
    · have hw : (w == v) = false := by simp [Ne.symm hv]
      simp only [hv, hw, if_false, ih, List.mem_cons, false_or, cond_false, List.length_cons]
      congr 3
      omega

theorem get?_ofRow_of_nodup {vs : List Letter} (h : vs.Nodup) (r : Nat) {i : Nat} {v : Letter}
    (hv : vs[i]? = some v) : (ofRow vs r).get? v = some (r.testBit (vs.length - 1 - i)) := by
  obtain ⟨hi, rfl⟩ := List.getElem?_eq_some_iff.1 hv
  rw [get?_ofRow, if_pos (List.getElem_mem hi), h.idxOf_getElem]

theorem ofRow_congr {vs : List Letter} {r q : Nat}
    (h : ∀ j < vs.length, r.testBit j = q.testBit j) : ofRow vs r = ofRow vs q := by
  induction vs with
  | nil => rfl
  | cons v vs ih =>
    have hlt : vs.length < (v :: vs).length := Nat.lt_succ_self _
    rw [ofRow, ofRow, h vs.length hlt, ih fun j hj => h j (Nat.lt_trans hj hlt)]

/-- The number of a row is found letter by letter, from the last one on: a new first letter adds the
next power of two if it is to be true, and this changes none of the bits below. -/
theorem exists_ofRow (vs : List Letter) (truth : Letter → Bool) :
    ∃ r < 2 ^ vs.length, ∀ v ∈ vs, (ofRow vs r).get? v = some (truth v) := by
  induction vs with
  | nil => exact ⟨0, Nat.one_pos, fun v hv => absurd hv List.not_mem_nil⟩
  | cons w vs ih =>
    obtain ⟨r, hr, hbits⟩ := ih
    obtain ⟨q, hq, hlow, htop⟩ : ∃ q < 2 ^ (vs.length + 1),
        (∀ j < vs.length, q.testBit j = r.testBit j) ∧ q.testBit vs.length = truth w := by
      cases htruth : truth w with
      | false => exact ⟨r, by omega, fun _ _ => rfl, Nat.testBit_lt_two_pow hr⟩
      | true =>
        refine ⟨2 ^ vs.length + r, by omega, fun j hj => Nat.testBit_two_pow_add_gt hj r, ?_⟩
        rw [Nat.testBit_two_pow_add_eq, Nat.testBit_lt_two_pow hr, Bool.not_false]
    refine ⟨q, hq, fun v hv => ?_⟩
    rw [ofRow, get?_set, htop, ofRow_congr hlow]
    by_cases hvw : v = w
    · rw [if_pos hvw, hvw]
    · rw [if_neg hvw]
      exact hbits v ((List.mem_cons.1 hv).resolve_left hvw)

end Valuation

namespace Statement

/-- A valuation of the letters at all leaves decides a statement. -/
theorem value_of_domain {a : Valuation} {s : Statement} (h : ∀ v ∈ s.formula.leaves, v ∈ a.domain) :
    s.value a = .ok (s.formula.value a.truth) :=
  s.value_eq_ok fun v hv => Valuation.get?_eq_some_truth (h v hv)

end Statement

end Propositional

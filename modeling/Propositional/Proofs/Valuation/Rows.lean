import Mathlib.Data.Set.Function
import Propositional.Proofs.Valuation
import Propositional.Proofs.Valuation.Written

/-!
# Rows in order

When no letter repeats, the values of the letters in a row are the binary digits of the row's number,
the highest first (`map_get?_ofRow`). Digits compare as the numbers do (`digits_lt_digits_iff`), so
that rows with different numbers differ, and the rows with a number below `2 ^ n` are all valuations of
the letters, from all false to all true (`rows_enumerate`).
-/

namespace Propositional.Valuation

/-- The lowest `n` binary digits of a number, the highest first. -/
def digits : Nat → Nat → List Bool
  | 0, _ => []
  | n + 1, r => r.testBit n :: digits n r

/-! ## Digits -/

theorem digits_congr {n r q : Nat} (h : ∀ j < n, r.testBit j = q.testBit j) :
    digits n r = digits n q := by
  induction n with
  | zero => rfl
  | succ n ih =>
    rw [digits, digits, h n (Nat.lt_succ_self n), ih fun j hj => h j (Nat.lt_succ_of_lt hj)]

/-- A number of `n + 1` digits is its highest digit and a number of `n` digits. -/
theorem exists_digits_succ {n r : Nat} (h : r < 2 ^ (n + 1)) :
    ∃ (b : Bool) (r' : Nat), r' < 2 ^ n ∧ r = (if b then 2 ^ n else 0) + r' ∧
      digits (n + 1) r = b :: digits n r' := by
  rw [Nat.pow_succ] at h
  by_cases hlow : r < 2 ^ n
  · refine ⟨false, r, hlow, by simp, ?_⟩
    rw [digits, Nat.testBit_lt_two_pow hlow]
  · obtain ⟨r', rfl⟩ : ∃ r', r = 2 ^ n + r' := ⟨r - 2 ^ n, by omega⟩
    have hr' : r' < 2 ^ n := by omega
    refine ⟨true, r', hr', by simp, ?_⟩
    rw [digits, Nat.testBit_two_pow_add_eq, Nat.testBit_lt_two_pow hr', Bool.not_false,
      digits_congr fun j hj => Nat.testBit_two_pow_add_gt hj r']

/-- Numbers compare as their digits do, read from the highest on. -/
theorem digits_lt_digits_iff {n r q : Nat} (hr : r < 2 ^ n) (hq : q < 2 ^ n) :
    digits n r < digits n q ↔ r < q := by
  induction n generalizing r q with
  | zero =>
    have hzero : r = 0 ∧ q = 0 := by omega
    simp [digits, hzero]
  | succ n ih =>
    have hbool : ∀ b c : Bool, b < c ↔ b = false ∧ c = true := by decide
    obtain ⟨b, r', hr', rfl, hrdigits⟩ := exists_digits_succ hr
    obtain ⟨c, q', hq', rfl, hqdigits⟩ := exists_digits_succ hq
    rw [hrdigits, hqdigits, List.cons_lt_cons_iff, hbool, ih hr' hq']
    -- different highest digits decide, and equal ones leave it to the rest
    cases b <;> cases c <;> simp <;> omega

theorem digits_injective {n r q : Nat} (hr : r < 2 ^ n) (hq : q < 2 ^ n)
    (h : digits n r = digits n q) : r = q := by
  have hirrefl : ¬ digits n q < digits n q := List.lt_irrefl _
  rcases Nat.lt_trichotomy r q with hlt | heq | hlt
  · rw [← digits_lt_digits_iff hr hq, h] at hlt
    exact absurd hlt hirrefl
  · exact heq
  · rw [← digits_lt_digits_iff hq hr, h] at hlt
    exact absurd hlt hirrefl

/-! ## Rows -/

theorem map_get?_ofRow {vs : List Letter} (h : vs.Nodup) (r : Nat) :
    vs.map (ofRow vs r).get? = (digits vs.length r).map some := by
  induction vs with
  | nil => rfl
  | cons v vs ih =>
    obtain ⟨hv, hvs⟩ := List.nodup_cons.1 h
    -- the first letter comes no second time, so that its write leaves the others alone
    have hrest : ∀ w ∈ vs, (ofRow (v :: vs) r).get? w = (ofRow vs r).get? w := by
      intro w hw
      have hne : w ≠ v := by
        rintro rfl
        exact hv hw
      rw [ofRow, get?_set, if_neg hne]
    have hfirst : (ofRow (v :: vs) r).get? v = some (r.testBit vs.length) := by
      rw [ofRow, get?_set, if_pos rfl]
    rw [List.map_cons, hfirst, List.map_congr_left hrest, ih hvs, List.length_cons, digits,
      List.map_cons]

theorem ofRow_mod (vs : List Letter) (r : Nat) : ofRow vs (r % 2 ^ vs.length) = ofRow vs r := by
  refine ofRow_congr fun j hj => ?_
  rw [Nat.testBit_mod_two_pow, decide_eq_true hj, Bool.true_and]

theorem ofRow_injOn {vs : List Letter} (h : vs.Nodup) :
    Set.InjOn (ofRow vs) {r | r < 2 ^ vs.length} := by
  intro r hr q hq heq
  have hvalues := map_get?_ofRow h r
  rw [heq, map_get?_ofRow h q] at hvalues
  exact digits_injective hr hq ((List.map_inj_right fun _ _ => Option.some.inj).1 hvalues.symm)

/-- A valuation without stray bits is the row in which the letters have its values. -/
theorem Regular.exists_ofRow_eq {a : Valuation} (h : a.Regular) {vs : List Letter}
    (hdomain : ∀ v, v ∈ a.domain ↔ v ∈ vs) : ∃ r < 2 ^ vs.length, ofRow vs r = a := by
  obtain ⟨r, hr, hvalues⟩ := exists_ofRow vs a.truth
  refine ⟨r, hr, (Written.ofRow vs r).regular.ext h fun v => ?_⟩
  by_cases hv : v ∈ vs
  · rw [hvalues v hv, get?_eq_some_truth ((hdomain v).2 hv)]
  · have hrow : v ∉ (ofRow vs r).domain := mt (mem_domain_ofRow vs r).1 hv
    rw [get?_eq_none_iff.2 hrow, get?_eq_none_iff.2 (mt (hdomain v).1 hv)]

/-- A row over `n` letters binds these letters and no others. Each of them has the digit of its first
place, the first letter the digit of `2 ^ (n - 1)` and the last one that of `1`, and no digits beyond
these count. When no letter repeats, the numbers below `2 ^ n` and the valuations of the letters belong
to each other one to one, and a smaller number stands for the smaller list of values, in the order of
dictionaries with false before true. -/
theorem rows_enumerate (vs : List Letter) :
    (∀ r v, v ∈ (ofRow vs r).domain ↔ v ∈ vs) ∧
      (∀ r, ∀ v ∈ vs, (ofRow vs r).get? v = some (r.testBit (vs.length - 1 - vs.idxOf v))) ∧
      (∀ r, ofRow vs (r % 2 ^ vs.length) = ofRow vs r) ∧
      (vs.Nodup →
        Set.BijOn (ofRow vs) {r | r < 2 ^ vs.length}
          {a | (∃ ws, Written a ws) ∧ ∀ v, v ∈ a.domain ↔ v ∈ vs} ∧
        ∀ r < 2 ^ vs.length, ∀ q < 2 ^ vs.length, ∃ xs ys : List Bool,
          vs.map (ofRow vs r).get? = xs.map some ∧ vs.map (ofRow vs q).get? = ys.map some ∧
            (r < q ↔ xs < ys)) := by
  refine ⟨fun r v => mem_domain_ofRow vs r, fun r v hv => ?_, ofRow_mod vs, fun h => ⟨?_, ?_⟩⟩
  · rw [get?_ofRow, if_pos hv]
  · refine ⟨fun r _ => ⟨⟨_, .ofRow vs r⟩, fun v => mem_domain_ofRow vs r⟩, ofRow_injOn h, ?_⟩
    rintro a ⟨⟨ws, ha⟩, hdomain⟩
    exact ha.regular.exists_ofRow_eq hdomain
  · intro r hr q hq
    exact ⟨_, _, map_get?_ofRow h r, map_get?_ofRow h q, (digits_lt_digits_iff hr hq).symm⟩

/-- Three letters that are not in alphabetical order, and a valuation in which the last of them was
written twice. In a row over `A`, `C` and `A` again the first digit is that of `A`. -/
theorem rows_enumerate_three :
    let vs : List Letter := [⟨2⟩, ⟨0⟩, ⟨1⟩]
    let a := ofPairs [(⟨1⟩, true), (⟨2⟩, true), (⟨0⟩, true), (⟨1⟩, false)]
    vs.Nodup ∧ (∃ r < 8, ofRow vs r = a) ∧ ofRow vs 6 = ofRow vs 14 ∧
      (∃ xs ys : List Bool, vs.map (ofRow vs 3).get? = xs.map some ∧
        vs.map (ofRow vs 4).get? = ys.map some ∧ xs < ys) ∧
      (ofRow [⟨0⟩, ⟨2⟩, ⟨0⟩] 4).get? ⟨0⟩ = some true := by
  intro vs a
  have hvs : vs.Nodup := by decide
  obtain ⟨-, -, hmod, hordered⟩ := rows_enumerate vs
  obtain ⟨⟨-, -, hall⟩, hcompare⟩ := hordered hvs
  have ha : Written a _ := .ofPairs _
  have hdomain : ∀ v, v ∈ a.domain ↔ v ∈ vs := by
    intro v
    rw [ha.represents.domain_eq, LetterSet.mem_ofList]
    grind
  obtain ⟨r, hr, hra⟩ := hall ⟨⟨_, ha⟩, hdomain⟩
  obtain ⟨xs, ys, hxs, hys, hlt⟩ := hcompare 3 (by decide) 4 (by decide)
  obtain ⟨-, hfirst, -⟩ := rows_enumerate [⟨0⟩, ⟨2⟩, ⟨0⟩]
  have hsix : 14 % 2 ^ vs.length = 6 := by decide
  exact ⟨hvs, ⟨r, hr, hra⟩, hsix ▸ hmod 14, ⟨xs, ys, hxs, hys, hlt.1 (by decide)⟩,
    hfirst 4 ⟨0⟩ (by decide)⟩

end Propositional.Valuation

import Propositional.LetterSet

/-!
# Valuations

A valuation gives truth values to some of the letters. It keeps the set of letters that have a value
and, of these, the set of letters that are true; a later value for a letter replaces an earlier one.

`ofRow vs r` is the valuation of row `r` of a truth table over the letters `vs`: the first letter is
the most significant bit of `r`, the last one is bit 0.
-/

namespace Propositional

/-- Truth values for some of the letters. -/
structure Valuation where
  /-- The letters that have a value. -/
  bound : LetterSet
  /-- The letters that have the value true. -/
  trues : LetterSet
deriving DecidableEq, Repr

/-- A letter without a value was asked for its value. -/
structure Unassigned where
  letter : Letter
deriving DecidableEq, Repr

/-- The sentence shown for a letter without a value. -/
def Unassigned.message (e : Unassigned) : String :=
  "Variable '" ++ e.letter.name ++ "' is not assigned a value"

namespace Valuation

/-- No letter has a value. -/
def empty : Valuation := ⟨∅, ∅⟩

instance : EmptyCollection Valuation := ⟨empty⟩

/-- The value of `v`, if it has one. -/
def get? (a : Valuation) (v : Letter) : Option Bool :=
  if v ∈ a.bound then some (a.trues.contains v) else none

/-- The value of `v`, or the complaint that it has none. -/
def value (a : Valuation) (v : Letter) : Except Unassigned Bool :=
  match a.get? v with
  | some b => .ok b
  | none => .error ⟨v⟩

/-- Gives `v` the value `b`, in place of any value it had. -/
def set (a : Valuation) (v : Letter) (b : Bool) : Valuation :=
  ⟨a.bound.insert v, if b then a.trues.insert v else a.trues.erase v⟩

/-- The letters that have a value. -/
def domain (a : Valuation) : LetterSet := a.bound

/-- The values of a list of pairs, in order: a later pair for the same letter wins. -/
def ofPairs (ps : List (Letter × Bool)) : Valuation := ps.foldl (fun a p => a.set p.1 p.2) ∅

/-- Row `r` over the letters `vs`: a letter with `j` letters after it gets bit `j` of `r`. When a
letter repeats, its first place counts. -/
def ofRow : List Letter → Nat → Valuation
  | [], _ => ∅
  | v :: vs, r => (ofRow vs r).set v (r.testBit vs.length)

/-! ## Values after each operation -/

@[simp] theorem get?_empty (v : Letter) : (∅ : Valuation).get? v = none :=
  if_neg (LetterSet.not_mem_empty v)

@[simp] theorem domain_empty : (∅ : Valuation).domain = ∅ := rfl

theorem get?_eq_none_iff {a : Valuation} {v : Letter} : a.get? v = none ↔ v ∉ a.domain := by
  simp [get?, domain]

/-- Setting a letter changes that letter's value and no other. -/
theorem get?_set (a : Valuation) (v w : Letter) (b : Bool) :
    (a.set v b).get? w = if w = v then some b else a.get? w := by
  by_cases h : w = v
  · subst h
    cases b <;> simp [get?, set, Bool.eq_false_iff, LetterSet.contains_iff]
  · have hc : (if b then a.trues.insert v else a.trues.erase v).contains w = a.trues.contains w := by
      rw [Bool.eq_iff_iff]
      cases b <;> simp [LetterSet.contains_iff, h]
    simp only [get?, set, hc, LetterSet.mem_insert, h, or_false, if_false]

@[simp] theorem domain_set (a : Valuation) (v : Letter) (b : Bool) :
    (a.set v b).domain = a.domain.insert v := rfl

/-- A row gives values to exactly the letters it is a row of. -/
theorem mem_domain_ofRow {v : Letter} (vs : List Letter) (r : Nat) :
    v ∈ (ofRow vs r).domain ↔ v ∈ vs := by
  induction vs with
  | nil => simp only [ofRow, domain_empty, LetterSet.not_mem_empty, List.not_mem_nil]
  | cons w ws ih => simp [ofRow, ih, or_comm]

end Valuation

end Propositional

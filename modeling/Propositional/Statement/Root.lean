import Propositional.Token.Nesting

/-!
# The root operator of a list of tokens

The root is the operator that binds loosest among those outside all parentheses, the first of them
when several bind equally loosely. Two conditionals outside all parentheses leave the root open.
-/

namespace Propositional

/-- An operator at a place of a list of tokens. -/
structure Occurrence where
  place : Nat
  op : Operator
deriving DecidableEq, Repr

namespace Occurrence

/-- The operators at level 0, for a list that starts at the given level and place. -/
def outerFrom : Int → Nat → List Token → List Occurrence
  | _, _, [] => []
  | level, i, t :: ts =>
    match Token.kind t with
    | .operator op =>
      if level = 0 then ⟨i, op⟩ :: outerFrom level (i + 1) ts else outerFrom level (i + 1) ts
    | _ => outerFrom (level + Token.step t) (i + 1) ts

/-- The operators outside all parentheses, from left to right. -/
def outer (ts : List Token) : List Occurrence := outerFrom 0 0 ts

theorem place_lt_of_mem_outerFrom {o : Occurrence} {level : Int} {i : Nat} {ts : List Token}
    (h : o ∈ outerFrom level i ts) : o.place < i + ts.length := by
  induction ts generalizing level i with
  | nil => simp [outerFrom] at h
  | cons t ts ih =>
    have hrest : ∀ l, o ∈ outerFrom l (i + 1) ts → o.place < i + (t :: ts).length := fun l hl => by
      have := ih hl
      simp only [List.length_cons]
      omega
    simp only [outerFrom] at h
    split at h
    · split at h
      · rcases List.mem_cons.1 h with rfl | h
        · simp only [List.length_cons]
          omega
        · exact hrest _ h
      · exact hrest _ h
    · exact hrest _ h

theorem place_lt_of_mem_outer {o : Occurrence} {ts : List Token} (h : o ∈ outer ts) :
    o.place < ts.length := by
  have := place_lt_of_mem_outerFrom h
  omega

end Occurrence

/-- What a list of tokens has for a root. -/
inductive Root
  /-- No operator stands outside the parentheses. -/
  | absent
  /-- The root operator. -/
  | found (o : Occurrence)
  /-- Two conditionals compete. -/
  | ambiguous
deriving DecidableEq, Repr

namespace Root

/-- The root after one more operator to the right: the new one takes over when it binds looser. -/
def extend : Root → Occurrence → Root
  | absent, o => found o
  | found best, o =>
    if best.op.isConditional && o.op.isConditional then ambiguous
    else if best.op.rank < o.op.rank then found o
    else found best
  | ambiguous, _ => ambiguous

/-- The root of a list of tokens. -/
def ofTokens (ts : List Token) : Root := (Occurrence.outer ts).foldl extend absent

/-- A root that is found is the one at hand or one of those that follow. -/
theorem mem_of_foldl_extend {os : List Occurrence} {r : Root} {o : Occurrence}
    (h : os.foldl extend r = found o) : r = found o ∨ o ∈ os := by
  induction os generalizing r with
  | nil => exact Or.inl h
  | cons p os ih =>
    rcases ih h with hr | ho
    · cases r with
      | absent =>
        simp only [extend, found.injEq] at hr
        exact Or.inr (hr ▸ List.mem_cons_self)
      | found best =>
        simp only [extend] at hr
        split at hr
        · simp at hr
        · split at hr
          · simp only [found.injEq] at hr
            exact Or.inr (hr ▸ List.mem_cons_self)
          · exact Or.inl hr
      | ambiguous => simp [extend] at hr
    · exact Or.inr (List.mem_cons_of_mem p ho)

theorem mem_outer_of_ofTokens {ts : List Token} {o : Occurrence} (h : ofTokens ts = found o) :
    o ∈ Occurrence.outer ts := by
  rcases mem_of_foldl_extend h with h | h
  · simp at h
  · exact h

theorem place_lt {ts : List Token} {o : Occurrence} (h : ofTokens ts = found o) :
    o.place < ts.length :=
  Occurrence.place_lt_of_mem_outer (mem_outer_of_ofTokens h)

end Root

end Propositional

import Propositional.Token.Basic

/-!
# Parentheses

An opening parenthesis raises the level by one and a closing one lowers it by one. `records` notes,
for each parenthesis of a list, the level on its outer side, so that the two parentheses of a pair
have the same record. A list is `balanced` when every closing parenthesis closes an earlier opening
one and none is left open.
-/

namespace Propositional.Token

/-- How a token changes the level. -/
def step (t : Token) : Int :=
  match kind t with
  | .opening => 1
  | .closing => -1
  | _ => 0

/-- How a list of tokens changes the level, from its start to its end. -/
def rise : List Token → Int
  | [] => 0
  | t :: ts => step t + rise ts

/-- The level outside each parenthesis, in order, for a list that starts at the given level. -/
def records : Int → List Token → List Int
  | _, [] => []
  | level, t :: ts =>
    match kind t with
    | .opening => level :: records (level + 1) ts
    | .closing => (level - 1) :: records (level - 1) ts
    | _ => records level ts

/-- The list closes `depth` open parentheses and all that it opens, and no others. -/
def balancedFrom : Nat → List Token → Bool
  | depth, [] => depth == 0
  | depth, t :: ts =>
    match kind t, depth with
    | .opening, depth => balancedFrom (depth + 1) ts
    | .closing, 0 => false
    | .closing, depth + 1 => balancedFrom depth ts
    | _, depth => balancedFrom depth ts

/-- Every parenthesis of the list has its partner in the list. -/
def balanced (ts : List Token) : Bool := balancedFrom 0 ts

/-! ## Levels and records of a list -/

@[simp] theorem rise_nil : rise [] = 0 := rfl

@[simp] theorem rise_cons (t : Token) (ts : List Token) : rise (t :: ts) = step t + rise ts := rfl

@[simp] theorem rise_append (us ts : List Token) : rise (us ++ ts) = rise us + rise ts := by
  induction us with
  | nil => simp
  | cons u us ih =>
    rw [List.cons_append, rise_cons, rise_cons, ih]
    omega

@[simp] theorem records_nil (level : Int) : records level [] = [] := rfl

theorem records_cons (level : Int) (t : Token) (ts : List Token) :
    records level (t :: ts) =
      (match kind t with
        | .opening => [level]
        | .closing => [level - 1]
        | _ => []) ++ records (level + step t) ts := by
  simp only [records, step]
  split <;> simp [Int.sub_eq_add_neg]

/-- The records of a list are those of its first part, then those of the rest at the level reached. -/
theorem records_append (level : Int) (us ts : List Token) :
    records level (us ++ ts) = records level us ++ records (level + rise us) ts := by
  induction us generalizing level with
  | nil => simp
  | cons u us ih =>
    have hlevel : level + step u + rise us = level + rise (u :: us) := by
      rw [rise_cons]
      omega
    rw [List.cons_append, records_cons, ih, records_cons level u us, List.append_assoc, hlevel]

end Propositional.Token

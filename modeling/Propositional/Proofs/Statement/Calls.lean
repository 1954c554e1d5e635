import Mathlib.Logic.Relation
import Propositional.Proofs.Statement.Subspan
import Propositional.Proofs.Token.Paired

/-!
# The lists that the reader is called on

The reader tests once whether the parentheses of a list pair up, and never again: not when it takes pairs
away, not when it cuts the list at its root, and not when it calls itself on the two sides. `Calls` says on
which lists it does so. That these are all comes from writing the reader with its calls left open
(`ofSpanWith`): whatever agrees with the reader on the lists of `Calls` makes the same reading of the whole
(`ofSpanWith_congr`).

One call leads from paired parentheses to paired parentheses in a shorter list (`Calls.part`), so that the
same holds wherever calls lead. There the search for the root starts and ends at level 0 and is never below,
and the root is an operator outside all parentheses (`Scanned`).
-/

namespace Propositional

open Token Occurrence Root

theorem Reading.bind_congr {α β : Type} {r : Reading α} {f g : α → Reading β}
    (h : ∀ a, r.result = .ok a → f a = g a) : r.bind f = r.bind g := by
  unfold bind
  split
  · rename_i a ha
    rw [h a ha]
  · rfl

/-- A root that is found cuts the list at its place. -/
theorem Root.isRoot_of_found {ts : List Token} {o : Occurrence} (h : Root.ofTokens ts = .found o) :
    ∃ t, ts = ts.take o.place ++ t :: ts.drop (o.place + 1) ∧
      IsRoot o.op (ts.take o.place) t (ts.drop (o.place + 1)) := by
  obtain ⟨us, t, vs, rfl, hplace, hroot⟩ := exists_isRoot h
  have hleft : (us ++ t :: vs).take o.place = us := by rw [← hplace, List.take_left]
  have hright : (us ++ t :: vs).drop (o.place + 1) = vs := by
    rw [← hplace, ← List.drop_drop, List.drop_left]
    rfl
  rw [hleft, hright]
  exact ⟨t, rfl, hroot⟩

namespace Statement

/-! ## The calls of the reader -/

/-- Reads a list, with the sides of its root left to `read`. -/
def ofSpanWith (read : String → List Token → Reading Statement) (literal : String) (ts : List Token) :
    Reading Statement :=
  match Root.ofTokens (strip ts) with
  | .ambiguous => .failed (.ambiguousPrecedence (text (strip ts)))
  | .absent => .ofExcept (ofOperatorless literal (strip ts))
  | .found o =>
    let left := strip ((strip ts).take o.place)
    let right := strip ((strip ts).drop (o.place + 1))
    .noting ⟨literal, o.op, o.place⟩ <|
      if right.isEmpty then .failed (.missingOperand o.op (text (strip ts)))
      else if o.op = .not then
        if left.isEmpty then (read (text right) right).map fun r => .negation literal r.letters r
        else .failed (.unexpectedOperand o.op (text (strip ts)))
      else if left.isEmpty then .failed (.missingOperand o.op (text (strip ts)))
      else (read (text left) left).bind fun l =>
        (read (text right) right).map fun r => .binary literal (l.letters.union r.letters) o.op l r

/-- The reader leaves the sides to itself. -/
theorem ofSpan_eq_ofSpanWith (l : String) (ts : List Token) : ofSpan l ts = ofSpanWith ofSpan l ts := by
  rw [ofSpan, ofSpanWith]
  split <;> rename_i h <;> rw [h]

/-- Reading the list `ts`, the reader calls itself on another one: on what is right of `not`, if nothing is
left of it; or on what is left of another operator, if there is something on both sides, and then on what is
right of it, if the left side could be read. -/
inductive Calls (ts : List Token) : List Token → Prop
  | operand {us vs : List Token} {t : Token} (hts : strip ts = us ++ t :: vs)
      (hroot : IsRoot .not us t vs) (hus : strip us = []) (hvs : strip vs ≠ []) : Calls ts (strip vs)
  | left {op : Operator} {us vs : List Token} {t : Token} (hts : strip ts = us ++ t :: vs)
      (hroot : IsRoot op us t vs) (hop : op ≠ .not) (hus : strip us ≠ []) (hvs : strip vs ≠ []) :
      Calls ts (strip us)
  | right {op : Operator} {us vs : List Token} {t : Token} {a : Statement}
      (hts : strip ts = us ++ t :: vs) (hroot : IsRoot op us t vs) (hop : op ≠ .not) (hvs : strip vs ≠ [])
      (ha : (ofSpan (text (strip us)) (strip us)).result = .ok a) : Calls ts (strip vs)

/-- The reader asks for no readings but those of the lists it calls itself on. -/
theorem ofSpanWith_congr {ts : List Token} {read : String → List Token → Reading Statement}
    (h : ∀ m part, Calls ts part → read m part = ofSpan m part) (l : String) :
    ofSpanWith read l ts = ofSpan l ts := by
  rw [ofSpan_eq_ofSpanWith]
  unfold ofSpanWith
  cases hfound : Root.ofTokens (strip ts) with
  | ambiguous => rfl
  | absent => rfl
  | found o =>
    obtain ⟨t, hts, hroot⟩ := isRoot_of_found hfound
    simp only [List.isEmpty_iff]
    by_cases hvs : strip ((strip ts).drop (o.place + 1)) = []
    · simp only [if_pos hvs]
    by_cases hop : o.op = .not <;> by_cases hus : strip ((strip ts).take o.place) = []
    · rw [hop] at hroot
      simp only [if_neg hvs, if_pos hop, if_pos hus, h _ _ (.operand hts hroot hus hvs)]
    · simp only [if_neg hvs, if_pos hop, if_neg hus]
    · simp only [if_neg hvs, if_neg hop, if_pos hus]
    · simp only [if_neg hvs, if_neg hop, if_neg hus, h _ _ (.left hts hroot hop hus hvs)]
      congr 1
      refine Reading.bind_congr fun a ha => ?_
      rw [h _ _ (.right hts hroot hop hvs ha)]

/-! ## What calls keep -/

/-- A call leads to a shorter list, and parentheses that pair up still do there. -/
theorem Calls.part {ts part : List Token} (h : Calls ts part) (hbalanced : balanced ts = true) :
    balanced part = true ∧ part.length < ts.length := by
  have hside : ∀ {us}, balanced us = true → us.length < ts.length →
      balanced (strip us) = true ∧ (strip us).length < ts.length := by
    intro us hus hlt
    exact ⟨by rw [balanced_strip, hus], Nat.lt_of_le_of_lt (length_strip_le us) hlt⟩
  cases h with
  | operand hts hroot => exact hside (hroot.sides hts hbalanced).2.2 (length_sides_lt hts).2
  | left hts hroot => exact hside (hroot.sides hts hbalanced).1.2 (length_sides_lt hts).1
  | right hts hroot => exact hside (hroot.sides hts hbalanced).2.2 (length_sides_lt hts).2

/-- What calls lead to from a list has paired parentheses if the list has. -/
theorem balanced_of_calls {ts span : List Token} (h : Relation.ReflTransGen Calls ts span)
    (hbalanced : balanced ts = true) : balanced span = true := by
  induction h with
  | refl => exact hbalanced
  | tail _ hcall ih => exact (hcall.part ih).1

/-- The search for the root of a list, once redundant parentheses are gone, and the cut there. -/
structure Scanned (ts : List Token) : Prop where
  /-- The search comes to each token at the level that the tokens before it lead to, not below 0. -/
  level_nonneg : ∀ us vs, strip ts = us ++ vs → 0 ≤ rise us ∧
    outer (strip ts) = outerFrom 0 0 us ++ outerFrom (rise us) us.length vs
  /-- It ends at level 0. -/
  level_end : rise (strip ts) = 0
  /-- The root is an operator at level 0, and parentheses pair up on both sides of it. -/
  root : ∀ o, Root.ofTokens (strip ts) = .found o → ∃ us t vs, strip ts = us ++ t :: vs ∧
    us.length = o.place ∧ operator? t = some o.op ∧ rise us = 0 ∧ Paired us ∧ Paired vs

theorem scanned_of_balanced {ts : List Token} (h : balanced ts = true) : Scanned ts where
  level_nonneg us vs hsplit := by
    rw [← balanced_strip, hsplit, balanced_iff] at h
    refine ⟨h.2 us (List.prefix_append us vs), ?_⟩
    rw [hsplit, outer, outerFrom_append, Int.zero_add, Nat.zero_add]
  level_end := by
    rw [← balanced_strip, balanced_iff] at h
    exact h.1
  root o ho := by
    obtain ⟨us, t, vs, hts, hplace, hroot⟩ := exists_isRoot ho
    obtain ⟨⟨-, hus⟩, -, hvs⟩ := hroot.sides hts h
    exact ⟨us, t, vs, hts, hplace, hroot.spells, hroot.rise_eq, balanced_iff_paired.1 hus,
      balanced_iff_paired.1 hvs⟩

/-- The test for balance accepts just the lists in which all parentheses are paired, also with a counter of 32
bits if the list is short enough for one. A list that passes is handed to the reader, and all lists that the
reader is called on from there have paired parentheses, are shorter than those it is called from, and are
scanned for a root without coming below level 0. -/
theorem balance_exact_and_kept (ts : List Token) :
    (balanced ts = true ↔ Paired ts) ∧
    (ts.length < 2147483648 → balancedInt32? 0 ts = some (balanced ts)) ∧
    (balanced ts = true → readTokens ts = ofSpan (text ts) ts ∧
      ∀ span, Relation.ReflTransGen Calls ts span → Paired span ∧ Scanned span ∧
        (∀ part, Calls span part → Paired part ∧ part.length < span.length) ∧
        ∀ read l, (∀ m part, Calls span part → read m part = ofSpan m part) →
          ofSpanWith read l span = ofSpan l span) := by
  refine ⟨balanced_iff_paired, fun hshort => ?_, fun hbalanced => ⟨?_, fun span hspan => ?_⟩⟩
  · have hroom : 0 + ts.length < 2147483648 := by omega
    exact balancedInt32?_eq hroom
  · rw [readTokens, ofPaired, if_pos hbalanced]
  · have h := balanced_of_calls hspan hbalanced
    refine ⟨balanced_iff_paired.1 h, scanned_of_balanced h, fun part hpart => ?_, fun read l hread => ?_⟩
    · obtain ⟨hpaired, hlt⟩ := hpart.part h
      exact ⟨balanced_iff_paired.1 hpaired, hlt⟩
    · exact ofSpanWith_congr hread l

theorem balance_exact_and_kept_or :
    let ts := ["(", "A", "and", "B", ")", "or", "C"]
    let span := ["A", "and", "B"]
    ts.length < 2147483648 ∧ balanced ts = true ∧ Relation.ReflTransGen Calls ts span ∧ Calls span ["A"] ∧
      Root.ofTokens (strip span) = .found ⟨1, .and⟩ ∧
      Paired ts ∧ balancedInt32? 0 ts = some true ∧ readTokens ts = ofSpan (text ts) ts ∧
      Paired span ∧ Scanned span ∧ Paired ["A"] ∧ ["A"].length < span.length := by
  intro ts span
  have hshort : ts.length < 2147483648 := by decide
  have hbalanced : balanced ts = true := by decide
  have hor : Calls ts span := by
    obtain ⟨t, hts, hroot⟩ :=
      isRoot_of_found (by decide +kernel : Root.ofTokens (strip ts) = .found ⟨5, .or⟩)
    have hspan : strip ((strip ts).take 5) = span := by decide +kernel
    exact hspan ▸ .left hts hroot (by decide) (by decide +kernel) (by decide +kernel)
  have hfound : Root.ofTokens (strip span) = .found ⟨1, .and⟩ := by decide +kernel
  have hand : Calls span ["A"] := by
    obtain ⟨t, hts, hroot⟩ := isRoot_of_found hfound
    have hspan : strip ((strip span).take 1) = ["A"] := by decide +kernel
    exact hspan ▸ .left hts hroot (by decide) (by decide +kernel) (by decide +kernel)
  have hreached : Relation.ReflTransGen Calls ts span := .single hor
  obtain ⟨hpaired, hcounted, hcalls⟩ := balance_exact_and_kept ts
  obtain ⟨hread, hkept⟩ := hcalls hbalanced
  obtain ⟨hspan, hscanned, hparts, -⟩ := hkept span hreached
  obtain ⟨hpart, hlt⟩ := hparts ["A"] hand
  exact ⟨hshort, hbalanced, hreached, hand, hfound, hpaired.1 hbalanced, hbalanced ▸ hcounted hshort, hread,
    hspan, hscanned, hpart, hlt⟩

end Statement

end Propositional

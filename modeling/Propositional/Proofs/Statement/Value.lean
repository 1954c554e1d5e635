import Propositional.Proofs.Statement.Yield
import Propositional.Proofs.Valuation

/-!
# Letters without a value

The value of a statement is that of its formula, unless some leaf has no value; then the leftmost such
leaf is reported (`value_eq`). No operand is left out, whatever the other one is, so that which letters
have a value decides whether there is a result.

The leaves of a statement that was read are the letters of its literal, in the same order
(`Parsed.lettersIn_lex`). So the letter reported is the first one without a value in the text.
-/

namespace Propositional

open Token

namespace Valuation

/-- The letter has no value. -/
def lacks (a : Valuation) (v : Letter) : Bool := (a.get? v).isNone

@[simp] theorem lacks_iff {a : Valuation} {v : Letter} : a.lacks v = true ↔ v ∉ a.domain := by
  rw [lacks, Option.isNone_iff_eq_none, get?_eq_none_iff]

theorem lacks_eq_false_iff {a : Valuation} {v : Letter} : a.lacks v = false ↔ v ∈ a.domain := by
  rw [Bool.eq_false_iff, ne_eq, lacks_iff, Classical.not_not]

theorem value_of_lacks {a : Valuation} {v : Letter} (h : a.lacks v = true) :
    a.value v = .error ⟨v⟩ := by
  rw [value, Option.isNone_iff_eq_none.1 h]

theorem value_of_not_lacks {a : Valuation} {v : Letter} (h : a.lacks v = false) :
    a.value v = .ok (a.truth v) := by
  rw [value, get?_eq_some_truth (lacks_eq_false_iff.1 h)]

end Valuation

/-- The leftmost leaf without a value. -/
def Formula.gap? (a : Valuation) (f : Formula) : Option Letter := f.leaves.find? a.lacks

theorem Formula.gap?_binary (a : Valuation) (op : Operator) (f g : Formula) :
    (binary op f g).gap? a = (f.gap? a).or (g.gap? a) :=
  List.find?_append

theorem Formula.gap?_eq_none_iff {a : Valuation} {f : Formula} :
    f.gap? a = none ↔ ∀ v ∈ f.leaves, v ∈ a.domain := by
  simp only [gap?, List.find?_eq_none, Valuation.lacks_iff, Classical.not_not]

theorem Formula.gap?_congr {a b : Valuation} {f : Formula}
    (h : ∀ v ∈ f.leaves, a.get? v = b.get? v) : f.gap? a = f.gap? b := by
  induction f with
  | letter v => simp [gap?, leaves, Valuation.lacks, h v (List.mem_singleton_self v)]
  | negation f ih => exact ih h
  | binary op f g ihf ihg =>
    rw [gap?_binary, gap?_binary, ihf fun v hv => h v (List.mem_append_left _ hv),
      ihg fun v hv => h v (List.mem_append_right _ hv)]

namespace Statement

/-- The value of a statement: that of its formula, or the leftmost leaf without a value. -/
theorem value_eq (a : Valuation) (s : Statement) :
    s.value a = match s.formula.gap? a with
      | some v => .error ⟨v⟩
      | none => .ok (s.formula.value a.truth) := by
  induction s with
  | letter text vs v =>
    cases h : a.lacks v with
    | true => simp [value, Valuation.value_of_lacks h, formula, Formula.gap?, Formula.leaves, h]
    | false =>
      simp [value, Valuation.value_of_not_lacks h, formula, Formula.gap?, Formula.leaves,
        Formula.value, h]
  | negation text vs s ih =>
    have hgap : (negation text vs s).formula.gap? a = s.formula.gap? a := rfl
    rw [value, ih, hgap]
    cases s.formula.gap? a <;> rfl
  | binary text vs op l r ihl ihr =>
    -- the right operand is evaluated when the left one has a value, and never left out
    rw [value, ihl, ihr, formula, Formula.gap?_binary]
    cases l.formula.gap? a with
    | some v => rfl
    | none => cases r.formula.gap? a <;> rfl

theorem value_eq_error_iff {a : Valuation} {s : Statement} {v : Letter} :
    s.value a = .error ⟨v⟩ ↔ s.formula.gap? a = some v := by
  rw [value_eq]
  cases s.formula.gap? a <;> simp

/-- The letters that an exact statement keeps are those that evaluation asks for. -/
theorem Exact.exists_value_eq_ok_iff {a : Valuation} {s : Statement} (hs : s.Exact) :
    (∃ b, s.value a = .ok b) ↔ ∀ v ∈ s.letters, v ∈ a.domain := by
  simp only [hs.mem_letters]
  rw [← Formula.gap?_eq_none_iff, value_eq]
  cases s.formula.gap? a <;> simp

/-- The result depends on the values of the letters of the statement only, also when some have none. -/
theorem Exact.value_congr {a b : Valuation} {s : Statement} (hs : s.Exact)
    (h : ∀ v ∈ s.letters, a.get? v = b.get? v) : s.value a = s.value b := by
  have hleaves : ∀ v ∈ s.formula.leaves, a.get? v = b.get? v := fun v hv =>
    h v (hs.mem_letters.2 hv)
  have htruth : ∀ v ∈ s.formula.leaves, a.truth v = b.truth v := fun v hv => by
    rw [Valuation.truth, Valuation.truth, hleaves v hv]
  rw [value_eq, value_eq, Formula.gap?_congr hleaves, Formula.value_congr _ htruth]

end Statement

/-! ## Letters of a text -/

namespace Token

/-- The letters among the tokens, from left to right. -/
def lettersIn (ts : List Token) : List Letter := ts.filterMap Letter.ofName?

/-- The letter that a token of this kind names. -/
def Kind.letter? : Kind → Option Letter
  | letter v => some v
  | _ => none

theorem letter?_kind (t : Token) : (kind t).letter? = Letter.ofName? t := by
  cases h : Letter.ofName? t with
  | some v =>
    rw [kind_eq_letter_iff.2 h]
    rfl
  | none =>
    cases hk : kind t with
    | letter v =>
      rw [kind_eq_letter_iff.1 hk] at h
      cases h
    | _ => rfl

/-- Parentheses are no letters, so that they can be dropped beforehand. -/
theorem filterMap_letter?_words (ts : List Token) :
    ((words ts).map kind).filterMap Kind.letter? = lettersIn ts := by
  have hparen : ∀ t, (if (!isParen t) = true then (kind t).letter? else none) = Letter.ofName? t := by
    intro t
    by_cases ht : isParen t = true
    · rcases isParen_iff.1 ht with rfl | rfl <;> decide
    · have hword : (!isParen t) = true := by simpa using ht
      rw [if_pos hword, letter?_kind]
  rw [List.filterMap_map, words, List.filterMap_filter, lettersIn]
  exact congrArg (ts.filterMap ·) (funext hparen)

end Token

theorem Formula.filterMap_letter?_yield (f : Formula) :
    f.yield.filterMap Kind.letter? = f.leaves := by
  induction f with
  | letter v => rfl
  | negation f ih => exact ih
  | binary op f g ihf ihg =>
    rw [yield, List.filterMap_append, ihf]
    exact congrArg (f.leaves ++ ·) ihg

/-- The literal of a statement that was read has the letters of its leaves, in the same order. -/
theorem Statement.Parsed.lettersIn_lex {s : Statement} (h : s.Parsed) :
    lettersIn (lex s.literal) = s.formula.leaves := by
  rw [← filterMap_letter?_words, h.map_kind_words, Formula.filterMap_letter?_yield]

/-- Looking for a letter among the letters of a list is looking for its name in the list. -/
theorem Token.find?_lettersIn_eq_some_iff {p : Letter → Bool} {ts : List Token} {v : Letter} :
    (lettersIn ts).find? p = some v ↔
      p v = true ∧ ∃ us vs, ts = us ++ v.name :: vs ∧ ∀ w : Letter, w.name ∈ us → p w = false := by
  rw [lettersIn, List.find?_filterMap, Option.bind_eq_some_iff]
  constructor
  · rintro ⟨t, ht, hv⟩
    obtain rfl := Letter.ofName?_eq_some_iff.1 hv
    obtain ⟨hp, us, vs, hts, hbefore⟩ := List.find?_eq_some_iff_append.1 ht
    exact ⟨by simpa using hp, us, vs, hts, fun w hw => by simpa using hbefore _ hw⟩
  · rintro ⟨hp, us, vs, hts, hbefore⟩
    refine ⟨v.name, List.find?_eq_some_iff_append.2 ⟨by simpa using hp, us, vs, hts, ?_⟩,
      Letter.ofName?_name v⟩
    intro t ht
    cases hname : Letter.ofName? t with
    | none => rfl
    | some w =>
      obtain rfl := Letter.ofName?_eq_some_iff.1 hname
      simp [hbefore w ht]

namespace Statement

/-- A statement that was read, and every node of it, has a value exactly when all of its letters have
one. Otherwise the first letter without a value in its literal is reported. -/
theorem value_reports_first_gap {s n : Statement} (hs : s.Parsed) (hn : n ∈ s.nodes)
    (a : Valuation) :
    ((∃ b, n.value a = .ok b) ↔ ∀ v ∈ n.letters, v ∈ a.domain) ∧
      (∀ v, n.value a = .error ⟨v⟩ ↔ v ∉ a.domain ∧ ∃ us vs, lex n.literal = us ++ v.name :: vs ∧
        ∀ w : Letter, w.name ∈ us → w ∈ a.domain) ∧
      ∀ b : Valuation, (∀ v ∈ n.letters, a.get? v = b.get? v) → n.value a = n.value b := by
  have hread : n.Parsed := hs.node hn
  refine ⟨hread.exact.exists_value_eq_ok_iff, fun v => ?_, fun b => hread.exact.value_congr⟩
  rw [value_eq_error_iff, Formula.gap?, ← hread.lettersIn_lex, find?_lettersIn_eq_some_iff]
  simp only [Valuation.lacks_iff, Valuation.lacks_eq_false_iff]

/-- With `C` alone the left operand of `C or ( B and A )` is true and would settle the result; `B` is
reported, which comes before `A` in the text. -/
theorem value_reports_first_gap_or :
    let n : Statement := .binary "B and A" (.ofList [⟨0⟩, ⟨1⟩]) .and (.ofLetter ⟨1⟩) (.ofLetter ⟨0⟩)
    let s : Statement :=
      .binary "C or (B and A)" (.ofList [⟨0⟩, ⟨1⟩, ⟨2⟩]) .or (.ofLetter ⟨2⟩) n
    let a := Valuation.ofPairs [(⟨2⟩, true)]
    s.Parsed ∧ n ∈ s.nodes ∧ (¬ ∃ b, s.value a = .ok b) ∧ s.value a = .error ⟨⟨1⟩⟩ ∧
      n.value a = n.value ∅ := by
  intro n s a
  have hs : s.Parsed := Or.inr ⟨" C or (B and A)", by decide +kernel⟩
  have hn : n ∈ s.nodes := by simp [s, nodes]
  obtain ⟨hvalue, hgap, -⟩ := value_reports_first_gap hs s.self_mem_nodes a
  obtain ⟨-, -, hcongr⟩ := value_reports_first_gap hs hn a
  have hlex : lex s.literal = ["C", "or", "("] ++ "B" :: ["and", "A", ")"] := by decide +kernel
  have hbefore : lettersIn ["C", "or", "("] = [⟨2⟩] := by decide
  refine ⟨hs, hn, fun hex => ?_, ?_, hcongr ∅ fun v hv => ?_⟩
  · exact absurd (hvalue.1 hex ⟨1⟩ (by decide)) (by decide)
  · refine (hgap ⟨1⟩).2 ⟨by decide, _, _, hlex, fun w hw => ?_⟩
    have hmem : w ∈ lettersIn ["C", "or", "("] :=
      List.mem_filterMap.2 ⟨w.name, hw, Letter.ofName?_name w⟩
    rw [hbefore, List.mem_singleton] at hmem
    subst hmem
    decide
  · have hletters : v ∈ [(⟨0⟩ : Letter), ⟨1⟩] := LetterSet.mem_ofList.1 hv
    simp only [List.mem_cons, List.not_mem_nil, or_false] at hletters
    rcases hletters with rfl | rfl <;> decide

end Statement

end Propositional

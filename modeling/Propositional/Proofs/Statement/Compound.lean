import Propositional.Proofs.Formula
import Propositional.Proofs.Statement.Fault
import Propositional.Proofs.Token.Paired
import Propositional.Statement.Value

/-!
# Groups put together

Nothing inside a pair of parentheses takes part in the search for the root. So an operator between two
groups is the root of the whole list, also where the groups hold looser operators, and each group is read
as if it stood alone (`ofTokens_groups`, `ofTokens_negated_group`). What goes wrong in a group goes wrong
in the whole, for the same reason, and the group to the left comes first (`groups_compose`).
-/

namespace Propositional

open Token Occurrence Root

/-- What comes of two operands that are evaluated from left to right: the first fault, or else the truth
value that the operator says. -/
inductive Operator.Combines (op : Operator) :
    Except Unassigned Bool → Except Unassigned Bool → Except Unassigned Bool → Prop
  | left (e : Unassigned) (y : Except Unassigned Bool) : Combines op (.error e) y (.error e)
  | right (x : Bool) (e : Unassigned) : Combines op (.ok x) (.error e) (.error e)
  | both {x y z : Bool} (h : z = true ↔ op.Connects (x = true) (y = true)) :
      Combines op (.ok x) (.ok y) (.ok z)

/-- A word between two lists without operators outside their parentheses is the root, if it spells an
operator. -/
theorem Root.isRoot_of_operators_eq_nil {op : Operator} {us vs : List Token} {t : Token}
    (ht : operator? t = some op) (hrise : rise us = 0) (hus : operators us = [])
    (hvs : operators vs = []) : IsRoot op us t vs where
  spells := ht
  rise_eq := hrise
  left := by simp [hus]
  right := by simp [hvs]

namespace Statement

variable {l r : List Token}

/-! ## Values of compounds -/

theorem value_binary (a : Valuation) {op : Operator} (hop : op.isBinary = true) (text : String)
    (vs : LetterSet) (s u : Statement) :
    op.Combines (s.value a) (u.value a) ((binary text vs op s u).value a) := by
  rw [value]
  cases s.value a with
  | error e => exact .left e _
  | ok x =>
    cases u.value a with
    | error e => exact .right x e
    | ok y => exact .both (Operator.apply_eq_true_iff hop x y)

theorem value_negation (a : Valuation) (text : String) (vs : LetterSet) (s : Statement) :
    (negation text vs s).value a = (s.value a).map Bool.not := by
  rw [value]
  cases s.value a <;> rfl

/-! ## Readings of groups -/

/-- A list and what is left of it without redundant parentheses fail for the same reason. -/
theorem ofTokens_strip_eq_error_iff {ts : List Token} (h : balanced ts = true) {e : Malformed} :
    ofTokens (strip ts) = .error e ↔ ofTokens ts = .error e := by
  rw [ofTokens_strip h, ofTokens_of_balanced h]
  exact ⟨fun he => ofSpan_error_congr he _, fun he => ofSpan_error_congr he _⟩

theorem exists_ofTokens_strip_eq_ok {ts : List Token} {s : Statement} (h : balanced ts = true)
    (hs : ofTokens ts = .ok s) : ∃ s', ofTokens (strip ts) = .ok s' := by
  cases hstrip : ofTokens (strip ts) with
  | ok s' => exact ⟨s', rfl⟩
  | error e =>
    rw [(ofTokens_strip_eq_error_iff h).1 hstrip] at hs
    cases hs

theorem ofSpan_group (h : balanced l = true) :
    (ofSpan (text (strip l)) (enclosed l)).result = ofTokens (strip l) := by
  rw [ofSpan_enclosed _ (balanced_iff.1 h).2, ofTokens_strip h]

/-- An operator between two groups joins what the groups are read as. -/
theorem ofTokens_groups {op : Operator} {m : Token} (hm : operator? m = some op)
    (hop : op.isBinary = true) (hl : balanced l = true) (hr : balanced r = true) :
    ofTokens (enclosed l ++ m :: enclosed r) =
      if strip l = [] ∨ strip r = [] then
        .error (.missingOperand op (text (enclosed l ++ m :: enclosed r)))
      else (ofTokens (strip l)).bind fun a => (ofTokens (strip r)).map fun b =>
        .binary (text (enclosed l ++ m :: enclosed r)) (a.letters.union b.letters) op a b := by
  have hne : op ≠ .not := by
    rintro rfl
    cases hop
  obtain ⟨hrise, hlcov⟩ := balanced_iff.1 hl
  obtain ⟨-, hrcov⟩ := balanced_iff.1 hr
  have hbalanced : balanced (enclosed l ++ m :: enclosed r) = true :=
    balanced_joined (step_of_operator hm) (by rw [balanced_enclosed hlcov, hl])
      (by rw [balanced_enclosed hrcov, hr])
  have hroot : IsRoot op (enclosed l) m (enclosed r) :=
    isRoot_of_operators_eq_nil hm (by rw [rise_enclosed, hrise]) (operators_enclosed hlcov)
      (operators_enclosed hrcov)
  rw [ofTokens_of_balanced hbalanced, ofSpan_isRoot _ hroot, Reading.result_noting, if_neg hne,
    strip_enclosed hlcov, strip_enclosed hrcov]
  by_cases hrnil : strip r = []
  · rw [if_pos hrnil, if_pos (Or.inr hrnil), Reading.result_failed]
  by_cases hlnil : strip l = []
  · rw [if_neg hrnil, if_pos hlnil, if_pos (Or.inl hlnil), Reading.result_failed]
  rw [if_neg hrnil, if_neg hlnil, if_neg (not_or.2 ⟨hlnil, hrnil⟩), Reading.result_bind,
    ofSpan_group hl]
  simp only [Reading.result_map, ofSpan_group hr]

/-- A negation before a group negates what the group is read as. -/
theorem ofTokens_negated_group (hr : balanced r = true) :
    ofTokens ("not" :: enclosed r) =
      if strip r = [] then .error (.missingOperand .not (text ("not" :: enclosed r)))
      else (ofTokens (strip r)).map fun b => negation (text ("not" :: enclosed r)) b.letters b := by
  have hcov := (balanced_iff.1 hr).2
  have hnot : operator? "not" = some .not := by decide
  have hbalanced : balanced ("not" :: enclosed r) = true := by
    rw [balanced_cons_of_step (step_of_operator hnot), balanced_enclosed hcov, hr]
  have hroot : IsRoot .not [] "not" (enclosed r) :=
    isRoot_of_operators_eq_nil hnot rfl operators_nil (operators_enclosed hcov)
  have hread := ofSpan_isRoot (text ("not" :: enclosed r)) hroot
  rw [List.nil_append, if_pos rfl, strip_nil, if_pos rfl, strip_enclosed hcov] at hread
  rw [ofTokens_of_balanced hbalanced, hread, Reading.result_noting]
  by_cases hnil : strip r = []
  · rw [if_pos hnil, if_pos hnil, Reading.result_failed]
  · rw [if_neg hnil, if_neg hnil, Reading.result_map, ofSpan_group hr]

/-! ## Faults and trees of groups -/

section Groups

variable {op : Operator} {m : Token} (hm : operator? m = some op) (hop : op.isBinary = true)
  (hl : balanced l = true) (hr : balanced r = true) (hlnil : strip l ≠ []) (hrnil : strip r ≠ [])

include hm hop hl hr hlnil hrnil

theorem ofTokens_groups_of_ne_nil : ofTokens (enclosed l ++ m :: enclosed r) =
    (ofTokens (strip l)).bind fun a => (ofTokens (strip r)).map fun b =>
      binary (text (enclosed l ++ m :: enclosed r)) (a.letters.union b.letters) op a b := by
  rw [ofTokens_groups hm hop hl hr, if_neg (not_or.2 ⟨hlnil, hrnil⟩)]

theorem ofTokens_groups_of_left {e : Malformed} (he : ofTokens l = .error e) :
    ofTokens (enclosed l ++ m :: enclosed r) = .error e := by
  rw [ofTokens_groups_of_ne_nil hm hop hl hr hlnil hrnil, (ofTokens_strip_eq_error_iff hl).2 he]
  rfl

theorem ofTokens_groups_of_right {a : Statement} {e : Malformed} (ha : ofTokens l = .ok a)
    (he : ofTokens r = .error e) : ofTokens (enclosed l ++ m :: enclosed r) = .error e := by
  obtain ⟨a', ha'⟩ := exists_ofTokens_strip_eq_ok hl ha
  rw [ofTokens_groups_of_ne_nil hm hop hl hr hlnil hrnil, ha', (ofTokens_strip_eq_error_iff hr).2 he]
  rfl

theorem ofTokens_groups_of_both {a b : Statement} (ha : ofTokens l = .ok a)
    (hb : ofTokens r = .ok b) : ∃ a' b', ofTokens (strip l) = .ok a' ∧ ofTokens (strip r) = .ok b' ∧
      ofTokens (enclosed l ++ m :: enclosed r) =
        .ok (binary (text (enclosed l ++ m :: enclosed r)) (a'.letters.union b'.letters) op a' b') := by
  obtain ⟨a', ha'⟩ := exists_ofTokens_strip_eq_ok hl ha
  obtain ⟨b', hb'⟩ := exists_ofTokens_strip_eq_ok hr hb
  refine ⟨a', b', ha', hb', ?_⟩
  rw [ofTokens_groups_of_ne_nil hm hop hl hr hlnil hrnil, ha', hb']
  rfl

end Groups

/-- For an operator between two groups in parentheses, whatever stands in these: a group that holds
nothing is a missing operand of the whole list; otherwise the list fails as the left group does alone, or
else as the right one does; and when both are read, the operator joins what is left of them without
redundant parentheses. A negation before a group goes the same way. -/
theorem groups_compose {op : Operator} {m : Token} (hm : m ∈ op.spellings)
    (hop : op.isBinary = true) (hl : Paired l) (hr : Paired r) :
    let ts := enclosed l ++ m :: enclosed r
    let us := "not" :: enclosed r
    (strip l = [] ∨ strip r = [] → ofTokens ts = .error (.missingOperand op (text ts))) ∧
      (strip l ≠ [] → strip r ≠ [] →
        (∀ e, ofTokens l = .error e → ofTokens ts = .error e) ∧
        (∀ a e, ofTokens l = .ok a → ofTokens r = .error e → ofTokens ts = .error e) ∧
        ∀ a b, ofTokens l = .ok a → ofTokens r = .ok b →
          ∃ a' b', ofTokens (strip l) = .ok a' ∧ ofTokens (strip r) = .ok b' ∧
            let s := binary (text ts) (a'.letters.union b'.letters) op a' b'
            ofTokens ts = .ok s ∧ (∀ v, v ∈ s.letters ↔ v ∈ a'.letters ∨ v ∈ b'.letters) ∧
              ∀ v, op.Combines (a'.value v) (b'.value v) (s.value v)) ∧
      (strip r = [] → ofTokens us = .error (.missingOperand .not (text us))) ∧
      (strip r ≠ [] →
        (∀ e, ofTokens r = .error e → ofTokens us = .error e) ∧
        ∀ b, ofTokens r = .ok b → ∃ b', ofTokens (strip r) = .ok b' ∧
          let s := negation (text us) b'.letters b'
          ofTokens us = .ok s ∧ (∀ v, v ∈ s.letters ↔ v ∈ b'.letters) ∧
            ∀ v, s.value v = (b'.value v).map Bool.not) := by
  intro ts us
  have hspells : operator? m = some op := Operator.ofSpelling?_eq_some_iff.2 hm
  rw [← balanced_iff_paired] at hl hr
  refine ⟨fun hnil => ?_, fun hlnil hrnil => ⟨fun e he => ?_, fun a e ha he => ?_, fun a b ha hb => ?_⟩,
    fun hnil => ?_, fun hrnil => ⟨fun e he => ?_, fun b hb => ?_⟩⟩
  · rw [ofTokens_groups hspells hop hl hr, if_pos hnil]
  · exact ofTokens_groups_of_left hspells hop hl hr hlnil hrnil he
  · exact ofTokens_groups_of_right hspells hop hl hr hlnil hrnil ha he
  · obtain ⟨a', b', ha', hb', hread⟩ := ofTokens_groups_of_both hspells hop hl hr hlnil hrnil ha hb
    exact ⟨a', b', ha', hb', hread, fun _ => LetterSet.mem_union, fun v => value_binary v hop _ _ a' b'⟩
  · rw [ofTokens_negated_group hr, if_pos hnil]
  · rw [ofTokens_negated_group hr, if_neg hrnil, (ofTokens_strip_eq_error_iff hr).2 he]
    rfl
  · obtain ⟨b', hb'⟩ := exists_ofTokens_strip_eq_ok hr hb
    refine ⟨b', hb', ?_, fun _ => Iff.rfl, fun v => value_negation v _ _ b'⟩
    rw [ofTokens_negated_group hr, if_neg hrnil, hb']
    rfl

/-- A group may hold a looser operator than the one behind it, and more parentheses than it needs; of
two faults the one to the left is reported. -/
theorem groups_compose_or :
    let l : List Token := ["A", "=>", "B"]
    let r : List Token := ["(", "C", ")"]
    let bad : List Token := ["A", "B"]
    let worse : List Token := ["A", "xor"]
    "or" ∈ Operator.or.spellings ∧ Operator.or.isBinary = true ∧ Paired l ∧ Paired r ∧ Paired bad ∧
      Paired worse ∧
      (∃ a b s, ofTokens ["A", "=>", "B"] = .ok a ∧ ofTokens ["C"] = .ok b ∧
        ofTokens ["(", "A", "=>", "B", ")", "or", "(", "(", "C", ")", ")"] = .ok s ∧
          s.literal = "( A => B ) or ( ( C ) )" ∧ s.operands = [a, b] ∧
          ∀ v, v ∈ s.letters ↔ v ∈ a.letters ∨ v ∈ b.letters) ∧
      ofTokens ["(", "A", "B", ")", "or", "(", "A", "xor", ")"] = .error (.severalLetters "A B") ∧
      ofTokens ["(", "A", "=>", "B", ")", "or", "(", "A", "xor", ")"] =
        .error (.invalidToken "xor" "A xor") := by
  intro l r bad worse
  have hor : "or" ∈ Operator.or.spellings := by decide
  have hl : Paired l := balanced_iff_paired.1 (by decide)
  have hr : Paired r := balanced_iff_paired.1 (by decide)
  have hbad : Paired bad := balanced_iff_paired.1 (by decide)
  have hworse : Paired worse := balanced_iff_paired.1 (by decide)
  have hstripl : strip l = l := by decide +kernel
  have hstripr : strip r = ["C"] := by decide +kernel
  have hnel : strip l ≠ [] := by decide +kernel
  have hner : strip r ≠ [] := by decide +kernel
  have hnebad : strip bad ≠ [] := by decide +kernel
  have hneworse : strip worse ≠ [] := by decide +kernel
  have hokl : ofTokens l =
      .ok (.binary "A => B" (.ofList [⟨0⟩, ⟨1⟩]) .implies (.ofLetter ⟨0⟩) (.ofLetter ⟨1⟩)) := by
    decide +kernel
  have hokr : ofTokens r = .ok (.letter "( C )" (.singleton ⟨2⟩) ⟨2⟩) := by decide +kernel
  have htext : text (enclosed l ++ "or" :: enclosed r) = "( A => B ) or ( ( C ) )" := by
    decide +kernel
  have hfault : ofTokens worse = .error (.invalidToken "xor" "A xor") := by decide +kernel
  refine ⟨hor, rfl, hl, hr, hbad, hworse, ?_, ?_, ?_⟩
  · obtain ⟨a, b, ha, hb, hread, hletters, -⟩ :=
      ((groups_compose hor rfl hl hr).2.1 hnel hner).2.2 _ _ hokl hokr
    rw [hstripl] at ha
    rw [hstripr] at hb
    exact ⟨a, b, _, ha, hb, hread, htext, rfl, hletters⟩
  · exact ((groups_compose hor rfl hbad hworse).2.1 hnebad hneworse).1 _ (by decide +kernel)
  · exact ((groups_compose hor rfl hl hworse).2.1 hnel hneworse).2.1 _ _ hokl hfault

end Statement

end Propositional

import Propositional.Proofs.Statement.Root
import Propositional.Statement.Reader

/-!
# Readings of a list of tokens

The reader strips a list, looks for its root and reads both sides. Each outcome of the search gives
one equation here, in which the sides stand unstripped: stripping twice changes nothing.

`ofSpan_ok_cases` says what a successful reading consists of, and `ofSpan_induction` is the induction
over it. Nothing here asks for balanced lists.
-/

namespace Propositional

/-- Outcomes can be compared, so that what a given list or text is read as can be computed. -/
instance decidableEqExcept {ε α : Type} [DecidableEq ε] [DecidableEq α] : DecidableEq (Except ε α)
  | .error e, .error f => decidable_of_iff (e = f) ⟨congrArg Except.error, Except.error.inj⟩
  | .error _, .ok _ => isFalse nofun
  | .ok _, .error _ => isFalse nofun
  | .ok a, .ok b => decidable_of_iff (a = b) ⟨congrArg Except.ok, Except.ok.inj⟩

namespace Reading

variable {α β : Type} {r : Reading α}

theorem result_map_eq_ok_iff {f : α → β} {b : β} :
    (r.map f).result = .ok b ↔ ∃ a, r.result = .ok a ∧ f a = b := by
  rw [result_map]
  cases r.result <;> simp [Except.map]

theorem result_bind_eq_ok_iff {f : α → Reading β} {b : β} :
    (r.bind f).result = .ok b ↔ ∃ a, r.result = .ok a ∧ (f a).result = .ok b := by
  rw [result_bind]
  cases r.result <;> simp [Except.bind]

theorem result_map_eq_error_iff {f : α → β} {e : Malformed} :
    (r.map f).result = .error e ↔ r.result = .error e := by
  rw [result_map]
  cases r.result <;> simp [Except.map]

theorem result_bind_eq_error_iff {f : α → Reading β} {e : Malformed} :
    (r.bind f).result = .error e ↔
      r.result = .error e ∨ ∃ a, r.result = .ok a ∧ (f a).result = .error e := by
  rw [result_bind]
  cases r.result <;> simp [Except.bind]

theorem result_mapError_eq_ok_iff {f : Malformed → Malformed} {a : α} :
    (r.mapError f).result = .ok a ↔ r.result = .ok a := by
  rw [result_mapError]
  cases r.result with
  | error e => constructor <;> rintro ⟨⟩
  | ok b => exact Iff.rfl

end Reading

namespace Statement

open Token Occurrence Root

/-! ## The three outcomes -/

/-- Only the stripped list counts. -/
theorem ofSpan_congr {us ts : List Token} (h : strip us = strip ts) (l : String) :
    ofSpan l us = ofSpan l ts := by
  rw [ofSpan, ofSpan, h]

@[simp] theorem ofSpan_strip (l : String) (ts : List Token) : ofSpan l (strip ts) = ofSpan l ts :=
  ofSpan_congr (strip_strip ts) l

theorem ofSpan_enclosed (l : String) {ts : List Token} (h : Covered ts) :
    ofSpan l (enclosed ts) = ofSpan l ts :=
  ofSpan_congr (strip_enclosed h) l

/-- The reading of a list by the root of what is stripped. -/
theorem ofSpan_eq (l : String) (ts : List Token) :
    ofSpan l ts = match Root.ofTokens (strip ts) with
      | .ambiguous => .failed (.ambiguousPrecedence (text (strip ts)))
      | .absent => .ofExcept (ofOperatorless l (strip ts))
      | .found o =>
        let us := (strip ts).take o.place
        let vs := (strip ts).drop (o.place + 1)
        .noting ⟨l, o.op, o.place⟩ <|
          if strip vs = [] then .failed (.missingOperand o.op (text (strip ts)))
          else if o.op = .not then
            if strip us = [] then (ofSpan (text (strip vs)) vs).map fun a => .negation l a.letters a
            else .failed (.unexpectedOperand o.op (text (strip ts)))
          else if strip us = [] then .failed (.missingOperand o.op (text (strip ts)))
          else (ofSpan (text (strip us)) us).bind fun a =>
            (ofSpan (text (strip vs)) vs).map fun b =>
              .binary l (a.letters.union b.letters) o.op a b := by
  rw [ofSpan]
  simp only [ofSpan_strip, List.isEmpty_iff]
  split <;> rename_i h <;> rw [h]

theorem ofSpan_absent (l : String) {ts : List Token} (h : operators (strip ts) = []) :
    ofSpan l ts = .ofExcept (ofOperatorless l (strip ts)) := by
  rw [ofSpan_eq, ofTokens_eq_absent_iff.2 h]

theorem ofSpan_ambiguous (l : String) {ts : List Token}
    (h : 2 ≤ (operators (strip ts)).countP Operator.isConditional) :
    ofSpan l ts = .failed (.ambiguousPrecedence (text (strip ts))) := by
  rw [ofSpan_eq, ofTokens_eq_ambiguous_iff.2 h]

theorem ofSpan_isRoot (l : String) {op : Operator} {us vs : List Token} {t : Token}
    (h : IsRoot op us t vs) :
    ofSpan l (us ++ t :: vs) = .noting ⟨l, op, us.length⟩
      (if strip vs = [] then .failed (.missingOperand op (text (us ++ t :: vs)))
      else if op = .not then
        if strip us = [] then (ofSpan (text (strip vs)) vs).map fun a => .negation l a.letters a
        else .failed (.unexpectedOperand op (text (us ++ t :: vs)))
      else if strip us = [] then .failed (.missingOperand op (text (us ++ t :: vs)))
      else (ofSpan (text (strip us)) us).bind fun a =>
        (ofSpan (text (strip vs)) vs).map fun b => .binary l (a.letters.union b.letters) op a b) := by
  have hleft : (us ++ t :: vs).take us.length = us := List.take_left
  have hright : (us ++ t :: vs).drop (us.length + 1) = vs := by
    rw [← List.drop_drop, List.drop_left]
    rfl
  rw [ofSpan_eq, h.strip_eq, h.ofTokens_eq]
  simp only [hleft, hright]

/-- At a root the reader goes one of five ways, by the operator and by what is left of the sides. -/
theorem ofSpan_isRoot_cases (l : String) {op : Operator} {us vs : List Token} {t : Token}
    (h : IsRoot op us t vs) :
    (strip vs = [] ∧ ofSpan l (us ++ t :: vs) =
      .noting ⟨l, op, us.length⟩ (.failed (.missingOperand op (text (us ++ t :: vs))))) ∨
    (op = .not ∧ strip us ≠ [] ∧ strip vs ≠ [] ∧ ofSpan l (us ++ t :: vs) =
      .noting ⟨l, op, us.length⟩ (.failed (.unexpectedOperand op (text (us ++ t :: vs))))) ∨
    (op ≠ .not ∧ strip us = [] ∧ ofSpan l (us ++ t :: vs) =
      .noting ⟨l, op, us.length⟩ (.failed (.missingOperand op (text (us ++ t :: vs))))) ∨
    (op = .not ∧ strip us = [] ∧ ofSpan l (us ++ t :: vs) =
      .noting ⟨l, op, us.length⟩ ((ofSpan (text (strip vs)) vs).map fun a => .negation l a.letters a)) ∨
    (op ≠ .not ∧ ofSpan l (us ++ t :: vs) =
      .noting ⟨l, op, us.length⟩ ((ofSpan (text (strip us)) us).bind fun a =>
        (ofSpan (text (strip vs)) vs).map fun b => .binary l (a.letters.union b.letters) op a b)) := by
  rw [ofSpan_isRoot l h]
  by_cases hvs : strip vs = []
  · simp [hvs]
  by_cases hop : op = .not <;> by_cases hus : strip us = [] <;> simp [hvs, hop, hus]

/-! ## Success -/

theorem lone?_eq_some_iff {ts : List Token} {v : Letter} : lone? ts = some v ↔ ts = [v.name] := by
  constructor
  · intro h
    match ts, h with
    | [t], h => rw [Letter.ofName?_eq_some_iff.1 h]
  · rintro rfl
    exact Letter.ofName?_name v

theorem ofOperatorless_eq_ok_iff {l : String} {ts : List Token} {s : Statement} :
    ofOperatorless l ts = .ok s ↔ ∃ v : Letter, ts = [v.name] ∧ s = .letter l (.singleton v) v := by
  constructor
  · intro h
    unfold ofOperatorless at h
    split at h
    · cases h
    · split at h
      · rename_i v hv
        cases h
        exact ⟨v, lone?_eq_some_iff.1 hv, rfl⟩
      · cases h
    · cases h
  · rintro ⟨v, rfl, rfl⟩
    have hcount : [v.name].countP isLetter = 1 := by simp [isLetter]
    have hlone : lone? [v.name] = some v := lone?_eq_some_iff.2 rfl
    simp only [ofOperatorless, hcount, hlone]

theorem strip_ne_nil_of_ok {l : String} {ts : List Token} {s : Statement}
    (h : (ofSpan l ts).result = .ok s) : strip ts ≠ [] := by
  intro hnil
  have hops : operators (strip ts) = [] := by rw [hnil, operators_nil]
  rw [ofSpan_absent l hops, hnil, Reading.result_ofExcept] at h
  obtain ⟨v, hv, -⟩ := ofOperatorless_eq_ok_iff.1 h
  cases hv

theorem ofSpan_letter (l : String) {ts : List Token} {v : Letter} (h : strip ts = [v.name]) :
    (ofSpan l ts).result = .ok (.letter l (.singleton v) v) := by
  have hops : operators (strip ts) = [] := by rw [h, operators_name]
  rw [ofSpan_absent l hops, Reading.result_ofExcept]
  exact ofOperatorless_eq_ok_iff.2 ⟨v, h, rfl⟩

theorem ofSpan_negation (l : String) {ts us vs : List Token} {t : Token} {a : Statement}
    (hts : strip ts = us ++ t :: vs) (hroot : IsRoot .not us t vs) (hus : strip us = [])
    (ha : (ofSpan (text (strip vs)) vs).result = .ok a) :
    (ofSpan l ts).result = .ok (.negation l a.letters a) := by
  rw [← ofSpan_strip, hts, ofSpan_isRoot l hroot, if_neg (strip_ne_nil_of_ok ha), if_pos rfl,
    if_pos hus, Reading.result_noting]
  exact Reading.result_map_eq_ok_iff.2 ⟨a, ha, rfl⟩

theorem ofSpan_binary (l : String) {op : Operator} {ts us vs : List Token} {t : Token}
    {a b : Statement} (hts : strip ts = us ++ t :: vs) (hroot : IsRoot op us t vs) (hop : op ≠ .not)
    (ha : (ofSpan (text (strip us)) us).result = .ok a)
    (hb : (ofSpan (text (strip vs)) vs).result = .ok b) :
    (ofSpan l ts).result = .ok (.binary l (a.letters.union b.letters) op a b) := by
  rw [← ofSpan_strip, hts, ofSpan_isRoot l hroot, if_neg (strip_ne_nil_of_ok hb), if_neg hop,
    if_neg (strip_ne_nil_of_ok ha), Reading.result_noting]
  exact Reading.result_bind_eq_ok_iff.2 ⟨a, ha, Reading.result_map_eq_ok_iff.2 ⟨b, hb, rfl⟩⟩

/-- A successful reading is of one of three kinds. -/
theorem ofSpan_ok_cases {l : String} {ts : List Token} {s : Statement}
    (h : (ofSpan l ts).result = .ok s) :
    (∃ v : Letter, strip ts = [v.name] ∧ s = .letter l (.singleton v) v) ∨
    (∃ us t vs a, strip ts = us ++ t :: vs ∧ IsRoot .not us t vs ∧ strip us = [] ∧
      (ofSpan (text (strip vs)) vs).result = .ok a ∧ s = .negation l a.letters a) ∨
    (∃ op us t vs a b, strip ts = us ++ t :: vs ∧ IsRoot op us t vs ∧ op ≠ .not ∧
      (ofSpan (text (strip us)) us).result = .ok a ∧
      (ofSpan (text (strip vs)) vs).result = .ok b ∧
      s = .binary l (a.letters.union b.letters) op a b) := by
  rcases root_cases (strip ts) with hops | hcount | ⟨op, us, t, vs, hts, hroot⟩
  · rw [ofSpan_absent l hops] at h
    exact Or.inl (ofOperatorless_eq_ok_iff.1 h)
  · rw [ofSpan_ambiguous l hcount] at h
    cases h
  · rw [← ofSpan_strip, hts] at h
    rcases ofSpan_isRoot_cases l hroot with ⟨-, heq⟩ | ⟨-, -, -, heq⟩ | ⟨-, -, heq⟩ |
      ⟨rfl, hus, heq⟩ | ⟨hop, heq⟩ <;> rw [heq, Reading.result_noting] at h
    · cases h
    · cases h
    · cases h
    · obtain ⟨a, ha, rfl⟩ := Reading.result_map_eq_ok_iff.1 h
      exact Or.inr (Or.inl ⟨us, t, vs, a, hts, hroot, hus, ha, rfl⟩)
    · obtain ⟨a, ha, hmap⟩ := Reading.result_bind_eq_ok_iff.1 h
      obtain ⟨b, hb, rfl⟩ := Reading.result_map_eq_ok_iff.1 hmap
      exact Or.inr (Or.inr ⟨op, us, t, vs, a, b, hts, hroot, hop, ha, hb, rfl⟩)

theorem ofSpan_of_ofPaired {l : String} {ts : List Token} {s : Statement}
    (h : (ofPaired l ts).result = .ok s) :
    balanced ts = true ∧ (ofSpan l ts).result = .ok s := by
  rw [ofPaired] at h
  split at h
  · rename_i hbalanced
    exact ⟨hbalanced, h⟩
  · cases h

/-- Induction over a successful reading: along the splits, with the sides unstripped. -/
theorem ofSpan_induction {P : List Token → Statement → Prop}
    (letter : ∀ l ts v, strip ts = [Letter.name v] → P ts (.letter l (.singleton v) v))
    (negation : ∀ l ts us t vs a, strip ts = us ++ t :: vs → IsRoot .not us t vs → strip us = [] →
      P vs a → P ts (.negation l a.letters a))
    (binary : ∀ l op ts us t vs a b, strip ts = us ++ t :: vs → IsRoot op us t vs → op ≠ .not →
      P us a → P vs b → P ts (.binary l (a.letters.union b.letters) op a b))
    {l : String} {ts : List Token} {s : Statement} (h : (ofSpan l ts).result = .ok s) : P ts s := by
  induction hn : ts.length using Nat.strongRecOn generalizing l ts s with
  | ind n ih =>
    rcases ofSpan_ok_cases h with ⟨v, hts, rfl⟩ | ⟨us, t, vs, a, hts, hroot, hus, ha, rfl⟩ |
      ⟨op, us, t, vs, a, b, hts, hroot, hop, ha, hb, rfl⟩
    · exact letter l ts v hts
    · obtain ⟨-, hright⟩ := length_sides_lt hts
      exact negation l ts us t vs a hts hroot hus (ih vs.length (hn ▸ hright) ha rfl)
    · obtain ⟨hleft, hright⟩ := length_sides_lt hts
      exact binary l op ts us t vs a b hts hroot hop (ih us.length (hn ▸ hleft) ha rfl)
        (ih vs.length (hn ▸ hright) hb rfl)

end Statement

end Propositional

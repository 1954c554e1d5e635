import Propositional.Proofs.Statement.Parsed
import Propositional.Proofs.Table.Grid

/-!
# Tables are truth tables

The row for the number `r` gives the letters the binary digits of `r`, the first letter the highest
one, and says of every statement whether its formula holds when the letters with digit 1 are true.
-/

namespace Propositional

namespace Table

/-- The digit of `r` that belongs to the letter with index `i`: the last letter has digit 0. -/
def digit (t : Table) (r i : Nat) : Bool := r.testBit (t.letters.length - 1 - i)

/-- The letter is true in the row for the number `r`. -/
def TrueAt (t : Table) (r : Nat) (v : Letter) : Prop := ∃ i, t.letters[i]? = some v ∧ t.digit r i = true

/-- The cells are those of the row for the number `r`: a label for each digit, then one for each statement
that says whether its formula holds. -/
structure IsRow (t : Table) (r : Nat) (row : List String) : Prop where
  length_eq : row.length = t.letters.length + t.statements.length
  letter_true : ∀ i < t.letters.length, t.digit r i = true →
    row[i]? = some (t.style.wrap t.labels.whenTrue)
  letter_false : ∀ i < t.letters.length, t.digit r i = false →
    row[i]? = some (t.style.wrap t.labels.whenFalse)
  statement_true : ∀ j s, t.statements[j]? = some s → s.formula.Holds (t.TrueAt r) →
    row[t.letters.length + j]? = some (t.style.wrap t.labels.whenTrue)
  statement_false : ∀ j s, t.statements[j]? = some s → ¬ s.formula.Holds (t.TrueAt r) →
    row[t.letters.length + j]? = some (t.style.wrap t.labels.whenFalse)

theorem pairwise_letters (t : Table) : t.letters.Pairwise fun v w => v.index < w.index :=
  t.letterSet.pairwise_toList

theorem nodup_letters (t : Table) : t.letters.Nodup := t.letterSet.nodup_toList

theorem rowCount_lt (t : Table) : t.rowCount < 2 ^ 64 := by
  have hle : t.letters.length ≤ 26 := t.letterSet.length_toList_le
  rw [rowCount_eq]
  exact Nat.pow_lt_pow_right (by decide) (by omega)

theorem truth_valuation (t : Table) (k : Nat) {i : Nat} {v : Letter} (h : t.letters[i]? = some v) :
    (t.valuation k).truth v = t.digit (t.rowNumber k) i :=
  Valuation.truth_eq_of_get? (Valuation.get?_ofRow_of_nodup t.nodup_letters _ h)

theorem truth_valuation_iff (t : Table) (k : Nat) {v : Letter} (h : v ∈ t.letters) :
    (t.valuation k).truth v = true ↔ t.TrueAt (t.rowNumber k) v := by
  constructor
  · intro htruth
    obtain ⟨i, hi⟩ := List.getElem?_of_mem h
    exact ⟨i, hi, t.truth_valuation k hi ▸ htruth⟩
  · rintro ⟨i, hi, hdigit⟩
    rw [t.truth_valuation k hi, hdigit]

/-- The cell of a letter is the label of its digit. -/
theorem getElem?_entries_letter (t : Table) (k : Nat) {i : Nat} (hi : i < t.letters.length) :
    (t.columns.map (t.entry k))[i]? =
      some (t.style.wrap (t.labels.label (t.digit (t.rowNumber k) i))) := by
  have hv : t.letters[i]? = some t.letters[i] := List.getElem?_eq_getElem hi
  rw [List.getElem?_map, t.getElem?_columns_letter hv, ← t.truth_valuation k hv]
  rfl

/-- In a row a formula has the value true exactly if it holds of the letters that are true there. -/
theorem Exact.value_eq_true_iff {t : Table} (h : t.Exact) {s : Statement} (hs : s ∈ t.statements)
    (hproper : s.formula.Proper) (k : Nat) :
    s.formula.value (t.valuation k).truth = true ↔ s.formula.Holds (t.TrueAt (t.rowNumber k)) := by
  rw [Formula.value_eq_true_iff hproper]
  exact Formula.holds_congr s.formula fun v hv =>
    t.truth_valuation_iff k (h.mem_letters.2 ⟨s, hs, hv⟩)

theorem isRow_entries {t : Table} (h : ∀ s ∈ t.statements, s.Parsed) (k : Nat) :
    t.IsRow (t.rowNumber k) (t.columns.map (t.entry k)) where
  length_eq := by
    rw [List.length_map, columns, List.length_append, List.length_map]
  letter_true i hi hdigit := by
    rw [t.getElem?_entries_letter k hi, hdigit, Labels.label_true]
  letter_false i hi hdigit := by
    rw [t.getElem?_entries_letter k hi, hdigit, Labels.label_false]
  statement_true j s hs hholds := by
    have hmem : s ∈ t.statements := List.mem_of_getElem? hs
    have hvalue := (exact_of_parsed h).value_eq_true_iff hmem (h s hmem).proper k
    rw [t.getElem?_entries k hs, entry, hvalue.2 hholds, Labels.label_true]
  statement_false j s hs hholds := by
    have hmem : s ∈ t.statements := List.mem_of_getElem? hs
    have hvalue := (exact_of_parsed h).value_eq_true_iff hmem (h s hmem).proper k
    rw [t.getElem?_entries k hs, entry, Bool.eq_false_iff.2 (mt hvalue.1 hholds), Labels.label_false]

/-- The table of statements that were read has the letters at their leaves as its first columns, in
order and each once, and a row for each number below `2 ^ n`, counted up or down. -/
theorem grid_tabulates (t : Table) (h : ∀ s ∈ t.statements, s.Parsed) :
    t.letters.Pairwise (fun v w => v.index < w.index) ∧
      (∀ v, v ∈ t.letters ↔ ∃ s ∈ t.statements, v ∈ s.formula.leaves) ∧
      t.rowCount = 2 ^ t.letters.length ∧ t.rowCount < 2 ^ 64 ∧
      ∃ rows, t.grid = .ok ((t.letters.map (fun v => t.style.wrap v.name) ++
          t.statements.map fun s => t.style.wrap (s.header t.style)) :: rows) ∧
        rows.length = 2 ^ t.letters.length ∧
        ∀ k row, rows[k]? = some row →
          t.IsRow (if t.reverse then 2 ^ t.letters.length - 1 - k else k) row := by
  have hexact : t.Exact := exact_of_parsed h
  refine ⟨t.pairwise_letters, fun _ => hexact.mem_letters, t.rowCount_eq, t.rowCount_lt, _,
    t.header_eq ▸ hexact.grid_eq_ok, ?_, fun k row hrow => ?_⟩
  · rw [List.length_map, List.length_range, rowCount_eq]
  · -- row `k` of the list is row `k` of the table, which stands for `t.rowNumber k`
    rw [List.getElem?_map, Option.map_eq_some_iff] at hrow
    obtain ⟨q, hq, rfl⟩ := hrow
    obtain ⟨-, rfl⟩ := List.getElem?_eq_some_iff.1 hq
    rw [List.getElem_range, ← rowCount_eq]
    exact isRow_entries h k

/-- Two statements that share a letter, counted down. The row for 5 makes `A` and `C` true. -/
theorem grid_tabulates_not_or_and :
    let s : Statement := .binary "not C or ( A )" (.ofList [⟨0⟩, ⟨2⟩]) .or
      (.negation "not C" (.singleton ⟨2⟩) (.ofLetter ⟨2⟩)) (.ofLetter ⟨0⟩)
    let u : Statement := .binary "B and A" (.ofList [⟨0⟩, ⟨1⟩]) .and (.ofLetter ⟨1⟩) (.ofLetter ⟨0⟩)
    let t : Table := ⟨[s, u], .latex, ⟨"no", "yes"⟩, true⟩
    (∀ s ∈ t.statements, s.Parsed) ∧
      ∃ rows, t.grid = .ok (["$A$", "$B$", "$C$", "$\\lnot C \\lor (A)$", "$B \\land A$"] :: rows) ∧
        rows.length = 8 ∧ (∀ k row, rows[k]? = some row → t.IsRow (7 - k) row) ∧
        ∀ row, rows[2]? = some row → row[0]? = some "$yes$" ∧ row[1]? = some "$no$" ∧
          row[2]? = some "$yes$" ∧ row[3]? = some "$yes$" ∧ row[4]? = some "$no$" := by
  intro s u t
  have hparsed : ∀ s ∈ t.statements, s.Parsed := by
    intro s hs
    rcases List.mem_cons.1 hs with rfl | hs
    · exact Or.inl ⟨["not", "C", "or", "(", "A", ")"], by decide +kernel⟩
    · rw [List.mem_singleton.1 hs]
      exact Or.inr ⟨" B and A", by decide +kernel⟩
  have hletters : t.letters = [⟨0⟩, ⟨1⟩, ⟨2⟩] := by decide
  obtain ⟨-, -, -, -, rows, hgrid, hlength, hrows⟩ := t.grid_tabulates hparsed
  have hheader : t.letters.map (fun v => t.style.wrap v.name) ++
      t.statements.map (fun s => t.style.wrap (s.header t.style)) =
      ["$A$", "$B$", "$C$", "$\\lnot C \\lor (A)$", "$B \\land A$"] := by decide +kernel
  rw [hheader] at hgrid
  rw [hletters] at hlength hrows
  have htrue : t.TrueAt 5 ⟨0⟩ := ⟨0, by decide, by decide⟩
  have hfalse : ¬ t.TrueAt 5 ⟨1⟩ := by
    rintro ⟨i, hi, hdigit⟩
    rw [hletters] at hi
    rcases i with _ | _ | _ | i
    · exact absurd hi (by decide)
    · exact absurd hdigit (by decide)
    · exact absurd hi (by decide)
    · cases hi
  refine ⟨hparsed, rows, hgrid, hlength, hrows, fun row hrow => ?_⟩
  have hrow5 : t.IsRow 5 row := hrows 2 row hrow
  have hs := hrow5.statement_true 0 s rfl (Or.inr htrue)
  have hu := hrow5.statement_false 1 u rfl fun h => hfalse h.1
  rw [hletters] at hs hu
  exact ⟨hrow5.letter_true 0 (by decide) (by decide), hrow5.letter_false 1 (by decide) (by decide),
    hrow5.letter_true 2 (by decide) (by decide), hs, hu⟩

end Table

end Propositional

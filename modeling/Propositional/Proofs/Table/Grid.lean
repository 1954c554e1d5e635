import Mathlib.Algebra.Ring.Nat
import Propositional.Proofs.LetterSet
import Propositional.Proofs.Statement.Parsed
import Propositional.Proofs.Valuation
import Propositional.Table.Basic

/-!
# The cells of a table

The letters of a table are those that its statements keep. Where these are the letters at their leaves
(`Table.Exact`) every letter that a column asks for has a value in every row, so that computing the cells
never fails, and the cell of a statement in row `k` is the label of the value of its formula (`grid_eq_ok`).
The rows go through all truth values for the letters (`forall_rows_iff`).
-/

namespace Propositional

open Token

theorem mapM_eq_ok {α β ε : Type} {f : α → Except ε β} {g : α → β} {xs : List α}
    (h : ∀ x ∈ xs, f x = .ok (g x)) : xs.mapM f = .ok (xs.map g) := by
  induction xs with
  | nil => rfl
  | cons x xs ih =>
    rw [List.mapM_cons, h x List.mem_cons_self, ih fun y hy => h y (List.mem_cons_of_mem x hy)]
    rfl

namespace Statement

/-- A letter is the same in every style. -/
theorem header_ofLetter (v : Letter) (style : Style) : (ofLetter v).header style = v.name := by
  unfold header
  rw [ofLetter, literal, lex_name, Style.tokens, Style.tokensFrom, Style.tokensFrom, Style.token,
    operator?_name]
  simp

end Statement

namespace Table

/-- Every statement keeps the letters at its leaves. -/
def Exact (t : Table) : Prop := ∀ s ∈ t.statements, s.Exact

theorem exact_of_parsed {t : Table} (h : ∀ s ∈ t.statements, s.Parsed) : t.Exact :=
  fun s hs => (h s hs).exact

variable (t : Table)

/-! ## Letters and row numbers -/

theorem mem_letters {t : Table} {v : Letter} :
    v ∈ t.letters ↔ ∃ s ∈ t.statements, v ∈ s.letters := by
  rw [letters, LetterSet.mem_toList, letterSet, LetterSet.mem_foldl_union]
  simp only [LetterSet.not_mem_empty, false_or]

theorem Exact.mem_letters {t : Table} (h : t.Exact) {v : Letter} :
    v ∈ t.letters ↔ ∃ s ∈ t.statements, v ∈ s.formula.leaves := by
  rw [Table.mem_letters]
  refine exists_congr fun s => and_congr_right fun hs => ?_
  exact (h s hs).mem_letters

theorem rowCount_eq : t.rowCount = 2 ^ t.letters.length := Nat.pow_eq

theorem rowNumber_lt {k : Nat} (h : k < t.rowCount) : t.rowNumber k < t.rowCount := by
  unfold rowNumber
  split <;> omega

/-- Counting down twice is counting up. -/
theorem rowNumber_rowNumber {k : Nat} (h : k < t.rowCount) : t.rowNumber (t.rowNumber k) = k := by
  unfold rowNumber
  split <;> omega

theorem header_eq : t.header = t.letters.map (fun v => t.style.wrap v.name) ++
    t.statements.map fun s => t.style.wrap (s.header t.style) := by
  have hnames : (t.letters.map Statement.ofLetter).map (fun s => t.style.wrap (s.header t.style)) =
      t.letters.map fun v => t.style.wrap v.name := by
    rw [List.map_map]
    refine List.map_congr_left fun v _ => ?_
    rw [Function.comp_apply, Statement.header_ofLetter]
  rw [header, columns, List.map_append, hnames]

/-! ## Cells -/

theorem mem_domain_valuation {k : Nat} {v : Letter} :
    v ∈ (t.valuation k).domain ↔ v ∈ t.letters :=
  Valuation.mem_domain_ofRow t.letters (t.rowNumber k)

/-- The letters at the leaves of every column are letters of the table. -/
theorem Exact.mem_letters_of_column {t : Table} (h : t.Exact) {s : Statement} (hs : s ∈ t.columns)
    {v : Letter} (hv : v ∈ s.formula.leaves) : v ∈ t.letters := by
  rcases List.mem_append.1 hs with hs | hs
  · obtain ⟨w, hw, rfl⟩ := List.mem_map.1 hs
    rw [List.mem_singleton.1 hv]
    exact hw
  · exact h.mem_letters.2 ⟨s, hs, hv⟩

/-- What stands in row `k` in the column of a statement. -/
def entry (k : Nat) (s : Statement) : String :=
  t.style.wrap (t.labels.label (s.formula.value (t.valuation k).truth))

namespace Exact

variable {t : Table}

theorem cell_eq_ok (h : t.Exact) (k : Nat) {s : Statement} (hs : s ∈ t.columns) :
    t.cell (t.valuation k) s = .ok (t.entry k s) := by
  have hvalue : s.value (t.valuation k) = .ok (s.formula.value (t.valuation k).truth) :=
    Statement.value_of_domain fun v hv => t.mem_domain_valuation.2 (h.mem_letters_of_column hs hv)
  rw [cell, hvalue]
  rfl

theorem row_eq_ok (h : t.Exact) (k : Nat) : t.row k = .ok (t.columns.map (t.entry k)) :=
  mapM_eq_ok fun _ hs => h.cell_eq_ok k hs

theorem grid_eq_ok (h : t.Exact) :
    t.grid = .ok (t.header :: (List.range t.rowCount).map fun k => t.columns.map (t.entry k)) := by
  rw [grid, mapM_eq_ok fun k _ => h.row_eq_ok k]
  rfl

end Exact

/-! ## Columns -/

theorem getElem?_columns_letter {i : Nat} {v : Letter} (h : t.letters[i]? = some v) :
    t.columns[i]? = some (.ofLetter v) := by
  have hi : i < (t.letters.map Statement.ofLetter).length := by
    rw [List.length_map]
    exact (List.getElem?_eq_some_iff.1 h).1
  rw [columns, List.getElem?_append_left hi, List.getElem?_map, h]
  rfl

theorem getElem?_columns_statement (j : Nat) :
    t.columns[t.letters.length + j]? = t.statements[j]? := by
  have hle : (t.letters.map Statement.ofLetter).length ≤ t.letters.length + j := by
    rw [List.length_map]
    exact Nat.le_add_right _ j
  rw [columns, List.getElem?_append_right hle, List.length_map, Nat.add_sub_cancel_left]

/-- The cell of a statement in a row of the grid. -/
theorem getElem?_entries (k : Nat) {j : Nat} {s : Statement}
    (h : t.statements[j]? = some s) :
    (t.columns.map (t.entry k))[t.letters.length + j]? = some (t.entry k s) := by
  rw [List.getElem?_map, getElem?_columns_statement, h]
  rfl

/-! ## All truth values -/

theorem exists_row (truth : Letter → Bool) :
    ∃ k < t.rowCount, ∀ v ∈ t.letters, (t.valuation k).truth v = truth v := by
  obtain ⟨r, hr, htruth⟩ := Valuation.exists_ofRow t.letters truth
  refine ⟨t.rowNumber r, t.rowNumber_lt hr, fun v hv => ?_⟩
  rw [valuation, t.rowNumber_rowNumber hr]
  exact Valuation.truth_eq_of_get? (htruth v hv)

/-- What depends on the letters of the table only and is true in every row is true always. -/
theorem forall_rows_iff {P : (Letter → Bool) → Prop}
    (hP : ∀ f g, (∀ v ∈ t.letters, f v = g v) → P f → P g) :
    (∀ k < t.rowCount, P (t.valuation k).truth) ↔ ∀ truth, P truth := by
  constructor
  · intro h truth
    obtain ⟨k, hk, htruth⟩ := t.exists_row truth
    exact hP _ truth htruth (h k hk)
  · intro h k _
    exact h _

end Table

end Propositional

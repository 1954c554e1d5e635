import Propositional.Proofs.Statement.Yield
import Propositional.Proofs.Style
import Propositional.Proofs.Table.Grid

/-!
# What the cells hold

The headings and the rows of a table have a cell for each column (`length_row`). In a table of statements
that were read no cell holds a line feed unless a label does (`newline_not_mem_cell`): a heading is made of
spaces and of tokens that mean something, and these have no blanks.
-/

namespace Propositional

open Token

namespace Style

theorem newline_not_mem_tokens {style : Style} {ts : List Token} (h : ∀ t ∈ ts, kind t ≠ .other) :
    '\n' ∉ (style.tokens ts).toList := by
  refine not_mem_tokens (by decide) fun t ht hmem => ?_
  have hblank : Text.isBlank '\n' = false := (visible_token (h t ht)).2 _ hmem
  revert hblank
  decide

theorem newline_not_mem_wrap {style : Style} {cell : String} (h : '\n' ∉ cell.toList) :
    '\n' ∉ (style.wrap cell).toList := by
  cases style with
  | human => exact h
  | latex => simpa [wrap] using h

end Style

namespace Table

/-- All cells of the table, the headings first. -/
def cells (t : Table) : List (List String) :=
  t.header :: (List.range t.rowCount).map fun k => t.columns.map (t.entry k)

theorem Exact.grid_eq_cells {t : Table} (h : t.Exact) : t.grid = .ok t.cells := h.grid_eq_ok

theorem length_cells (t : Table) : t.cells.length = 2 ^ t.letters.length + 1 := by
  rw [cells, List.length_cons, List.length_map, List.length_range, rowCount_eq]

variable {t : Table}

theorem length_row {row : List String} (h : row ∈ t.cells) : row.length = t.columns.length := by
  rcases List.mem_cons.1 h with rfl | h
  · rw [header, List.length_map]
  · obtain ⟨k, -, rfl⟩ := List.mem_map.1 h
    rw [List.length_map]

theorem parsed_column (h : ∀ s ∈ t.statements, s.Parsed) {s : Statement} (hs : s ∈ t.columns) :
    s.Parsed := by
  rcases List.mem_append.1 hs with hs | hs
  · obtain ⟨v, -, rfl⟩ := List.mem_map.1 hs
    exact Statement.parsed_ofLetter v
  · exact h s hs

theorem newline_not_mem_cell (hparsed : ∀ s ∈ t.statements, s.Parsed)
    (hlabel : ∀ b, '\n' ∉ (t.labels.label b).toList) {row : List String} (hrow : row ∈ t.cells)
    {cell : String} (hcell : cell ∈ row) : '\n' ∉ cell.toList := by
  rcases List.mem_cons.1 hrow with rfl | hrow
  · obtain ⟨s, hs, rfl⟩ := List.mem_map.1 hcell
    exact Style.newline_not_mem_wrap
      (Style.newline_not_mem_tokens (parsed_column hparsed hs).derives.kind_ne_other)
  · obtain ⟨k, -, rfl⟩ := List.mem_map.1 hrow
    obtain ⟨s, -, rfl⟩ := List.mem_map.1 hcell
    exact Style.newline_not_mem_wrap (hlabel _)

end Table

end Propositional

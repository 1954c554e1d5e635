import Propositional.Proofs.Table.Aligned
import Propositional.Proofs.Table.Latex

/-!
# Rows counted down

To count the rows down reverses them and changes nothing else: the grid has the same headings and the
same rows in the opposite order, and of the text only the lines of the rows change their order
(`down_reverses_rows`). The lines themselves stay as they are because columns are as wide in every order of
the rows (`Layout.widths_eq_of_perm`).
-/

namespace Propositional

/-! ## Widths and lines in any order -/

theorem max?_eq_of_perm {xs ys : List Nat} (h : xs.Perm ys) : xs.max? = ys.max? := by
  refine Option.ext fun m => ?_
  simp only [List.max?_eq_some_iff, h.mem_iff]

namespace Layout

/-- How wide the columns are does not depend on the order of the rows under the first one. -/
theorem widths_eq_of_perm {rows rows' : List (List String)} (h : rows.Perm rows')
    (first : List String) : widths (first :: rows) = widths (first :: rows') := by
  refine List.map_congr_left fun j _ => ?_
  have hcolumn : (column (first :: rows) j).Perm (column (first :: rows') j) :=
    (h.cons first).filterMap (·[j]?)
  rw [max?_eq_of_perm (hcolumn.map String.length)]

/-- The lines with the separator between two of them, if there is one. -/
def spaced (l : Layout) (lines : List String) : List String :=
  match l.separator with
  | none => lines
  | some s => lines.intersperse s

theorem spaced_ne_nil {l : Layout} {lines : List String} (h : lines ≠ []) : l.spaced lines ≠ [] := by
  unfold spaced
  split
  · exact h
  · exact Text.intersperse_ne_nil h

theorem mem_spaced {l : Layout} {lines : List String} {x : String} (h : x ∈ l.spaced lines) :
    l.separator = some x ∨ x ∈ lines := by
  unfold spaced at h
  split at h
  · exact Or.inr h
  · next s hs =>
    rcases Text.mem_intersperse h with rfl | hx
    · exact Or.inl hs
    · exact Or.inr hx

end Layout

namespace Style

/-- The lines before the headings of a table with the given number of columns. -/
def prologue : Style → Nat → List String
  | human, _ => []
  | latex, columns => [Table.opening columns]

/-- The lines behind the last row of a table. -/
def epilogue : Style → List String
  | human => []
  | latex => [Table.closing]

/-- All lines of a table whose headings and rows have the given lines. -/
def frame (style : Style) (columns : Nat) (lines : List String) : List String :=
  style.prologue columns ++ style.layout.spaced lines ++ style.epilogue

theorem newline_not_mem_frame {style : Style} {columns : Nat} {lines : List String}
    (h : ∀ x ∈ lines, '\n' ∉ x.toList) : ∀ x ∈ style.frame columns lines, '\n' ∉ x.toList := by
  have hspaced : ∀ x ∈ style.layout.spaced lines, '\n' ∉ x.toList := by
    intro x hx
    rcases Layout.mem_spaced hx with hx | hx
    · cases style with
      | human => cases hx
      | latex =>
        obtain rfl := Option.some.inj hx
        decide
    · exact h x hx
  intro x hx
  rw [frame, List.mem_append, List.mem_append] at hx
  rcases hx with (hx | hx) | hx
  · cases style with
    | human => cases hx
    | latex =>
      rw [List.mem_singleton.1 hx]
      exact Table.newline_not_mem_opening columns
  · exact hspaced x hx
  · cases style with
    | human => cases hx
    | latex =>
      rw [List.mem_singleton.1 hx]
      decide

end Style

namespace Table

/-! ## The lines of a text -/

/-- The lines of the headings and the rows. -/
def rowLines (t : Table) : List String := t.cells.map (t.style.layout.line (Layout.widths t.cells))

theorem Exact.render_eq_frame {t : Table} (hexact : t.Exact)
    (hnarrow : t.style.layout.justify = true → Layout.Narrow t.cells) :
    t.render = .ok (some ("\n".intercalate (t.style.frame t.columns.length t.rowLines))) := by
  cases h : t.style with
  | human =>
    rw [h] at hnarrow
    rw [hexact.render_eq_layout h, Layout.render_eq_text hnarrow, Style.frame, rowLines, h]
    exact congrArg (fun lines => Except.ok (some ("\n".intercalate lines))) (List.append_nil _).symm
  | latex =>
    rw [hexact.render_eq_ok h, rowLines, h]
    rfl

/-- Split at line feeds, the text of a table gives its lines. -/
theorem exists_split_render {t : Table} (hparsed : ∀ s ∈ t.statements, s.Parsed)
    (hlabel : ∀ b, '\n' ∉ (t.labels.label b).toList)
    (hnarrow : t.style.layout.justify = true → Layout.Narrow t.cells) :
    ∃ text, t.render = .ok (some text) ∧
      Text.split "\n" text = t.style.frame t.columns.length t.rowLines := by
  have hsep : "\n".toList = [] ++ '\n' :: [] := by decide
  have hne : t.style.frame t.columns.length t.rowLines ≠ [] := by
    refine List.append_ne_nil_of_left_ne_nil (List.append_ne_nil_of_right_ne_nil _ ?_) _
    exact Layout.spaced_ne_nil (List.cons_ne_nil _ _)
  refine ⟨_, (exact_of_parsed hparsed).render_eq_frame hnarrow,
    Text.split_intercalate hsep List.not_mem_nil hne ?_⟩
  refine Style.newline_not_mem_frame fun x hx => ?_
  obtain ⟨row, hrow, rfl⟩ := List.mem_map.1 hx
  exact (lined_cells _ hparsed hlabel).newline_not_mem_line _ hrow

/-! ## Up and down -/

/-- The table with its rows counted up. -/
def up (t : Table) : Table := { t with reverse := false }

/-- The table with its rows counted down. -/
def down (t : Table) : Table := { t with reverse := true }

/-- The cells under the headings. -/
def rows (t : Table) : List (List String) :=
  (List.range t.rowCount).map fun k => t.columns.map (t.entry k)

theorem rows_down (t : Table) : t.down.rows = t.up.rows.reverse := by
  have hnumbers : (List.range t.rowCount).reverse =
      (List.range t.rowCount).map fun k => t.rowCount - 1 - k := by
    rw [List.range_eq_range', List.reverse_range', Nat.zero_add, List.range_eq_range']
  have hentry : ∀ k, t.down.columns.map (t.down.entry k) =
      t.up.columns.map (t.up.entry (t.rowCount - 1 - k)) := fun _ => rfl
  calc t.down.rows
      = (List.range t.rowCount).map fun k => t.up.columns.map (t.up.entry (t.rowCount - 1 - k)) :=
        List.map_congr_left fun k _ => hentry k
    _ = (List.range t.rowCount).reverse.map fun k => t.up.columns.map (t.up.entry k) := by
        rw [hnumbers, List.map_map]
        rfl
    _ = t.up.rows.reverse := List.map_reverse

/-- Counted down, a table has the rows that it has counted up in the opposite order, under the same
headings. In the text of statements that were read, with labels without line feeds and, where cells are filled
up, none that is too long, the same goes for the lines: columns are as wide, and the lines before the rows,
between two rows and behind them stay the same. -/
theorem down_reverses_rows (t : Table) (hexact : t.Exact) :
    ∃ headings rows, rows.length = 2 ^ t.letters.length ∧
      t.up.grid = .ok (headings :: rows) ∧ t.down.grid = .ok (headings :: rows.reverse) ∧
      ((∀ s ∈ t.statements, s.Parsed) → (∀ b, '\n' ∉ (t.labels.label b).toList) →
        (t.style.layout.justify = true → Layout.Narrow (headings :: rows)) →
        ∃ ws headline lines text text',
          ws = Layout.widths (headings :: rows) ∧ ws = Layout.widths (headings :: rows.reverse) ∧
          headline = t.style.layout.line ws headings ∧ lines = rows.map (t.style.layout.line ws) ∧
          t.up.render = .ok (some text) ∧
          Text.split "\n" text = t.style.frame t.columns.length (headline :: lines) ∧
          t.down.render = .ok (some text') ∧
          Text.split "\n" text' = t.style.frame t.columns.length (headline :: lines.reverse)) := by
  have hcells : t.down.cells = t.header :: t.up.rows.reverse := congrArg (t.header :: ·) t.rows_down
  have hwidths : Layout.widths t.up.cells = Layout.widths t.down.cells := by
    rw [hcells]
    exact Layout.widths_eq_of_perm (List.reverse_perm _).symm _
  have hup : t.up.Exact := hexact
  have hdown : t.down.Exact := hexact
  refine ⟨t.header, t.up.rows, ?_, hup.grid_eq_cells, hcells ▸ hdown.grid_eq_cells,
    fun hparsed hlabel hnarrow => ?_⟩
  · rw [rows, List.length_map, List.length_range, rowCount_eq]
    rfl
  have hnarrow' : t.style.layout.justify = true → Layout.Narrow t.down.cells := by
    intro hjustify row hrow
    refine hnarrow hjustify row ?_
    rwa [hcells, List.mem_cons, List.mem_reverse, ← List.mem_cons] at hrow
  obtain ⟨text, htext, hsplit⟩ := exists_split_render (t := t.up) hparsed hlabel hnarrow
  obtain ⟨text', htext', hsplit'⟩ := exists_split_render (t := t.down) hparsed hlabel hnarrow'
  refine ⟨_, _, _, text, text', rfl, hcells ▸ hwidths, rfl, rfl, htext, hsplit, htext', ?_⟩
  rw [hsplit', rowLines, ← hwidths, hcells, List.map_cons, List.map_reverse]
  rfl

/-- In the table for people cells are filled up, in the other they are not. -/
theorem down_reverses_rows_not :
    let s : Statement := .negation "not B" (.singleton ⟨1⟩) (.ofLetter ⟨1⟩)
    let t : Table := ⟨[s], .latex, ⟨"no", "yes & no"⟩, true⟩
    let u : Table := ⟨[s], .human, ⟨"no", "yes"⟩, false⟩
    t.Exact ∧ u.Exact ∧ (∀ s ∈ t.statements, s.Parsed) ∧ (∀ b, '\n' ∉ (t.labels.label b).toList) ∧
      (∀ b, '\n' ∉ (u.labels.label b).toList) ∧
      (∃ text text' x y z, t.up.render = .ok (some text) ∧ t.down.render = .ok (some text') ∧
        Text.split "\n" text = [opening 2, x, rule, y, rule, z, closing] ∧
        Text.split "\n" text' = [opening 2, x, rule, z, rule, y, closing]) ∧
      ∃ text text' x y z, u.up.render = .ok (some text) ∧ u.down.render = .ok (some text') ∧
        Text.split "\n" text = [x, y, z] ∧ Text.split "\n" text' = [x, z, y] := by
  intro s t u
  have hparsed : ∀ s ∈ t.statements, s.Parsed := by
    intro s hs
    rw [List.mem_singleton.1 hs]
    exact Or.inl ⟨["not", "B"], by decide +kernel⟩
  have hlabel : ∀ b, '\n' ∉ (t.labels.label b).toList := by decide
  have hlabel' : ∀ b, '\n' ∉ (u.labels.label b).toList := by decide
  have ht : t.Exact := exact_of_parsed hparsed
  have hu : u.Exact := ht
  refine ⟨ht, hu, hparsed, hlabel, hlabel', ?_, ?_⟩
  · obtain ⟨headings, rows, hlength, -, -, hlines⟩ := down_reverses_rows t ht
    obtain ⟨ws, x, lines, text, text', -, -, -, rfl, htext, hsplit, htext', hsplit'⟩ :=
      hlines hparsed hlabel nofun
    have hletters : t.letters.length = 1 := by decide
    have hcolumns : t.columns.length = 2 := by decide
    rw [hletters] at hlength
    rw [hcolumns] at hsplit hsplit'
    obtain ⟨r, r', rfl⟩ := List.length_eq_two.1 hlength
    exact ⟨text, text', x, _, _, htext, htext', hsplit, hsplit'⟩
  · obtain ⟨headings, rows, hlength, hgrid, -, hlines⟩ := down_reverses_rows u hu
    have hcells : u.up.grid = .ok [["B", "¬B"], ["no", "yes"], ["yes", "no"]] := by decide +kernel
    have hnarrow : Layout.Narrow [["B", "¬B"], ["no", "yes"], ["yes", "no"]] := by decide
    rw [← Except.ok.inj (hgrid.symm.trans hcells)] at hnarrow
    obtain ⟨ws, x, lines, text, text', -, -, -, rfl, htext, hsplit, htext', hsplit'⟩ :=
      hlines hparsed hlabel' fun _ => hnarrow
    have hletters : u.letters.length = 1 := by decide
    rw [hletters] at hlength
    obtain ⟨r, r', rfl⟩ := List.length_eq_two.1 hlength
    exact ⟨text, text', x, _, _, htext, htext', hsplit, hsplit'⟩

end Table

end Propositional

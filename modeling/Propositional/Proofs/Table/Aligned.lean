import Mathlib.Algebra.Ring.Nat
import Mathlib.Data.List.Basic
import Propositional.Proofs.Table.Cells
import Propositional.Proofs.Text.Split

/-!
# Aligned columns

A grid that is laid out with filled cells can be read by column: cell `j` of a row stands at the same
place of its line in all rows, behind the lead, the columns before it and as many delimiters
(`drop_line`), and takes up the width of its column (`render_aligned`). Rows that are shorter or longer
than the first one make no difference, as the widths are those of the columns of the first row. There is a
text if no cell is too long to give a column its width (`render_eq_text`).
-/

namespace Propositional

/-! ## Joined texts -/

namespace Text

variable (sep : String)

/-- What is left of a joined text behind its first pieces and their separators. -/
theorem drop_intercalate {xs : List String} {j : Nat} (h : j < xs.length) :
    (sep.intercalate xs).toList.drop (((xs.take j).map fun x => x.length + sep.length).sum) =
      (sep.intercalate (xs.drop j)).toList := by
  induction xs generalizing j with
  | nil => exact absurd h (Nat.not_lt_zero j)
  | cons x xs ih =>
    cases j with
    | zero => rfl
    | succ j =>
      have hj : j < xs.length := Nat.lt_of_succ_lt_succ h
      have hne : xs ≠ [] := List.ne_nil_of_length_pos (Nat.zero_lt_of_lt hj)
      have hfirst : (x ++ sep).toList.length = x.length + sep.length := by
        rw [String.length_toList, String.length_append]
      rw [String.intercalate_cons_of_ne_nil hne, String.toList_append, List.take_succ_cons,
        List.map_cons, List.sum_cons, ← hfirst, ← List.drop_drop, List.drop_left, ih hj,
        List.drop_succ_cons]

theorem take_intercalate (x : String) (xs : List String) :
    (sep.intercalate (x :: xs)).toList.take x.length = x.toList := by
  cases xs with
  | nil => rw [String.intercalate_singleton, ← String.length_toList, List.take_length]
  | cons y ys =>
    rw [String.intercalate_cons_cons, String.append_assoc, String.toList_append,
      ← String.length_toList, List.take_left]

theorem length_intercalate (xs : List String) : (sep.intercalate xs).length =
    (xs.map String.length).sum + (xs.length - 1) * sep.length := by
  induction xs with
  | nil => simp
  | cons x xs ih =>
    cases xs with
    | nil => simp
    | cons y ys =>
      rw [String.intercalate_cons_cons, String.length_append, String.length_append, ih]
      simp only [List.map_cons, List.sum_cons, List.length_cons, Nat.add_sub_cancel, Nat.add_mul]
      omega

end Text

namespace Layout

variable {l : Layout} {grid : List (List String)} {row : List String} {ws : List Nat}

/-! ## Widths -/

/-- The number is the length of a longest cell of column `j`, over the rows that have it. -/
structure IsWidth (grid : List (List String)) (j w : Nat) : Prop where
  attained : ∃ row ∈ grid, ∃ cell : String, row[j]? = some cell ∧ cell.length = w
  le : ∀ row ∈ grid, ∀ cell : String, row[j]? = some cell → cell.length ≤ w

/-- No cell of the row is wider than its column. -/
def Fits (ws : List Nat) (row : List String) : Prop :=
  ∀ (j w : Nat) (cell : String), ws[j]? = some w → row[j]? = some cell → cell.length ≤ w

theorem mem_column {j : Nat} {cell : String} :
    cell ∈ column grid j ↔ ∃ row ∈ grid, row[j]? = some cell :=
  List.mem_filterMap

theorem length_widths (grid : List (List String)) :
    (widths grid).length = grid.head?.elim 0 List.length := by
  rw [widths, List.length_map, List.length_range]

theorem column_ne_nil {j : Nat} (h : j < grid.head?.elim 0 List.length) : column grid j ≠ [] := by
  cases grid with
  | nil => exact absurd h (Nat.not_lt_zero j)
  | cons first rows =>
    have hcell : first[j] ∈ column (first :: rows) j :=
      mem_column.2 ⟨first, List.mem_cons_self, List.getElem?_eq_getElem h⟩
    exact List.ne_nil_of_mem hcell

theorem max?_of_getElem?_widths {j w : Nat} (h : (widths grid)[j]? = some w) :
    ((column grid j).map String.length).max? = some w := by
  have hj : j < grid.head?.elim 0 List.length :=
    length_widths grid ▸ (List.getElem?_eq_some_iff.1 h).1
  have hne : (column grid j).map String.length ≠ [] := by
    rw [ne_eq, List.map_eq_nil_iff]
    exact column_ne_nil hj
  obtain ⟨m, hm⟩ := Option.isSome_iff_exists.1 (List.isSome_max?_of_ne_nil hne)
  rw [widths, List.getElem?_map, List.getElem?_range hj, Option.map_some, hm, Option.getD_some,
    Option.some.injEq] at h
  rw [hm, h]

theorem isWidth_of_getElem? {j w : Nat} (h : (widths grid)[j]? = some w) : IsWidth grid j w := by
  obtain ⟨hmem, hle⟩ := List.max?_eq_some_iff.1 (max?_of_getElem?_widths h)
  constructor
  · obtain ⟨cell, hcell, hlength⟩ := List.mem_map.1 hmem
    obtain ⟨row, hrow, hget⟩ := mem_column.1 hcell
    exact ⟨row, hrow, cell, hget, hlength⟩
  · intro row hrow cell hget
    exact hle _ (List.mem_map.2 ⟨cell, mem_column.2 ⟨row, hrow, hget⟩, rfl⟩)

/-- No cell is longer than a column may be wide. -/
def Narrow (grid : List (List String)) : Prop := ∀ row ∈ grid, ∀ cell ∈ row, cell.length ≤ 65535

instance : DecidablePred Narrow := fun grid =>
  inferInstanceAs (Decidable (∀ row ∈ grid, ∀ cell ∈ row, cell.length ≤ 65535))

theorem fillable_of_narrow (h : l.justify = true → Narrow grid) : l.fillable grid = true := by
  rw [fillable, Bool.or_eq_true, Bool.not_eq_true', List.all_eq_true]
  cases hjustify : l.justify with
  | false => exact Or.inl rfl
  | true =>
    refine Or.inr fun w hw => decide_eq_true ?_
    obtain ⟨j, hj⟩ := List.getElem?_of_mem hw
    -- the width is the length of some cell
    obtain ⟨row, hrow, cell, hcell, rfl⟩ := (isWidth_of_getElem? hj).attained
    exact h hjustify row hrow cell (List.mem_of_getElem? hcell)

theorem render_eq_text (h : l.justify = true → Narrow grid) : l.render grid = some (l.text grid) :=
  if_pos (fillable_of_narrow h)

theorem fits_widths (h : row ∈ grid) : Fits (widths grid) row :=
  fun _ _ cell hw hcell => (isWidth_of_getElem? hw).le row h cell hcell

theorem Fits.tail {w : Nat} {cell : String} (h : Fits (w :: ws) (cell :: row)) : Fits ws row :=
  fun j => h (j + 1)

/-! ## Filled cells -/

theorem toList_pad (w : Nat) (cell : String) :
    (pad w cell).toList = cell.toList ++ List.replicate (w - cell.length) ' ' := by
  rw [pad, String.toList_append, String.toList_ofList]

theorem length_pad {w : Nat} {cell : String} (h : cell.length ≤ w) : (pad w cell).length = w := by
  rw [← String.length_toList, toList_pad, List.length_append, List.length_replicate,
    String.length_toList, Nat.add_sub_cancel' h]

theorem forall_mem_padAll {P : String → Prop} (hpad : ∀ w cell, P cell → P (pad w cell))
    (h : ∀ cell ∈ row, P cell) : ∀ cell ∈ padAll ws row, P cell := by
  induction ws, row using padAll.induct with
  | case1 w ws cell row ih =>
    rw [padAll, List.forall_mem_cons]
    rw [List.forall_mem_cons] at h
    exact ⟨hpad w cell h.1, ih h.2⟩
  | case2 ws row hnot =>
    rwa [padAll.eq_2 _ _ hnot]

theorem padAll_nil (ws : List Nat) : padAll ws [] = [] := by
  cases ws <;> rfl

theorem drop_padAll (j : Nat) (ws : List Nat) (row : List String) :
    (padAll ws row).drop j = padAll (ws.drop j) (row.drop j) := by
  induction j generalizing ws row with
  | zero => rfl
  | succ j ih =>
    cases ws with
    | nil => cases row <;> rfl
    | cons w ws =>
      cases row with
      | nil => rw [padAll_nil, List.drop_nil, padAll_nil]
      | cons cell row => exact ih ws row

theorem length_padAll (ws : List Nat) (row : List String) : (padAll ws row).length = row.length := by
  induction ws, row using padAll.induct with
  | case1 w ws cell row ih => rw [padAll, List.length_cons, ih, List.length_cons]
  | case2 ws row hnot => rw [padAll.eq_2 _ _ hnot]

/-- Filled cells are as wide as their columns. -/
theorem map_length_take_padAll (h : Fits ws row) {j : Nat} (hws : j ≤ ws.length)
    (hrow : j ≤ row.length) : ((padAll ws row).take j).map String.length = ws.take j := by
  induction j generalizing ws row with
  | zero => rfl
  | succ j ih =>
    cases ws with
    | nil => cases hws
    | cons w ws =>
      cases row with
      | nil => cases hrow
      | cons cell row =>
        rw [padAll, List.take_succ_cons, List.map_cons, List.take_succ_cons,
          length_pad (h 0 w cell rfl rfl),
          ih h.tail (Nat.le_of_succ_le_succ hws) (Nat.le_of_succ_le_succ hrow)]

/-! ## Lines of rows -/

/-- Where the cell of column `j` begins in a line: behind the lead, and behind the columns before it, each
with a delimiter. -/
def offset (l : Layout) (ws : List Nat) (j : Nat) : Nat :=
  l.lead.length + ((ws.take j).map fun w => w + l.delimiter.length).sum

/-- The line of a row in columns of the given widths. A cell is at the beginning of its column, with
nothing but spaces behind it; the cells that have no column stand as they are behind the others. A row with
a cell for each column fills all of them. -/
structure IsLine (l : Layout) (ws : List Nat) (row : List String) (line : String) : Prop where
  cell : ∀ (j w : Nat) (cell : String), ws[j]? = some w → row[j]? = some cell → cell.length ≤ w ∧
    (line.toList.drop (l.offset ws j)).take w =
      cell.toList ++ List.replicate (w - cell.length) ' '
  beyond : ws.length < row.length →
    line.toList.drop (l.offset ws ws.length) =
      (l.delimiter.intercalate (row.drop ws.length)).toList
  length_eq : row.length = ws.length →
    line.length = l.lead.length + (ws.sum + (ws.length - 1) * l.delimiter.length)

/-- A line goes on with the filled cells from column `j`. -/
theorem drop_line (hjustify : l.justify = true) (h : Fits ws row) {j : Nat} (hws : j ≤ ws.length)
    (hrow : j < row.length) : (l.line ws row).toList.drop (l.offset ws j) =
      (l.delimiter.intercalate (padAll (ws.drop j) (row.drop j))).toList := by
  have hcolumns : (ws.take j).map (fun w => w + l.delimiter.length) =
      ((padAll ws row).take j).map fun cell => cell.length + l.delimiter.length := by
    rw [← map_length_take_padAll h hws (Nat.le_of_lt hrow), List.map_map]
    rfl
  have hlength : j < (padAll ws row).length := by rwa [length_padAll]
  rw [line, if_pos hjustify, offset, hcolumns, String.toList_append, ← String.length_toList,
    ← List.drop_drop, List.drop_left, Text.drop_intercalate _ hlength, drop_padAll]

theorem isLine_line (hjustify : l.justify = true) (h : Fits ws row) :
    l.IsLine ws row (l.line ws row) where
  cell j w cell hw hcell := by
    obtain ⟨hws, rfl⟩ := List.getElem?_eq_some_iff.1 hw
    obtain ⟨hrow, rfl⟩ := List.getElem?_eq_some_iff.1 hcell
    have hfits : row[j].length ≤ ws[j] := h j _ _ hw hcell
    refine ⟨hfits, ?_⟩
    have htake := Text.take_intercalate l.delimiter (pad ws[j] row[j])
      (padAll (ws.drop (j + 1)) (row.drop (j + 1)))
    rw [length_pad hfits, toList_pad] at htake
    rw [drop_line hjustify h (Nat.le_of_lt hws) hrow, List.drop_eq_getElem_cons hws,
      List.drop_eq_getElem_cons hrow, padAll, htake]
  beyond hlt := by
    -- no widths are left for the cells from here on
    rw [drop_line hjustify h le_rfl hlt, List.drop_length]
    rfl
  length_eq hlength := by
    have hwidths : (padAll ws row).map String.length = ws := by
      have htake := map_length_take_padAll h (Nat.le_of_eq hlength) le_rfl
      rwa [← length_padAll ws row, List.take_length, length_padAll, hlength, List.take_length]
        at htake
    rw [line, if_pos hjustify, String.length_append, Text.length_intercalate, hwidths,
      length_padAll, hlength]

/-! ## Lines of grids -/

/-- Nothing that is laid out holds a line feed. -/
structure Lined (l : Layout) (grid : List (List String)) : Prop where
  delimiter : '\n' ∉ l.delimiter.toList
  lead : '\n' ∉ l.lead.toList
  separator : ∀ s ∈ l.separator, '\n' ∉ s.toList
  cell : ∀ row ∈ grid, ∀ cell ∈ row, '\n' ∉ cell.toList

theorem newline_not_mem_pad (w : Nat) (cell : String) (h : '\n' ∉ cell.toList) :
    '\n' ∉ (pad w cell).toList := by
  rw [toList_pad]
  refine List.not_mem_append h fun hmem => ?_
  exact absurd (List.eq_of_mem_replicate hmem) (by decide)

theorem Lined.newline_not_mem_line (h : l.Lined grid) (ws : List Nat) (hrow : row ∈ grid) :
    '\n' ∉ (l.line ws row).toList := by
  rw [line, String.toList_append]
  refine List.not_mem_append h.lead (Text.not_mem_intercalate h.delimiter ?_)
  split
  · exact forall_mem_padAll newline_not_mem_pad (h.cell row hrow)
  · exact h.cell row hrow

/-- The lines of a grid with the separator between two of them, if there is one. -/
theorem Lined.split_text (h : l.Lined grid) (hne : grid ≠ []) :
    Text.split "\n" (l.text grid) =
      l.separator.elim (grid.map (l.line (widths grid)))
        fun s => (grid.map (l.line (widths grid))).intersperse s := by
  have hsep : "\n".toList = [] ++ '\n' :: [] := by decide
  have hlines : ∀ x ∈ grid.map (l.line (widths grid)), '\n' ∉ x.toList := by
    intro x hx
    obtain ⟨row, hrow, rfl⟩ := List.mem_map.1 hx
    exact h.newline_not_mem_line _ hrow
  have hmap : grid.map (l.line (widths grid)) ≠ [] := by rwa [ne_eq, List.map_eq_nil_iff]
  cases hs : l.separator with
  | none =>
    have hbetween : l.between = "\n" := by rw [between, hs]
    rw [text, hbetween]
    exact Text.split_intercalate hsep List.not_mem_nil hmap hlines
  | some s =>
    have hbetween : l.between = "\n" ++ s ++ "\n" := by rw [between, hs]
    rw [text, hbetween, Text.intercalate_intersperse]
    refine Text.split_intercalate hsep List.not_mem_nil (Text.intersperse_ne_nil hmap) fun x hx => ?_
    rcases Text.mem_intersperse hx with rfl | hx
    · exact h.separator _ hs
    · exact hlines x hx

/-- The text shows the grid in columns. Split at line feeds it gives a line for each row, with the separator
between two of them and nowhere else; columns are as wide as their longest cells, and each line is that of
its row. If all rows are equally long, then so are their lines. -/
structure Aligned (l : Layout) (text : String) (grid : List (List String)) (lines : List String) :
    Prop where
  split_eq : Text.split "\n" text = l.separator.elim lines fun s => lines.intersperse s
  length_eq : lines.length = grid.length
  columns_eq : (widths grid).length = grid.head?.elim 0 List.length
  width : ∀ j w, (widths grid)[j]? = some w → IsWidth grid j w
  isLine : ∀ (k : Nat) (row : List String) (line : String), grid[k]? = some row →
    lines[k]? = some line → l.IsLine (widths grid) row line
  rectangular : (∀ r ∈ grid, ∀ r' ∈ grid, r.length = r'.length) →
    ∀ x ∈ lines, ∀ y ∈ lines, x.length = y.length

/-- In a grid of equally long rows every row has a cell for each column. -/
theorem length_eq_length_widths (hrows : ∀ r ∈ grid, ∀ r' ∈ grid, r.length = r'.length)
    (hrow : row ∈ grid) : row.length = (widths grid).length := by
  cases grid with
  | nil => cases hrow
  | cons first rows =>
    rw [length_widths]
    exact hrows row hrow first List.mem_cons_self

theorem aligned_text (hjustify : l.justify = true) (h : l.Lined grid) (hne : grid ≠ []) :
    l.Aligned (l.text grid) grid (grid.map (l.line (widths grid))) where
  split_eq := h.split_text hne
  length_eq := List.length_map _
  columns_eq := length_widths grid
  width _ _ := isWidth_of_getElem?
  isLine k row line hrow hline := by
    rw [List.getElem?_map, hrow, Option.map_some, Option.some.injEq] at hline
    exact hline ▸ isLine_line hjustify (fits_widths (List.mem_of_getElem? hrow))
  rectangular hrows x hx y hy := by
    obtain ⟨r, hr, rfl⟩ := List.mem_map.1 hx
    obtain ⟨r', hr', rfl⟩ := List.mem_map.1 hy
    rw [(isLine_line hjustify (fits_widths hr)).length_eq (length_eq_length_widths hrows hr),
      (isLine_line hjustify (fits_widths hr')).length_eq (length_eq_length_widths hrows hr')]

end Layout

namespace Table

variable {t : Table}

theorem lined_cells (style : Style) (hparsed : ∀ s ∈ t.statements, s.Parsed)
    (hlabel : ∀ b, '\n' ∉ (t.labels.label b).toList) : style.layout.Lined t.cells where
  delimiter := by cases style <;> decide
  lead := by cases style <;> decide
  separator := by cases style <;> decide
  cell _ hrow _ hcell := newline_not_mem_cell hparsed hlabel hrow hcell

theorem Exact.render_eq_layout (hexact : t.Exact) (h : t.style = .human) :
    t.render = .ok (Style.human.layout.render t.cells) := by
  have henclose : enclose .human t.cells = Style.human.layout.render t.cells := Option.map_id'
  rw [render, hexact.grid_eq_cells, h, ← henclose]
  rfl

end Table

/-- A grid without line feeds is aligned when its cells are filled up, if none of them is too long. So is every
table for people, if it is of statements that were read and its labels are without line feeds; its lines are
equally long. -/
theorem render_aligned :
    (∀ (l : Layout) (grid : List (List String)), l.justify = true → l.Lined grid → Layout.Narrow grid →
      grid ≠ [] → ∃ text lines, l.render grid = some text ∧ l.Aligned text grid lines) ∧
    ∀ t : Table, t.style = .human → (∀ s ∈ t.statements, s.Parsed) →
      (∀ b, '\n' ∉ (t.labels.label b).toList) →
      ∃ cells, t.grid = .ok cells ∧ (Layout.Narrow cells →
        ∃ text lines, t.render = .ok (some text) ∧ Style.human.layout.Aligned text cells lines ∧
          Text.split "\n" text = lines ∧ ∀ x ∈ lines, ∀ y ∈ lines, x.length = y.length) := by
  constructor
  · intro l grid hjustify h hnarrow hne
    exact ⟨_, _, Layout.render_eq_text fun _ => hnarrow, Layout.aligned_text hjustify h hne⟩
  · intro t hstyle hparsed hlabel
    have hexact : t.Exact := Table.exact_of_parsed hparsed
    refine ⟨t.cells, hexact.grid_eq_cells, fun hnarrow => ?_⟩
    have hrender : t.render = .ok (some (Style.human.layout.text t.cells)) := by
      rw [hexact.render_eq_layout hstyle, Layout.render_eq_text fun _ => hnarrow]
    have haligned := Layout.aligned_text rfl (Table.lined_cells .human hparsed hlabel)
      (List.cons_ne_nil _ _)
    refine ⟨_, _, hrender, haligned, haligned.split_eq, haligned.rectangular fun r hr r' hr' => ?_⟩
    rw [Table.length_row hr, Table.length_row hr']

/-- A row may be shorter than the first one or longer, and a column is counted in characters. -/
theorem render_aligned_ragged :
    let l : Layout := ⟨" | ", "> ", some "--", true⟩
    let grid : List (List String) := [["é", "bc"], ["€uro"], ["x", "y", "zz z"]]
    let t : Table := ⟨[.ofLetter ⟨0⟩], .human, ⟨"no", "☑"⟩, false⟩
    l.justify = true ∧ l.Lined grid ∧ Layout.Narrow grid ∧ grid ≠ [] ∧
      (∃ text x y z, l.render grid = some text ∧ Text.split "\n" text = [x, "--", y, "--", z] ∧
        (z.toList.drop 2).take 4 = "x   ".toList ∧ (z.toList.drop 9).take 2 = "y ".toList ∧
        z.toList.drop 14 = "zz z".toList) ∧
      t.style = .human ∧ (∀ s ∈ t.statements, s.Parsed) ∧
      (∀ b, '\n' ∉ (t.labels.label b).toList) ∧
      ∃ cells text, t.grid = .ok cells ∧ Layout.Narrow cells ∧ t.render = .ok (some text) ∧
        ∀ x ∈ Text.split "\n" text, ∀ y ∈ Text.split "\n" text, x.length = y.length := by
  intro l grid t
  have hlined : l.Lined grid := ⟨by decide, by decide, by decide, by decide⟩
  have hnarrow : Layout.Narrow grid := by decide
  have hparsed : ∀ s ∈ t.statements, s.Parsed := by
    intro s hs
    rw [List.mem_singleton.1 hs]
    exact Or.inr ⟨" A", by decide +kernel⟩
  have hlabel : ∀ b, '\n' ∉ (t.labels.label b).toList := by decide
  refine ⟨rfl, hlined, hnarrow, List.cons_ne_nil _ _, ?_, rfl, hparsed, hlabel, ?_⟩
  · obtain ⟨text, lines, hrender, haligned⟩ :=
      render_aligned.1 l grid rfl hlined hnarrow (List.cons_ne_nil _ _)
    obtain ⟨x, y, z, rfl⟩ := List.length_eq_three.1 haligned.length_eq
    have hwidths : Layout.widths grid = [4, 2] := by decide +kernel
    have hoffsets : l.offset [4, 2] 0 = 2 ∧ l.offset [4, 2] 1 = 9 ∧ l.offset [4, 2] 2 = 14 := by
      decide +kernel
    have hline := haligned.isLine 2 _ z rfl rfl
    rw [hwidths] at hline
    have hfirst := (hline.cell 0 4 "x" rfl rfl).2
    have hsecond := (hline.cell 1 2 "y" rfl rfl).2
    have hthird := hline.beyond (by decide)
    rw [hoffsets.1] at hfirst
    rw [hoffsets.2.1] at hsecond
    rw [List.length_cons, List.length_singleton, hoffsets.2.2] at hthird
    exact ⟨text, x, y, z, hrender, haligned.split_eq, hfirst.trans (by decide +kernel),
      hsecond.trans (by decide +kernel), hthird.trans (by decide +kernel)⟩
  · obtain ⟨cells, hgrid, htext⟩ := render_aligned.2 t rfl hparsed hlabel
    have hcells : t.grid = .ok [["A", "A"], ["no", "no"], ["☑", "☑"]] := by decide +kernel
    obtain rfl := Except.ok.inj (hcells.symm.trans hgrid)
    have hnarrow' : Layout.Narrow [["A", "A"], ["no", "no"], ["☑", "☑"]] := by decide
    obtain ⟨text, lines, hrender, -, rfl, hlengths⟩ := htext hnarrow'
    exact ⟨_, text, hgrid, hnarrow', hrender, hlengths⟩

end Propositional

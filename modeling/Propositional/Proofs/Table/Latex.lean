import Propositional.Proofs.Table.Cells
import Propositional.Proofs.Text.Split

/-!
# LaTeX tables

The text of a LaTeX table can be taken apart again. Its lines are the first and the last line of the
environment and between these the rows, with a rule between two of them; and the cells of a row are
what stands between its delimiters (`latex_decodes`). No cell of a table of statements that were read
holds an `&` or a line feed unless a label does, because a heading is made of tokens that mean
something.
-/

namespace Propositional

open Token

/-- The text holds nothing that a LaTeX table takes apart. -/
def Text.Plain (s : String) : Prop := '&' ∉ s.toList ∧ '\n' ∉ s.toList

instance (s : String) : Decidable (Text.Plain s) :=
  inferInstanceAs (Decidable ('&' ∉ s.toList ∧ '\n' ∉ s.toList))

/-! ## Plain cells -/

namespace Style

theorem ampersand_not_mem_latex_token {t : Token} (h : kind t ≠ .other) :
    '&' ∉ (latex.token t).toList := by
  refine of_kind_ne_other (P := fun t => '&' ∉ (latex.token t).toList) h (by decide) (by decide)
    (fun v hmem => ?_) (by decide)
  rw [token_name] at hmem
  have hbounds := toNat_bounds_of_mem_name hmem
  revert hbounds
  decide

theorem plain_latex_tokens {ts : List Token} (h : ∀ t ∈ ts, kind t ≠ .other) :
    Text.Plain (latex.tokens ts) :=
  ⟨not_mem_tokens (by decide) fun t ht => ampersand_not_mem_latex_token (h t ht),
    newline_not_mem_tokens h⟩

theorem plain_wrap {style : Style} {cell : String} (h : Text.Plain cell) :
    Text.Plain (style.wrap cell) := by
  cases style with
  | human => exact h
  | latex => simpa [wrap, Text.Plain] using h

end Style

namespace Table

/-! ## Lines -/

/-- The line of a row of cells in a LaTeX table. -/
def latexLine (row : List String) : String := "    " ++ " & ".intercalate row

/-- The line between two rows of a LaTeX table. -/
def rule : String := "     \\\\ \\hline"

/-- The lines of a LaTeX table between its first and its last. -/
def body (t : Table) : List String := (t.cells.map latexLine).intersperse rule

/-- The lines of a LaTeX table, without the line feeds between them. -/
def lines (t : Table) : List String := opening t.columns.length :: (t.body ++ [closing])

theorem length_body (t : Table) : t.body.length = 2 * 2 ^ t.letters.length + 1 := by
  rw [body, List.length_intersperse, List.length_map, length_cells]
  omega

theorem body_ne_nil (t : Table) : t.body ≠ [] := by
  rw [← List.length_pos_iff, length_body]
  exact Nat.succ_pos _

theorem Exact.render_eq_ok {t : Table} (hexact : t.Exact) (h : t.style = .latex) :
    t.render = .ok (some ("\n".intercalate t.lines)) := by
  have hbody : Style.latex.layout.render t.cells = some ("\n".intercalate t.body) :=
    congrArg some (Text.intercalate_intersperse "\n" rule _)
  have hcolumns : t.cells.head?.elim 0 List.length = t.columns.length :=
    length_row List.mem_cons_self
  have henclose : enclose .latex t.cells =
      some (opening t.columns.length ++ "\n" ++ "\n".intercalate t.body ++ "\n" ++ closing) := by
    rw [enclose, hbody, hcolumns]
    rfl
  have hlines : "\n".intercalate t.lines =
      opening t.columns.length ++ "\n" ++ "\n".intercalate t.body ++ "\n" ++ closing := by
    rw [lines, String.intercalate_cons_of_ne_nil (List.append_ne_nil_of_right_ne_nil _ (by simp)),
      String.intercalate_append_of_ne_nil t.body_ne_nil (by simp), String.intercalate_singleton]
    simp only [String.append_assoc]
  rw [render, hexact.grid_eq_cells, h, hlines, ← henclose]
  rfl

theorem newline_not_mem_opening (n : Nat) : '\n' ∉ (opening n).toList := by
  have hopening : opening n = "\\begin\x7btabular\x7d\x7b " ++
      "|".intercalate (List.replicate n "c") ++ " \x7d" := rfl
  have hcolumns : '\n' ∉ ("|".intercalate (List.replicate n "c")).toList := by
    refine Text.not_mem_intercalate (by decide) fun c hc => ?_
    rw [List.eq_of_mem_replicate hc]
    decide
  rw [hopening, String.toList_append, String.toList_append]
  exact List.not_mem_append (List.not_mem_append (by decide) hcolumns) (by decide)

/-! ## Decoding -/

/-- The lines are the lines of rows of cells, with a rule between two rows: a row of cells is its line
split at the delimiters. -/
structure Decodes (lines : List String) (cells : List (List String)) : Prop where
  length_eq : lines.length + 1 = 2 * cells.length
  row : ∀ k row, cells[k]? = some row →
    ∃ line, lines[2 * k]? = some ("    " ++ line) ∧ Text.split " & " line = row
  rule : ∀ k, k + 1 < cells.length → lines[2 * k + 1]? = some "     \\\\ \\hline"

/-- Lines are decoded in one way only. -/
theorem Decodes.unique {lines : List String} {cells cells' : List (List String)}
    (h : Decodes lines cells) (h' : Decodes lines cells') : cells = cells' := by
  have hlength : cells.length = cells'.length := by
    have := h.length_eq
    have := h'.length_eq
    omega
  refine List.ext_getElem hlength fun k hk hk' => ?_
  obtain ⟨line, hline, hrow⟩ := h.row k _ (List.getElem?_eq_getElem hk)
  obtain ⟨line', hline', hrow'⟩ := h'.row k _ (List.getElem?_eq_getElem hk')
  have heq : "    " ++ line = "    " ++ line' := Option.some.inj (hline.symm.trans hline')
  rw [← hrow, ← hrow', (String.append_right_inj _).1 heq]

/-- A LaTeX table that can be taken apart: of statements that were read, at least one, and with plain
labels. -/
structure Typeset (t : Table) : Prop where
  style_eq : t.style = .latex
  statements_ne_nil : t.statements ≠ []
  parsed : ∀ s ∈ t.statements, s.Parsed
  plain_label : ∀ b, Text.Plain (t.labels.label b)

namespace Typeset

variable {t : Table}

theorem exact (h : t.Typeset) : t.Exact := exact_of_parsed h.parsed

theorem columns_ne_nil (h : t.Typeset) : t.columns ≠ [] := by
  rw [columns]
  exact List.append_ne_nil_of_right_ne_nil _ h.statements_ne_nil

theorem plain_cell (h : t.Typeset) {row : List String} {cell : String} (hrow : row ∈ t.cells)
    (hcell : cell ∈ row) : Text.Plain cell := by
  rcases List.mem_cons.1 hrow with rfl | hrow
  · obtain ⟨s, hs, rfl⟩ := List.mem_map.1 hcell
    rw [h.style_eq]
    exact Style.plain_wrap (Style.plain_latex_tokens (parsed_column h.parsed hs).derives.kind_ne_other)
  · obtain ⟨k, -, rfl⟩ := List.mem_map.1 hrow
    obtain ⟨s, -, rfl⟩ := List.mem_map.1 hcell
    exact Style.plain_wrap (h.plain_label _)

theorem row_ne_nil (h : t.Typeset) {row : List String} (hrow : row ∈ t.cells) : row ≠ [] := by
  rw [← List.length_pos_iff, length_row hrow, List.length_pos_iff]
  exact h.columns_ne_nil

/-- The delimiters of a line are the only places where it has an `&`. -/
theorem split_row (h : t.Typeset) {row : List String} (hrow : row ∈ t.cells) :
    Text.split " & " (" & ".intercalate row) = row := by
  have hsep : " & ".toList = [' '] ++ '&' :: [' '] := by decide
  exact Text.split_intercalate hsep (by decide) (h.row_ne_nil hrow) fun _ hcell =>
    (h.plain_cell hrow hcell).1

theorem newline_not_mem_latexLine (h : t.Typeset) {row : List String} (hrow : row ∈ t.cells) :
    '\n' ∉ (latexLine row).toList := by
  rw [latexLine, String.toList_append]
  exact List.not_mem_append (by decide) (Text.not_mem_intercalate (by decide) fun _ hcell =>
    (h.plain_cell hrow hcell).2)

theorem newline_not_mem_lines (h : t.Typeset) {line : String} (hline : line ∈ t.lines) :
    '\n' ∉ line.toList := by
  rcases List.mem_cons.1 hline with rfl | hline
  · exact newline_not_mem_opening _
  · rcases List.mem_append.1 hline with hbody | hlast
    · rcases Text.mem_intersperse hbody with rfl | hmem
      · decide
      · obtain ⟨row, hrow, rfl⟩ := List.mem_map.1 hmem
        exact h.newline_not_mem_latexLine hrow
    · rw [List.mem_singleton.1 hlast]
      decide

/-- No line of the table holds a line feed. -/
theorem split_lines (h : t.Typeset) :
    Text.split "\n" ("\n".intercalate t.lines) = t.lines := by
  have hsep : "\n".toList = [] ++ '\n' :: [] := by decide
  exact Text.split_intercalate hsep List.not_mem_nil (List.cons_ne_nil _ _) fun _ =>
    h.newline_not_mem_lines

theorem decodes_body (h : t.Typeset) : Decodes t.body t.cells where
  length_eq := by
    rw [length_body, length_cells]
    omega
  row k row hrow := by
    refine ⟨" & ".intercalate row, ?_, h.split_row (List.mem_of_getElem? hrow)⟩
    rw [body, List.getElem?_intersperse_two_mul, List.getElem?_map, hrow]
    rfl
  rule k hk := by
    rw [body, List.getElem?_intersperse_two_mul_add_one (by rwa [List.length_map])]
    rfl

/-- Two tables with the same text have the same cells: the lines between the first and the last are
the same, and these are decoded in one way only. -/
theorem cells_eq_of_render_eq {u : Table} (ht : t.Typeset) (hu : u.Typeset)
    (h : t.render = u.render) : t.cells = u.cells := by
  rw [ht.exact.render_eq_ok ht.style_eq, hu.exact.render_eq_ok hu.style_eq, Except.ok.injEq,
    Option.some.injEq] at h
  have hlines : t.lines = u.lines := by
    rw [← ht.split_lines, ← hu.split_lines, h]
  have hbody : t.body = u.body := List.append_cancel_right (List.cons.inj hlines).2
  exact ht.decodes_body.unique (hbody ▸ hu.decodes_body)

end Typeset

/-- The text of a LaTeX table decodes to its cells. -/
theorem latex_decodes {t : Table} (h : t.Typeset) :
    ∃ cells text body, t.grid = .ok cells ∧ t.render = .ok (some text) ∧
      cells.length = 2 ^ t.letters.length + 1 ∧
      (∀ row ∈ cells, row.length = t.columns.length) ∧
      Text.split "\n" text =
        ("\\begin\x7btabular\x7d\x7b " ++ "|".intercalate (List.replicate t.columns.length "c") ++
          " \x7d") :: (body ++ ["\\end\x7btabular\x7d"]) ∧
      body.length = 2 * 2 ^ t.letters.length + 1 ∧ Decodes body cells ∧
      ∀ u : Table, u.Typeset → u.render = t.render → u.grid = t.grid := by
  refine ⟨t.cells, _, t.body, h.exact.grid_eq_cells, h.exact.render_eq_ok h.style_eq, t.length_cells,
    fun _ => length_row, h.split_lines, t.length_body, h.decodes_body, fun u hu heq => ?_⟩
  rw [hu.exact.grid_eq_cells, h.exact.grid_eq_cells, hu.cells_eq_of_render_eq h heq]

/-- A label may be empty or hold blanks and delimiters of mathematics. -/
theorem latex_decodes_not_or_and :
    let s : Statement := .binary "not C or ( A )" (.ofList [⟨0⟩, ⟨2⟩]) .or
      (.negation "not C" (.singleton ⟨2⟩) (.ofLetter ⟨2⟩)) (.ofLetter ⟨0⟩)
    let u : Statement := .binary "B and A" (.ofList [⟨0⟩, ⟨1⟩]) .and (.ofLetter ⟨1⟩) (.ofLetter ⟨0⟩)
    let t : Table := ⟨[s, u], .latex, ⟨" $ ", ""⟩, true⟩
    t.Typeset ∧
      ∃ cells text body, t.grid = .ok cells ∧ t.render = .ok (some text) ∧ cells.length = 9 ∧
        Text.split "\n" text = "\\begin\x7btabular\x7d\x7b c|c|c|c|c \x7d" ::
          (body ++ ["\\end\x7btabular\x7d"]) ∧
        body.length = 17 ∧ Decodes body cells := by
  intro s u t
  have htypeset : t.Typeset := by
    refine ⟨rfl, by simp [t], fun s hs => ?_, by decide⟩
    rcases List.mem_cons.1 hs with rfl | hs
    · exact Or.inl ⟨["not", "C", "or", "(", "A", ")"], by decide +kernel⟩
    · rw [List.mem_singleton.1 hs]
      exact Or.inr ⟨" B and A", by decide +kernel⟩
  have hletters : t.letters = [⟨0⟩, ⟨1⟩, ⟨2⟩] := by decide
  have hcolumns : t.columns.length = 5 := by decide
  obtain ⟨cells, text, body, hgrid, hrender, hlength, -, hsplit, hbody, hdecodes, -⟩ :=
    latex_decodes htypeset
  rw [hletters] at hlength hbody
  rw [hcolumns] at hsplit
  exact ⟨htypeset, cells, text, body, hgrid, hrender, hlength, hsplit, hbody, hdecodes⟩

end Table

end Propositional

import Propositional.Proofs.Table.Grid

/-!
# What columns decide

When the two labels differ, a column is true all the way down exactly if its statement is true under
every valuation of its letters, and two columns are alike exactly if their statements have the same
value under every valuation of the letters of both. The letters are those that the statements keep; the
valuations may bind any others, and the table may have letters that a statement does not have.
-/

namespace Propositional

theorem Style.wrap_injective {style : Style} {x y : String} (h : style.wrap x = style.wrap y) :
    x = y := by
  cases style with
  | human => exact h
  | latex =>
    have hlist := congrArg String.toList h
    simp only [wrap, String.toList_append, List.append_cancel_left_eq,
      List.append_cancel_right_eq] at hlist
    exact String.toList_inj.1 hlist

theorem Labels.label_injective {l : Labels} (hl : l.whenFalse ≠ l.whenTrue) {x y : Bool}
    (h : l.label x = l.label y) : x = y := by
  cases x <;> cases y
  · rfl
  · exact absurd h hl
  · exact absurd h.symm hl
  · rfl

/-- Every choice of truth values for all letters is a valuation. -/
theorem Valuation.exists_truth_eq (truth : Letter → Bool) :
    ∃ a : Valuation, (∀ v, v ∈ a.domain) ∧ a.truth = truth := by
  obtain ⟨r, -, htruth⟩ := exists_ofRow Letter.all truth
  refine ⟨ofRow Letter.all r, fun v => ?_, funext fun v => ?_⟩
  · exact (mem_domain_ofRow Letter.all r).2 (Letter.mem_all v)
  · exact truth_eq_of_get? (htruth v (Letter.mem_all v))

/-- It makes no difference whether a valuation binds more letters than it has to. -/
theorem Valuation.forall_binding_iff {P : (Letter → Bool) → Prop} (needed : Letter → Prop) :
    (∀ a : Valuation, (∀ v, needed v → v ∈ a.domain) → P a.truth) ↔ ∀ truth, P truth := by
  constructor
  · intro h truth
    obtain ⟨a, hdomain, rfl⟩ := exists_truth_eq truth
    exact h a fun v _ => hdomain v
  · intro h a _
    exact h a.truth

namespace Statement.Exact

variable {s u : Statement}

/-- A valuation of the letters that an exact statement keeps decides it. -/
theorem value_of_domain (hs : s.Exact) {a : Valuation} (h : ∀ v ∈ s.letters, v ∈ a.domain) :
    s.value a = .ok (s.formula.value a.truth) :=
  Statement.value_of_domain fun v hv => h v (hs.mem_letters.2 hv)

theorem forall_value_eq_true_iff (hs : s.Exact) :
    (∀ a : Valuation, (∀ v ∈ s.letters, v ∈ a.domain) → s.value a = .ok true) ↔
      ∀ truth, s.formula.value truth = true := by
  rw [← Valuation.forall_binding_iff (· ∈ s.letters)]
  refine forall_congr' fun a => imp_congr_right fun h => ?_
  rw [hs.value_of_domain h, Except.ok.injEq]

theorem forall_value_eq_iff (hs : s.Exact) (hu : u.Exact) :
    (∀ a : Valuation, (∀ v, v ∈ s.letters ∨ v ∈ u.letters → v ∈ a.domain) → s.value a = u.value a) ↔
      ∀ truth, s.formula.value truth = u.formula.value truth := by
  rw [← Valuation.forall_binding_iff fun v => v ∈ s.letters ∨ v ∈ u.letters]
  refine forall_congr' fun a => imp_congr_right fun h => ?_
  rw [hs.value_of_domain fun v hv => h v (Or.inl hv), hu.value_of_domain fun v hv => h v (Or.inr hv),
    Except.ok.injEq]

end Statement.Exact

namespace Table

variable {t : Table}

theorem Exact.value_congr (h : t.Exact) {s : Statement} (hs : s ∈ t.statements) {f g : Letter → Bool}
    (hfg : ∀ v ∈ t.letters, f v = g v) : s.formula.value f = s.formula.value g :=
  Formula.value_congr s.formula fun v hv => hfg v (h.mem_letters.2 ⟨s, hs, hv⟩)

theorem entry_eq_iff (hl : t.labels.whenFalse ≠ t.labels.whenTrue) {k : Nat}
    {s : Statement} {b : Bool} : t.entry k s = t.style.wrap (t.labels.label b) ↔
      s.formula.value (t.valuation k).truth = b := by
  constructor
  · intro h
    exact Labels.label_injective hl (Style.wrap_injective h)
  · rintro rfl
    rfl

/-- The statement is true in every row exactly if its formula is valid. -/
theorem Exact.forall_entry_true_iff (h : t.Exact) (hl : t.labels.whenFalse ≠ t.labels.whenTrue)
    {s : Statement} (hs : s ∈ t.statements) :
    (∀ k < t.rowCount, t.entry k s = t.style.wrap t.labels.whenTrue) ↔
      ∀ truth, s.formula.value truth = true := by
  simp only [← Labels.label_true, entry_eq_iff hl]
  refine t.forall_rows_iff (P := fun f => s.formula.value f = true) fun f g hfg hf => ?_
  rw [← h.value_congr hs hfg, hf]

/-- The statements agree in every row exactly if their formulas are equivalent. -/
theorem Exact.forall_entry_eq_iff (h : t.Exact) (hl : t.labels.whenFalse ≠ t.labels.whenTrue)
    {s u : Statement} (hs : s ∈ t.statements) (hu : u ∈ t.statements) :
    (∀ k < t.rowCount, t.entry k s = t.entry k u) ↔
      ∀ truth, s.formula.value truth = u.formula.value truth := by
  have hentry : ∀ k, t.entry k s = t.entry k u ↔
      s.formula.value (t.valuation k).truth = u.formula.value (t.valuation k).truth :=
    fun k => entry_eq_iff hl
  simp only [hentry]
  refine t.forall_rows_iff (P := fun f => s.formula.value f = u.formula.value f)
    fun f g hfg hf => ?_
  rw [← h.value_congr hs hfg, ← h.value_congr hu hfg, hf]

/-- With labels that differ, the columns of a table of statements that were read show which statements are
true under all valuations of the letters that they keep, and which are equivalent. -/
theorem columns_decide (t : Table) (hparsed : ∀ s ∈ t.statements, s.Parsed)
    (hlabels : t.labels.whenFalse ≠ t.labels.whenTrue) :
    ∃ rows, t.grid = .ok (t.header :: rows) ∧
      (∀ j s, t.statements[j]? = some s →
        ((∀ row ∈ rows, row[t.letters.length + j]? = some (t.style.wrap t.labels.whenTrue)) ↔
          ∀ a : Valuation, (∀ v ∈ s.letters, v ∈ a.domain) → s.value a = .ok true)) ∧
      ∀ i j s u, t.statements[i]? = some s → t.statements[j]? = some u →
        ((∀ row ∈ rows, row[t.letters.length + i]? = row[t.letters.length + j]?) ↔
          ∀ a : Valuation, (∀ v, v ∈ s.letters ∨ v ∈ u.letters → v ∈ a.domain) →
            s.value a = u.value a) := by
  have hexact : t.Exact := exact_of_parsed hparsed
  refine ⟨_, hexact.grid_eq_ok, fun j s hs => ?_, fun i j s u hs hu => ?_⟩
  · -- both sides say that the formula is valid
    have hmem := List.mem_of_getElem? hs
    rw [(hexact s hmem).forall_value_eq_true_iff, ← hexact.forall_entry_true_iff hlabels hmem]
    simp only [List.forall_mem_map, List.mem_range, t.getElem?_entries _ hs, Option.some.injEq]
  · -- both sides say that the formulas are equivalent
    have hsmem := List.mem_of_getElem? hs
    have humem := List.mem_of_getElem? hu
    rw [(hexact s hsmem).forall_value_eq_iff (hexact u humem),
      ← hexact.forall_entry_eq_iff hlabels hsmem humem]
    simp only [List.forall_mem_map, List.mem_range, t.getElem?_entries _ hs,
      t.getElem?_entries _ hu, Option.some.injEq]

/-- `A => B` and `not A or B` have the same column, also beside a third letter; it is not all true. -/
theorem columns_decide_implies_not_or :
    let s : Statement := .binary "A => B" (.ofList [⟨0⟩, ⟨1⟩]) .implies (.ofLetter ⟨0⟩) (.ofLetter ⟨1⟩)
    let u : Statement := .binary "not A or B" (.ofList [⟨0⟩, ⟨1⟩]) .or
      (.negation "not A" (.singleton ⟨0⟩) (.ofLetter ⟨0⟩)) (.ofLetter ⟨1⟩)
    let t : Table := ⟨[s, .ofLetter ⟨2⟩, u], .latex, .standard, true⟩
    (∀ s ∈ t.statements, s.Parsed) ∧ t.labels.whenFalse ≠ t.labels.whenTrue ∧
      ∃ rows, t.grid = .ok (t.header :: rows) ∧ (∀ row ∈ rows, row[3]? = row[5]?) ∧
        ¬ ∀ row ∈ rows, row[3]? = some "$T$" := by
  intro s u t
  have hs : s.Parsed := Or.inr ⟨"A => B", by decide +kernel⟩
  have hu : u.Parsed := Or.inl ⟨["not", "A", "or", "B"], by decide +kernel⟩
  have hparsed : ∀ s ∈ t.statements, s.Parsed := by
    intro q hq
    simp only [t, List.mem_cons, List.not_mem_nil, or_false] at hq
    rcases hq with rfl | rfl | rfl
    · exact hs
    · exact Or.inr ⟨" C", by decide +kernel⟩
    · exact hu
  have hlabels : t.labels.whenFalse ≠ t.labels.whenTrue := by decide
  have hlength : t.letters.length = 3 := by decide
  obtain ⟨rows, hgrid, hvalid, hequivalent⟩ := t.columns_decide hparsed hlabels
  rw [hlength] at hvalid hequivalent
  refine ⟨hparsed, hlabels, rows, hgrid, (hequivalent 0 2 s u rfl rfl).2 fun a ha => ?_, fun hall => ?_⟩
  · rw [hs.exact.value_of_domain fun v hv => ha v (Or.inl hv),
      hu.exact.value_of_domain fun v hv => ha v (Or.inr hv)]
    simp only [s, u, Statement.ofLetter, Statement.formula, Formula.value]
    cases a.truth ⟨0⟩ <;> cases a.truth ⟨1⟩ <;> rfl
  · have hfalse := (hvalid 0 s rfl).1 hall (.ofPairs [(⟨0⟩, true), (⟨1⟩, false)]) fun _ hv => hv
    revert hfalse
    decide

end Table

end Propositional

import Propositional.Proofs.Statement.Grammar
import Propositional.Proofs.Statement.Text

/-!
# Reading undoes printing

`Written b f ts` says that the tokens print the formula, with any spelling of each operator and with
parentheses at least where the reader needs them: around a left operand that binds no tighter than its
operator, around a right operand that binds looser or competes as a conditional, and around the
operand of a negation that has two operands itself. More may be put around anything. `b` tells whether
there are any around the whole.

Every formula has a print, every print is a phrase of the grammar (`Written.derives`), and so the
reader gives the formula back, from the tokens as well as from a text that spaces them out.
-/

namespace Propositional

open Token

inductive Written : Bool → Formula → List Token → Prop
  | letter (v : Letter) : Written false (.letter v) [v.name]
  | negation {b : Bool} {f : Formula} {o : Token} {ts : List Token}
      (ho : o ∈ Operator.not.spellings) (needed : f.root.isBinary = true → b = true)
      (h : Written b f ts) : Written false (.negation f) (o :: ts)
  | binary {a b : Bool} {op : Operator} {f g : Formula} {o : Token} {us vs : List Token}
      (hop : op.isBinary = true) (ho : o ∈ op.spellings)
      (left : op.rank ≤ f.root.rank → a = true)
      (right : op.rank < g.root.rank ∨ (op.isConditional = true ∧ g.root.isConditional = true) →
        b = true)
      (hf : Written a f us) (hg : Written b g vs) :
      Written false (.binary op f g) (us ++ o :: vs)
  | wrapped {b : Bool} {f : Formula} {ts : List Token} (h : Written b f ts) :
      Written true f (enclosed ts)

namespace Written

/-- With parentheses around every operand nothing can go wrong. -/
theorem exists_of_proper {f : Formula} (h : f.Proper) : ∃ ts, Written false f ts := by
  induction f with
  | letter v => exact ⟨_, .letter v⟩
  | negation f ih =>
    obtain ⟨ts, hts⟩ := ih h
    exact ⟨_, .negation (o := "not") (by decide) (fun _ => rfl) hts.wrapped⟩
  | binary op f g ihf ihg =>
    obtain ⟨hop, hf, hg⟩ := h
    obtain ⟨us, hus⟩ := ihf hf
    obtain ⟨vs, hvs⟩ := ihg hg
    have hname : op.name ∈ op.spellings := by
      rw [← Operator.ofSpelling?_eq_some_iff]
      exact Operator.ofSpelling?_name (by rintro rfl; cases hop)
    exact ⟨_, .binary hop hname (fun _ => rfl) (fun _ => rfl) hus.wrapped hvs.wrapped⟩

theorem operator?_of_mem {o : Token} {op : Operator} (h : o ∈ op.spellings) :
    operator? o = some op :=
  Operator.ofSpelling?_eq_some_iff.2 h

/-- A print is a phrase of every kind that admits its root, and of every kind if it is wrapped. -/
theorem derives {b : Bool} {f : Formula} {ts : List Token} (h : Written b f ts) (p : Phrase)
    (hp : b = true ∨ f.root.rank ≤ p.rank) : Derives p ts f := by
  induction h generalizing p with
  | letter v => exact (Derives.letter v).mono (Nat.zero_le _)
  | @negation b f o ts ho needed h ih =>
    obtain rfl := operator?_eq_not_iff.1 (operator?_of_mem ho)
    -- without parentheses the operand is a letter or a negation
    have hoperand : b = true ∨ f.root.rank ≤ 1 := by
      by_cases hb : f.root.isBinary = true
      · exact Or.inl (needed hb)
      · refine Or.inr ?_
        revert hb
        cases f.root <;> decide
    have hrank : 1 ≤ p.rank := by
      rcases hp with hp | hp
      · cases hp
      · exact hp
    exact (Derives.not (Or.inl rfl) (ih .negation hoperand)).mono hrank
  | @binary a b op f g o us vs hop ho left right hf hg ihf ihg =>
    have hleft : a = true ∨ f.root.rank + 1 ≤ op.rank := by
      by_cases ha : op.rank ≤ f.root.rank
      · exact Or.inl (left ha)
      · exact Or.inr (by omega)
    have hright : b = true ∨ g.root.rank ≤ min op.rank 3 := by
      by_cases hb : op.rank < g.root.rank ∨ (op.isConditional = true ∧ g.root.isConditional = true)
      · exact Or.inl (right hb)
      · -- no parentheses to the right of a conditional: the right root is no conditional then
        rw [Operator.isConditional_iff, Operator.isConditional_iff] at hb
        have := op.rank_le
        exact Or.inr (by omega)
    obtain ⟨q, hq, hderives⟩ : ∃ q : Phrase, q.rank = op.rank ∧ Derives q (us ++ o :: vs) _ := by
      refine Derives.joined (operator?_of_mem ho) (by rintro rfl; cases hop)
        (fun q hq => ihf q ?_) (fun q hq => ihg q ?_)
      · exact hleft.imp_right fun hle => by omega
      · exact hright.imp_right fun hle => by omega
    have hrank : q.rank ≤ p.rank := by
      rcases hp with hp | hp
      · cases hp
      · exact hq ▸ hp
    exact hderives.mono hrank
  | wrapped h ih => exact (ih .conditional (Or.inr (Operator.rank_le _))).group.mono (Nat.zero_le _)

end Written

/-- A phrase that is written out as a text is read as the statement of its formula. -/
theorem Derives.ofText_eq_ok {ts : List Token} {f : Formula} (h : Derives .conditional ts f)
    {expression : String} (hspaced : Spaced ts expression.toList) :
    ∃ s, Statement.ofText expression = .ok s ∧ s.formula = f := by
  obtain ⟨s, hs, hf⟩ := h.ofPaired_eq_ok expression
  refine ⟨s, ?_, hf⟩
  rw [Statement.ofText, Statement.readText_of_spaced hspaced h.kind_ne_other]
  exact Reading.result_mapError_eq_ok_iff.2 hs

/-- Every formula has a print, and each of its prints is read as a statement of that formula: the list
of tokens itself, and every text that writes the tokens with spaces between them. -/
theorem read_written (f : Formula) :
    (f.Proper → ∃ ts, Written false f ts) ∧
      ∀ b ts, Written b f ts →
        (∃ s, Statement.ofTokens ts = .ok s ∧ s.formula = f) ∧
          ∀ expression : String, Spaced ts expression.toList →
            ∃ s, Statement.ofText expression = .ok s ∧ s.formula = f := by
  refine ⟨Written.exists_of_proper, fun b ts h => ?_⟩
  have hderives : Derives .conditional ts f := h.derives .conditional (Or.inr (Operator.rank_le _))
  exact ⟨hderives.ofPaired_eq_ok (text ts), fun _ hspaced => hderives.ofText_eq_ok hspaced⟩

/-- `( A impl B ) or not ( not C )`, in a text with a double space and none around the parentheses. -/
theorem read_written_implies_or_not :
    let A : Formula := .letter ⟨0⟩
    let B : Formula := .letter ⟨1⟩
    let C : Formula := .letter ⟨2⟩
    let f : Formula := .binary .or (.binary .implies A B) (.negation (.negation C))
    let ts := ["(", "A", "impl", "B", ")", "or", "not", "(", "not", "C", ")"]
    let expression := "(A  impl B)or not(not C)"
    f.Proper ∧ Written false f ts ∧ Spaced ts expression.toList ∧
      (∃ s, Statement.ofTokens ts = .ok s ∧ s.formula = f) ∧
      ∃ s, Statement.ofText expression = .ok s ∧ s.formula = f := by
  intro A B C f ts expression
  have hinner : Written false (.binary .implies A B) ["A", "impl", "B"] :=
    .binary rfl (by decide) (by decide) (by decide) (.letter ⟨0⟩) (.letter ⟨1⟩)
  have hwritten : Written false f ts :=
    .binary rfl (by decide) (fun _ => rfl) (by decide) hinner.wrapped
      (.negation (by decide) (fun _ => rfl) (.wrapped (.negation (by decide) (by decide) (.letter ⟨2⟩))))
  have hnot : Spaced ["not", "C", ")"] "not C)".toList :=
    .cons 1 (by decide) (.cons 0 (by decide) (.single ")"))
  have hor : Spaced ["or", "not", "(", "not", "C", ")"] "or not(not C)".toList :=
    .cons 1 (by decide) (.cons 0 (by decide) (.cons 0 (by decide) hnot))
  have hgroup : Spaced ["impl", "B", ")", "or", "not", "(", "not", "C", ")"]
      "impl B)or not(not C)".toList :=
    .cons 1 (by decide) (.cons 0 (by decide) (.cons 0 (by decide) hor))
  have hspaced : Spaced ["(", "A", "impl", "B", ")", "or", "not", "(", "not", "C", ")"]
      "(A  impl B)or not(not C)".toList :=
    .cons 0 (by decide) (.cons 2 (by decide) hgroup)
  obtain ⟨htokens, htext⟩ := (read_written f).2 false ts hwritten
  exact ⟨⟨rfl, ⟨rfl, trivial, trivial⟩, trivial⟩, hwritten, hspaced, htokens, htext expression hspaced⟩

end Propositional

import Propositional.Proofs.Statement.Reader
import Propositional.Proofs.Token.Paired

/-!
# Parts that are read on their own

The reader cuts a list at its root, strips both sides and goes on with these. What it reaches from a
list in which every parenthesis has its partner is a `Subspan` of the list: a part without gaps, in
which every parenthesis has its partner as well and no pair of them is redundant. As a list of its own
such a part is read with the same outcome as in its place (`ofTokens_strip`).
-/

namespace Propositional

open Token

namespace Token

theorem strip_isInfix (ts : List Token) : strip ts <:+: ts :=
  strip_induction (P := fun ts us => us <:+: ts) (fun _ _ => List.infix_rfl)
    (fun _ _ ih => ih.trans ⟨["("], [")"], rfl⟩) ts

/-- A part of a list that the reader may look at by itself. -/
structure Subspan (ts span : List Token) : Prop where
  /-- The tokens of the span follow one another in the list. -/
  part : span <:+: ts
  /-- Every parenthesis of the span has its partner in the span. -/
  paired : Paired span
  /-- No parentheses enclose the whole span. -/
  strip_eq : strip span = span

theorem Subspan.of_part {ts us : List Token} (hpart : us <:+: ts) (h : balanced us = true) :
    Subspan ts (strip us) where
  part := (strip_isInfix us).trans hpart
  paired := balanced_iff_paired.1 (by rw [balanced_strip, h])
  strip_eq := strip_strip us

theorem Subspan.widen {ts us span : List Token} (h : Subspan us span) (hpart : us <:+: ts) :
    Subspan ts span :=
  { h with part := h.part.trans hpart }

end Token

/-- A cut at the root leaves two parts of the list in which every parenthesis has its partner. -/
theorem Root.IsRoot.sides {op : Operator} {ts us vs : List Token} {t : Token}
    (h : IsRoot op us t vs) (hts : strip ts = us ++ t :: vs) (hbalanced : balanced ts = true) :
    (us <:+: ts ∧ balanced us = true) ∧ (vs <:+: ts ∧ balanced vs = true) := by
  have hpart : us ++ t :: vs <:+: ts := hts ▸ strip_isInfix ts
  have hleft : us <:+: us ++ t :: vs := (List.prefix_append us _).isInfix
  have hright : vs <:+: us ++ t :: vs :=
    ((List.suffix_cons t vs).trans (List.suffix_append us _)).isInfix
  rw [← balanced_strip, hts] at hbalanced
  have hsides := balanced_split hbalanced h.rise_eq (step_of_operator h.spells)
  exact ⟨⟨hleft.trans hpart, hsides.1⟩, hright.trans hpart, hsides.2⟩

namespace Statement

theorem ofTokens_of_balanced {ts : List Token} (h : balanced ts = true) :
    ofTokens ts = (ofSpan (text ts) ts).result := by
  rw [ofTokens, readTokens, ofPaired, if_pos h]

theorem ofTokens_of_not_balanced {ts : List Token} (h : ¬ balanced ts = true) :
    ofTokens ts = .error (.unbalanced (text ts)) := by
  rw [ofTokens, readTokens, ofPaired, if_neg h, Reading.result_failed]

/-- The reader gets the same from a stripped list as from what is left of it, read by itself. -/
theorem ofTokens_strip {ts : List Token} (h : balanced ts = true) :
    ofTokens (strip ts) = (ofSpan (text (strip ts)) ts).result := by
  rw [← balanced_strip] at h
  rw [ofTokens_of_balanced h, ofSpan_strip]

end Statement

end Propositional

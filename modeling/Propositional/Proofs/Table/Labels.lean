import Mathlib.Data.List.TakeWhile
import Propositional.Proofs.Text.Split
import Propositional.Table.Labels

/-!
# Labels in a text

A text holds two labels when it has a comma: the first label ends at the first comma, the second one at
the second comma or at the end of the text (`WrittenIn`). Reading finds these labels, and fails for a
text without a comma only.
-/

namespace Propositional.Labels

/-- The labels that stand in a text, with a comma between them and perhaps another one behind. -/
inductive WrittenIn : Labels → String → Prop
  | toEnd {x y : String} (hx : ',' ∉ x.toList) (hy : ',' ∉ y.toList) :
      WrittenIn ⟨x, y⟩ (x ++ "," ++ y)
  | toComma {x y : String} (hx : ',' ∉ x.toList) (hy : ',' ∉ y.toList) (rest : String) :
      WrittenIn ⟨x, y⟩ (x ++ "," ++ (y ++ "," ++ rest))

end Propositional.Labels

import Propositional.LetterSet

/-!
# The members of a set in order

Members are listed from `A` to `Z`, each once, so that there are at most 26 of them. A union over a
list has the members of all its parts.
-/

namespace Propositional

namespace Letter

theorem pairwise_all : all.Pairwise fun v w => v.index < w.index :=
  List.pairwise_map.2 (List.pairwise_lt_finRange 26)

theorem nodup_of_pairwise {vs : List Letter} (h : vs.Pairwise fun v w => v.index < w.index) :
    vs.Nodup := by
  refine h.imp fun {v w} hlt => ?_
  rintro rfl
  exact Nat.lt_irrefl _ hlt

end Letter

namespace LetterSet

theorem pairwise_toList (s : LetterSet) : s.toList.Pairwise fun v w => v.index < w.index :=
  Letter.pairwise_all.filter _

theorem nodup_toList (s : LetterSet) : s.toList.Nodup := Letter.nodup_of_pairwise s.pairwise_toList

theorem length_toList_le (s : LetterSet) : s.toList.length ≤ 26 := by
  have h := List.length_filter_le s.contains Letter.all
  rwa [Letter.all, List.length_map, List.length_finRange] at h

theorem mem_foldl_union {α : Type} {v : Letter} (f : α → LetterSet) (xs : List α) (s : LetterSet) :
    v ∈ xs.foldl (fun t x => t.union (f x)) s ↔ v ∈ s ∨ ∃ x ∈ xs, v ∈ f x := by
  induction xs generalizing s with
  | nil => simp
  | cons x xs ih => simp [ih, or_assoc]

end LetterSet

end Propositional

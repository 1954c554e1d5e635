import Propositional.Proofs.Statement.Grammar

/-!
# Phrases and the kinds of their tokens

What a list of tokens is a phrase of depends on the kinds of its tokens alone: any operator may be
spelled in another way (`Derives.of_map_kind_eq`). A list stands for one formula only
(`Derives.formula_unique`), so that lists with the same kinds stand for the same formula.
-/

namespace Propositional

open Token

namespace Token

theorem operator?_congr {t u : Token} (h : kind u = kind t) {op : Operator}
    (ht : operator? t = some op) : operator? u = some op := by
  rw [← kind_eq_operator_iff] at ht ⊢
  rw [h, ht]

theorem eq_name_of_kind_eq {t : Token} {v : Letter} (h : kind t = .letter v) : t = v.name :=
  Letter.ofName?_eq_some_iff.1 (kind_eq_letter_iff.1 h)

/-- A list with the kinds of an enclosed list is enclosed. -/
theorem exists_enclosed_of_map_kind_eq {ws ts : List Token}
    (h : ws.map kind = (enclosed ts).map kind) :
    ∃ us, ws = enclosed us ∧ us.map kind = ts.map kind := by
  rw [enclosed, List.map_append, List.map_cons, List.map_singleton] at h
  obtain ⟨front, back, rfl, hfront, hback⟩ := List.map_eq_append_iff.1 h
  obtain ⟨t, us, rfl, ht, hus⟩ := List.map_eq_cons_iff.1 hfront
  obtain ⟨u, rfl, hu⟩ := List.map_eq_singleton_iff.1 hback
  obtain rfl := kind_eq_opening_iff.1 (ht.trans kind_opening)
  obtain rfl := kind_eq_closing_iff.1 (hu.trans kind_closing)
  exact ⟨us, rfl, hus⟩

/-- A list with the kinds of two lists and a word between them is cut at the same place. -/
theorem exists_joined_of_map_kind_eq {ws us vs : List Token} {t : Token}
    (h : ws.map kind = (us ++ t :: vs).map kind) :
    ∃ as u bs, ws = as ++ u :: bs ∧ as.map kind = us.map kind ∧ kind u = kind t ∧
      bs.map kind = vs.map kind := by
  rw [List.map_append, List.map_cons] at h
  obtain ⟨as, rest, rfl, has, hrest⟩ := List.map_eq_append_iff.1 h
  obtain ⟨u, bs, rfl, hu, hbs⟩ := List.map_eq_cons_iff.1 hrest
  exact ⟨as, u, bs, rfl, has, hu, hbs⟩

end Token

theorem EmptyGroup.of_map_kind_eq {es ws : List Token} (h : EmptyGroup es)
    (hkind : ws.map kind = es.map kind) : EmptyGroup ws := by
  induction h generalizing ws with
  | pair =>
    obtain ⟨us, rfl, hus⟩ := exists_enclosed_of_map_kind_eq hkind
    obtain rfl : us = [] := List.map_eq_nil_iff.1 hus
    exact .pair
  | wrap h ih =>
    obtain ⟨us, rfl, hus⟩ := exists_enclosed_of_map_kind_eq hkind
    exact .wrap (ih hus)

/-- Tokens may be replaced by others of the same kinds. -/
theorem Derives.of_map_kind_eq {p : Phrase} {ts ws : List Token} {f : Formula} (h : Derives p ts f)
    (hkind : ws.map kind = ts.map kind) : Derives p ws f := by
  induction h generalizing ws with
  | letter v =>
    obtain ⟨t, rfl, ht⟩ := List.map_eq_singleton_iff.1 hkind
    rw [eq_name_of_kind_eq (ht.trans (kind_name v))]
    exact .letter v
  | group h ih =>
    obtain ⟨us, rfl, hus⟩ := exists_enclosed_of_map_kind_eq hkind
    exact .group (ih hus)
  | not he h ih =>
    obtain ⟨as, u, bs, rfl, has, hu, hbs⟩ := exists_joined_of_map_kind_eq hkind
    obtain rfl := operator?_eq_not_iff.1 (operator?_congr hu (operator?_eq_not_iff.2 rfl))
    refine .not ?_ (ih hbs)
    rcases he with rfl | he
    · exact Or.inl (List.map_eq_nil_iff.1 has)
    · exact Or.inr (he.of_map_kind_eq has)
  | and hf hg ihf ihg =>
    obtain ⟨as, u, bs, rfl, has, hu, hbs⟩ := exists_joined_of_map_kind_eq hkind
    obtain rfl := operator?_eq_and_iff.1 (operator?_congr hu (operator?_eq_and_iff.2 rfl))
    exact .and (ihf has) (ihg hbs)
  | or hf hg ihf ihg =>
    obtain ⟨as, u, bs, rfl, has, hu, hbs⟩ := exists_joined_of_map_kind_eq hkind
    obtain rfl := operator?_eq_or_iff.1 (operator?_congr hu (operator?_eq_or_iff.2 rfl))
    exact .or (ihf has) (ihg hbs)
  | conditional hc hf hg ihf ihg =>
    obtain ⟨as, u, bs, rfl, has, hu, hbs⟩ := exists_joined_of_map_kind_eq hkind
    obtain ⟨hop, hrank⟩ := mem_conditionalWords_iff.1 hc
    exact .conditional (mem_conditionalWords_iff.2 ⟨operator?_congr hu hop, hrank⟩) (ihf has) (ihg hbs)
  | atom h ih => exact .atom (ih hkind)
  | negation h ih => exact .negation (ih hkind)
  | conjunction h ih => exact .conjunction (ih hkind)
  | disjunction h ih => exact .disjunction (ih hkind)

/-- A list of tokens stands for one formula at most: the reader gives only one. -/
theorem Derives.formula_unique {p q : Phrase} {ts : List Token} {f g : Formula}
    (hf : Derives p ts f) (hg : Derives q ts g) : f = g := by
  obtain ⟨s, hs, rfl⟩ := hf.reads (text ts)
  obtain ⟨u, hu, rfl⟩ := hg.reads (text ts)
  rw [hs] at hu
  exact congrArg Statement.formula (Except.ok.inj hu)

end Propositional

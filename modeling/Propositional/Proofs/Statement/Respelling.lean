import Mathlib.Data.List.Find
import Mathlib.Data.List.Forall2
import Propositional.Proofs.Statement.Fault
import Propositional.Proofs.Statement.Value
import Propositional.Proofs.Token.Parallel

/-!
# What the reader sees of a token

The reader looks at the kinds of tokens only. A function that keeps the class of every token
(`KeepsClasses`) may replace letters by others, also two letters by the same one, operators by other
spellings of theirs, and words without a meaning by any others of that sort. The list is then read as the
same formula with the letters renamed, or refused for the same fault of the same tokens
(`reading_depends_on_classes`). The step is on two spellings of one list at a time
(`alike_ofSpan`), so that spellings may also be exchanged in some places and kept in others.
-/

namespace Propositional

open Token Occurrence Root

/-! ## Renamed letters -/

/-- The formula with every letter replaced. -/
def Formula.rename (ρ : Letter → Letter) : Formula → Formula
  | letter v => letter (ρ v)
  | negation f => negation (f.rename ρ)
  | binary op f g => binary op (f.rename ρ) (g.rename ρ)

/-- The valuation that gives each letter the value of the letter that replaces it, if that has one. -/
def Valuation.comap (a : Valuation) (ρ : Letter → Letter) : Valuation where
  bound := .ofList (Letter.all.filter fun v => (a.get? (ρ v)).isSome)
  trues := .ofList (Letter.all.filter fun v => a.get? (ρ v) == some true)

@[simp] theorem Valuation.get?_comap (a : Valuation) (ρ : Letter → Letter) (v : Letter) :
    (a.comap ρ).get? v = a.get? (ρ v) := by
  have htrue : (a.comap ρ).trues.contains v = (a.get? (ρ v) == some true) := by
    rw [Bool.eq_iff_iff, LetterSet.contains_iff]
    simp [comap]
  rw [get?, htrue]
  cases h : a.get? (ρ v) with
  | none => simp [comap, h]
  | some b => simp [comap, h]

namespace Formula

theorem leaves_rename (ρ : Letter → Letter) (f : Formula) :
    (f.rename ρ).leaves = f.leaves.map ρ := by
  induction f with
  | letter v => rfl
  | negation f ih => exact ih
  | binary op f g ihf ihg => rw [rename, leaves, leaves, ihf, ihg, List.map_append]

theorem gap?_rename (a : Valuation) (ρ : Letter → Letter) (f : Formula) :
    (f.rename ρ).gap? a = (f.gap? (a.comap ρ)).map ρ := by
  have hlacks : a.lacks ∘ ρ = (a.comap ρ).lacks := by
    funext v
    rw [Function.comp_apply, Valuation.lacks, Valuation.lacks, Valuation.get?_comap]
  rw [gap?, gap?, leaves_rename, List.find?_map, hlacks]

theorem value_rename (a : Valuation) (ρ : Letter → Letter) (f : Formula) :
    (f.rename ρ).value a.truth = f.value (a.comap ρ).truth := by
  induction f with
  | letter v => rw [rename, value, value, Valuation.truth, Valuation.truth, Valuation.get?_comap]
  | negation f ih => rw [rename, value, value, ih]
  | binary op f g ihf ihg => rw [rename, value, value, ihf, ihg]

theorem rename_id (f : Formula) : f.rename id = f := by
  induction f with
  | letter v => rfl
  | negation f ih => rw [rename, ih]
  | binary op f g ihf ihg => rw [rename, ihf, ihg]

end Formula

/-- A renamed statement has the value of the statement before, with the values looked up under the new
names; what it reports as missing is the new name. -/
theorem Statement.value_of_rename {s s' : Statement} {ρ : Letter → Letter}
    (h : s'.formula = s.formula.rename ρ) (a : Valuation) :
    s'.value a = (s.value (a.comap ρ)).mapError fun e => ⟨ρ e.letter⟩ := by
  rw [value_eq, value_eq, h, Formula.gap?_rename, Formula.value_rename]
  cases s.formula.gap? (a.comap ρ) <;> rfl

theorem Token.isParen_of_rename {ρ : Letter → Letter} {t u : Token} (h : kind u = (kind t).rename ρ) :
    isParen u = isParen t := by
  rw [Bool.eq_iff_iff, isParen_iff_kind, isParen_iff_kind, h]
  cases kind t <;> simp [Kind.rename]

/-! ## Faults in two spellings -/

section

variable {α : Type}

/-- The same fault of the same stretch of a list, in two spellings. -/
inductive Malformed.Alike (g h : α → Token) (span : List α) : Malformed → Malformed → Prop
  | ambiguousPrecedence : Alike g h span (.ambiguousPrecedence (text (span.map g)))
      (.ambiguousPrecedence (text (span.map h)))
  | noLetters : Alike g h span (.noLetters (text (span.map g))) (.noLetters (text (span.map h)))
  | severalLetters : Alike g h span (.severalLetters (text (span.map g)))
      (.severalLetters (text (span.map h)))
  | invalidToken (x : α) : Alike g h span (.invalidToken (g x) (text (span.map g)))
      (.invalidToken (h x) (text (span.map h)))
  | unbalanced : Alike g h span (.unbalanced (text (span.map g))) (.unbalanced (text (span.map h)))
  | missingOperand (op : Operator) : Alike g h span (.missingOperand op (text (span.map g)))
      (.missingOperand op (text (span.map h)))
  | unexpectedOperand (op : Operator) : Alike g h span (.unexpectedOperand op (text (span.map g)))
      (.unexpectedOperand op (text (span.map h)))

namespace Statement

/-- Two spellings of a list have the same outcome: formulas that differ in the names of letters, or the
same fault of a stretch that has this fault also by itself. -/
inductive Alike (ρ : Letter → Letter) (g h : α → Token) (xs : List α) :
    Except Malformed Statement → Except Malformed Statement → Prop
  | ok {s s' : Statement} (hs : s'.formula = s.formula.rename ρ) : Alike ρ g h xs (.ok s) (.ok s')
  | error {e e' : Malformed} {span : List α} (hpart : span <:+: xs)
      (hfault : Malformed.Alike g h span e e') (hread : ofTokens (span.map g) = .error e) :
      Alike ρ g h xs (.error e) (.error e')

variable {ρ : Letter → Letter} {g h : α → Token} {xs ys : List α} {r r' : Except Malformed Statement}

theorem Alike.elim (halike : Alike ρ g h xs r r') :
    (∃ s s', r = .ok s ∧ r' = .ok s' ∧ s'.formula = s.formula.rename ρ) ∨
      ∃ e e' span, r = .error e ∧ r' = .error e' ∧ span <:+: xs ∧ Malformed.Alike g h span e e' ∧
        ofTokens (span.map g) = .error e := by
  cases halike with
  | ok hs => exact Or.inl ⟨_, _, rfl, rfl, hs⟩
  | error hpart hfault hread => exact Or.inr ⟨_, _, _, rfl, rfl, hpart, hfault, hread⟩

theorem Alike.widen (halike : Alike ρ g h ys r r') (hpart : ys <:+: xs) : Alike ρ g h xs r r' := by
  cases halike with
  | ok hs => exact .ok hs
  | error hspan hfault hread => exact .error (hspan.trans hpart) hfault hread

theorem Alike.negation (halike : Alike ρ g h xs r r') (l m : String) :
    Alike ρ g h xs (r.map fun a => negation l a.letters a) (r'.map fun a => negation m a.letters a) := by
  cases halike with
  | ok hs => exact .ok (congrArg Formula.negation hs)
  | error hspan hfault hread => exact .error hspan hfault hread

theorem Alike.binary {q q' : Except Malformed Statement} (halike : Alike ρ g h xs r r')
    (halike' : Alike ρ g h xs q q') (op : Operator) (l m : String) :
    Alike ρ g h xs (r.bind fun a => q.map fun b => binary l (a.letters.union b.letters) op a b)
      (r'.bind fun a => q'.map fun b => binary m (a.letters.union b.letters) op a b) := by
  cases halike with
  | ok hs =>
    cases halike' with
    | ok hs' => exact .ok (congrArg₂ (Formula.binary op) hs hs')
    | error hspan hfault hread => exact .error hspan hfault hread
  | error hspan hfault hread => exact .error hspan hfault hread

/-! ## One step and all steps -/

/-- The fault of a list as a whole. -/
theorem Alike.of_error {e e' : Malformed} {l m : String} (hbalanced : balanced (xs.map g) = true)
    (he : (ofSpan l (xs.map g)).result = .error e) (he' : (ofSpan m (xs.map h)).result = .error e')
    (hfault : Malformed.Alike g h xs e e') :
    Alike ρ g h xs (ofSpan l (xs.map g)).result (ofSpan m (xs.map h)).result := by
  rw [he, he']
  refine .error List.infix_rfl hfault ?_
  rw [ofTokens_of_balanced hbalanced, ofSpan_error_congr he]

/-- The token to blame is the same element of the list in both spellings. -/
theorem exists_offender_eq (hxs : Parallel ρ g h xs) (hother : ∃ t ∈ xs.map g, isLetter t = false) :
    ∃ x, offender (xs.map g) = g x ∧ offender (xs.map h) = h x := by
  have hletter : ∀ x ∈ xs, isLetter (h x) = isLetter (g x) := fun x hx => isLetter_of_rename (hxs x hx)
  have hparen : ∀ x ∈ xs, isParen (h x) = isParen (g x) := fun x hx => isParen_of_rename (hxs x hx)
  have hword : xs.find? ((fun t => !isLetter t && !isParen t) ∘ h) =
      xs.find? ((fun t => !isLetter t && !isParen t) ∘ g) :=
    List.find?_congr fun x hx => by simp [hletter x hx, hparen x hx]
  have hany : xs.find? ((fun t => !isLetter t) ∘ h) = xs.find? ((fun t => !isLetter t) ∘ g) :=
    List.find?_congr fun x hx => by simp [hletter x hx]
  simp only [offender, List.find?_map, hword, hany]
  cases xs.find? ((fun t => !isLetter t && !isParen t) ∘ g) with
  | some x => exact ⟨x, rfl, rfl⟩
  | none =>
    cases hfind : xs.find? ((fun t => !isLetter t) ∘ g) with
    | some x => exact ⟨x, rfl, rfl⟩
    | none =>
      obtain ⟨_, ht, hnot⟩ := hother
      obtain ⟨x, hx, rfl⟩ := List.mem_map.1 ht
      have := List.find?_eq_none.1 hfind x hx
      simp [hnot] at this

theorem lone?_map (hxs : Parallel ρ g h xs) : lone? (xs.map h) = (lone? (xs.map g)).map ρ := by
  match xs with
  | [] => rfl
  | [x] => exact ofName?_of_rename (hxs x List.mem_cons_self)
  | _ :: _ :: _ => rfl

theorem alike_of_operators_eq_nil (hxs : Parallel ρ g h xs) (hbalanced : balanced (xs.map g) = true)
    (hg : strip (xs.map g) = xs.map g) (hh : strip (xs.map h) = xs.map h)
    (hops : operators (xs.map g) = []) (l m : String) :
    Alike ρ g h xs (ofSpan l (xs.map g)).result (ofSpan m (xs.map h)).result := by
  have hgread : (ofSpan l (xs.map g)).result = ofOperatorless l (xs.map g) := by
    rw [ofSpan_absent l (by rw [hg, hops]), hg, Reading.result_ofExcept]
  have hhread : (ofSpan m (xs.map h)).result = ofOperatorless m (xs.map h) := by
    rw [ofSpan_absent m (by rw [hh, hxs.operators_eq, hops]), hh, Reading.result_ofExcept]
  have hcount := hxs.countP_isLetter_eq
  match hn : (xs.map g).countP isLetter with
  | 0 =>
    rw [hn] at hcount
    refine .of_error hbalanced ?_ ?_ .noLetters
    · simp only [hgread, ofOperatorless, hn]
    · simp only [hhread, ofOperatorless, hcount]
  | 1 =>
    rw [hn] at hcount
    have hlone := lone?_map hxs
    cases hv : lone? (xs.map g) with
    | some v =>
      rw [hv, Option.map_some] at hlone
      simp only [hgread, hhread, ofOperatorless, hn, hcount, hv, hlone]
      exact .ok rfl
    | none =>
      rw [hv, Option.map_none] at hlone
      have hlength := two_le_length_of_lone? hn hv
      obtain ⟨x, hx, hx'⟩ := exists_offender_eq hxs (exists_not_isLetter hn hlength)
      refine .of_error hbalanced ?_ ?_ (.invalidToken x)
      · simp only [hgread, ofOperatorless, hn, hv, hx]
      · simp only [hhread, ofOperatorless, hcount, hlone, hx']
  | n + 2 =>
    rw [hn] at hcount
    refine .of_error hbalanced ?_ ?_ .severalLetters
    · simp only [hgread, ofOperatorless, hn]
    · simp only [hhread, ofOperatorless, hcount]

theorem strip_map_eq_nil_iff (hxs : Parallel ρ g h xs) :
    strip (xs.map h) = [] ↔ strip (xs.map g) = [] := by
  obtain ⟨ys, -, hg, hh⟩ := hxs.sameSteps.exists_strip
  rw [hg, hh, List.map_eq_nil_iff, List.map_eq_nil_iff]

/-- At a root the two spellings go the same way, by what is left of the sides. -/
theorem alike_of_isRoot {op : Operator} {as bs : List α} {x : α}
    (hxs : Parallel ρ g h (as ++ x :: bs)) (hbalanced : balanced ((as ++ x :: bs).map g) = true)
    (hroot : IsRoot op (as.map g) (g x) (bs.map g)) (l m : String)
    (hleft : ∀ l m, Alike ρ g h as (ofSpan l (as.map g)).result (ofSpan m (as.map h)).result)
    (hright : ∀ l m, Alike ρ g h bs (ofSpan l (bs.map g)).result (ofSpan m (bs.map h)).result) :
    Alike ρ g h (as ++ x :: bs) (ofSpan l ((as ++ x :: bs).map g)).result
      (ofSpan m ((as ++ x :: bs).map h)).result := by
  have hasPart : as <:+: as ++ x :: bs := (List.prefix_append as _).isInfix
  have hbsPart : bs <:+: as ++ x :: bs :=
    ((List.suffix_cons x bs).trans (List.suffix_append as _)).isInfix
  have hasNil := strip_map_eq_nil_iff (hxs.subset hasPart.subset)
  have hbsNil := strip_map_eq_nil_iff (hxs.subset hbsPart.subset)
  have hg := ofSpan_isRoot l hroot
  have hh := ofSpan_isRoot m (hxs.isRoot hroot)
  rw [← List.map_cons, ← List.map_append] at hg hh
  by_cases hvs : strip (bs.map g) = []
  · rw [if_pos hvs] at hg
    rw [if_pos (hbsNil.2 hvs)] at hh
    exact .of_error hbalanced (by rw [hg]; rfl) (by rw [hh]; rfl) (.missingOperand op)
  rw [if_neg hvs] at hg
  rw [if_neg (mt hbsNil.1 hvs)] at hh
  by_cases hop : op = .not <;> by_cases hus : strip (as.map g) = []
  · rw [if_pos hop, if_pos hus] at hg
    rw [if_pos hop, if_pos (hasNil.2 hus)] at hh
    rw [hg, hh, Reading.result_noting, Reading.result_noting, Reading.result_map, Reading.result_map]
    exact ((hright _ _).widen hbsPart).negation l m
  · rw [if_pos hop, if_neg hus] at hg
    rw [if_pos hop, if_neg (mt hasNil.1 hus)] at hh
    exact .of_error hbalanced (by rw [hg]; rfl) (by rw [hh]; rfl) (.unexpectedOperand op)
  · rw [if_neg hop, if_pos hus] at hg
    rw [if_neg hop, if_pos (hasNil.2 hus)] at hh
    exact .of_error hbalanced (by rw [hg]; rfl) (by rw [hh]; rfl) (.missingOperand op)
  · rw [if_neg hop, if_neg hus] at hg
    rw [if_neg hop, if_neg (mt hasNil.1 hus)] at hh
    rw [hg, hh, Reading.result_noting, Reading.result_noting, Reading.result_bind, Reading.result_bind]
    exact ((hleft _ _).widen hasPart).binary ((hright _ _).widen hbsPart) op l m

theorem alike_ofSpan (hxs : Parallel ρ g h xs) (hbalanced : balanced (xs.map g) = true)
    (l m : String) : Alike ρ g h xs (ofSpan l (xs.map g)).result (ofSpan m (xs.map h)).result := by
  induction hn : xs.length using Nat.strongRecOn generalizing xs l m with
  | ind n ih =>
    obtain ⟨ys, hpart, hg, hh⟩ := hxs.sameSteps.exists_strip
    have hys : Parallel ρ g h ys := hxs.subset hpart.subset
    have hlength := hpart.length_le
    have hgys : strip (ys.map g) = ys.map g := by rw [← hg, strip_strip]
    have hhys : strip (ys.map h) = ys.map h := by rw [← hh, strip_strip]
    rw [← balanced_strip, hg] at hbalanced
    rw [← ofSpan_strip l, ← ofSpan_strip m, hg, hh]
    refine Alike.widen ?_ hpart
    rcases root_cases (ys.map g) with hops | hcount | ⟨op, us, t, vs, hts, hroot⟩
    · exact alike_of_operators_eq_nil hys hbalanced hgys hhys hops l m
    · have hgread := ofSpan_ambiguous l (by rwa [hgys])
      have hhread := ofSpan_ambiguous m (by rwa [hhys, hys.operators_eq])
      rw [hgys] at hgread
      rw [hhys] at hhread
      exact .of_error hbalanced (by rw [hgread]; rfl) (by rw [hhread]; rfl) .ambiguousPrecedence
    · obtain ⟨as, rest, rfl, rfl, hrest⟩ := List.map_eq_append_iff.1 hts
      obtain ⟨x, bs, rfl, rfl, rfl⟩ := List.map_eq_cons_iff.1 hrest
      obtain ⟨⟨-, hleft⟩, -, hright⟩ := hroot.sides (hgys.trans hts) hbalanced
      rw [List.length_append, List.length_cons] at hlength
      refine alike_of_isRoot hys hbalanced hroot l m (fun l m => ?_) fun l m => ?_
      · exact ih as.length (by omega) (hys.subset (List.subset_append_left _ _)) hleft l m rfl
      · exact ih bs.length (by omega) (hys.subset fun y hy => by simp [hy]) hright l m rfl

theorem alike_ofTokens (hxs : Parallel ρ g h xs) :
    Alike ρ g h xs (ofTokens (xs.map g)) (ofTokens (xs.map h)) := by
  have hsame := hxs.sameSteps.balanced_eq
  by_cases hbalanced : balanced (xs.map g) = true
  · rw [ofTokens_of_balanced hbalanced, ofTokens_of_balanced (hsame.trans hbalanced)]
    exact alike_ofSpan hxs hbalanced _ _
  · have hread := ofTokens_of_not_balanced hbalanced
    rw [hread, ofTokens_of_not_balanced (hsame ▸ hbalanced)]
    exact .error List.infix_rfl .unbalanced hread

end Statement

end

/-! ## Functions on tokens -/

namespace Token

/-- The function keeps the class of every token. -/
structure KeepsClasses (f : Token → Token) : Prop where
  opening : f "(" = "("
  closing : f ")" = ")"
  letter : ∀ v : Letter, ∃ w : Letter, f v.name = w.name
  spelling : ∀ op : Operator, ∀ t ∈ op.spellings, f t ∈ op.spellings
  other : ∀ t, kind t = .other → kind (f t) = .other

/-- What becomes of a letter when its name is replaced. -/
def newLetter (f : Token → Token) (v : Letter) : Letter := (Letter.ofName? (f v.name)).getD v

theorem KeepsClasses.apply_name {f : Token → Token} (hf : KeepsClasses f) (v : Letter) :
    f v.name = (newLetter f v).name := by
  obtain ⟨w, hw⟩ := hf.letter v
  rw [newLetter, hw, Letter.ofName?_name, Option.getD_some]

theorem KeepsClasses.kind_eq {f : Token → Token} (hf : KeepsClasses f) (t : Token) :
    kind (f t) = (kind t).rename (newLetter f) := by
  cases ht : kind t with
  | opening => rw [kind_eq_opening_iff.1 ht, hf.opening, kind_opening, Kind.rename]
  | closing => rw [kind_eq_closing_iff.1 ht, hf.closing, kind_closing, Kind.rename]
  | letter v =>
    obtain rfl := Letter.ofName?_eq_some_iff.1 (kind_eq_letter_iff.1 ht)
    rw [Kind.rename, hf.apply_name, kind_name]
  | operator op =>
    have hspells : t ∈ op.spellings := Operator.ofSpelling?_eq_some_iff.1 (kind_eq_operator_iff.1 ht)
    rw [Kind.rename]
    exact kind_eq_operator_iff.2 (Operator.ofSpelling?_eq_some_iff.2 (hf.spelling op t hspells))
  | other => rw [hf.other t ht, Kind.rename]

theorem KeepsClasses.parallel {f : Token → Token} (hf : KeepsClasses f) (ts : List Token) :
    Parallel (newLetter f) id f ts := fun t _ => hf.kind_eq t

/-- One letter for all, the words for the conditionals, and one word without a meaning for the others. -/
def plain (t : Token) : Token :=
  match kind t with
  | .letter _ => "C"
  | .operator .implies => "impl"
  | .operator .equivalent => "eq"
  | .other => ""
  | _ => t

theorem keepsClasses_plain : KeepsClasses plain where
  opening := rfl
  closing := rfl
  letter v := ⟨⟨2⟩, by rw [plain, kind_name]; rfl⟩
  spelling op := by cases op <;> decide
  other t ht := by simp only [plain, ht]; decide

/-- The tokens are the same, or spell the same operator. -/
def Synonymous (t u : Token) : Prop := t = u ∨ ∃ op : Operator, t ∈ op.spellings ∧ u ∈ op.spellings

theorem Kind.rename_id (k : Kind) : k.rename id = k := by
  cases k <;> rfl

theorem Synonymous.kind_eq {t u : Token} (h : Synonymous t u) : kind u = kind t := by
  rcases h with rfl | ⟨op, ht, hu⟩
  · rfl
  · rw [kind_eq_operator_iff.2 (Operator.ofSpelling?_eq_some_iff.2 ht),
      kind_eq_operator_iff.2 (Operator.ofSpelling?_eq_some_iff.2 hu)]

/-- Two lists with synonyms in the same places are two spellings of the list of pairs. -/
theorem exists_parallel_of_synonymous {ts us : List Token} (h : List.Forall₂ Synonymous ts us) :
    ∃ ps : List (Token × Token), Parallel id Prod.fst Prod.snd ps ∧ ps.map Prod.fst = ts ∧
      ps.map Prod.snd = us := by
  obtain ⟨hlength, hpairs⟩ := List.forall₂_iff_zip.1 h
  refine ⟨ts.zip us, fun p hp => ?_, List.map_fst_zip hlength.le, List.map_snd_zip hlength.ge⟩
  rw [Kind.rename_id, (hpairs hp).kind_eq]

end Token

namespace Malformed

/-- The fault of the given text, with the token to blame replaced. -/
def respelled (f : Token → Token) (text : String) : Malformed → Malformed
  | ambiguousPrecedence _ => ambiguousPrecedence text
  | noLetters _ => noLetters text
  | severalLetters _ => severalLetters text
  | invalidToken t _ => invalidToken (f t) text
  | unbalanced _ => unbalanced text
  | missingOperand op _ => missingOperand op text
  | unexpectedOperand op _ => unexpectedOperand op text

/-- The kind of fault and the operator, without the texts. -/
def bare (e : Malformed) : Malformed := e.respelled (fun _ => "") ""

theorem Alike.expression_eq {f : Token → Token} {span : List Token} {e e' : Malformed}
    (h : Alike id f span e e') : e.expression = text span := by
  cases h <;> exact congrArg text (List.map_id span)

theorem Alike.eq_respelled {f : Token → Token} {span : List Token} {e e' : Malformed}
    (h : Alike id f span e e') : e' = e.respelled f (text (span.map f)) := by
  cases h <;> rfl

theorem Alike.bare_eq {α : Type} {g h : α → Token} {span : List α} {e e' : Malformed}
    (halike : Alike g h span e e') : e'.bare = e.bare := by
  cases halike <;> rfl

end Malformed

namespace Statement

/-- With synonyms in some places a list has the same formula, or a fault of the same kind. -/
theorem alike_of_synonymous {ts us : List Token} (h : List.Forall₂ Synonymous ts us) :
    (∀ s, ofTokens ts = .ok s → ∃ s', ofTokens us = .ok s' ∧ s'.formula = s.formula ∧
      ∀ a, s'.value a = s.value a) ∧
    ∀ e, ofTokens ts = .error e → ∃ e', ofTokens us = .error e' ∧ e'.bare = e.bare := by
  obtain ⟨ps, hps, rfl, rfl⟩ := exists_parallel_of_synonymous h
  rcases (alike_ofTokens hps).elim with ⟨s, s', hs, hs', hformula⟩ |
    ⟨e, e', span, he, he', -, hfault, -⟩
  · rw [Formula.rename_id] at hformula
    refine ⟨fun u hu => ?_, fun e he => ?_⟩
    · obtain rfl := Except.ok.inj (hs.symm.trans hu)
      exact ⟨s', hs', hformula, fun a => by rw [value_eq, value_eq, hformula]⟩
    · rw [hs] at he
      cases he
  · refine ⟨fun u hu => ?_, fun d hd => ?_⟩
    · rw [he] at hu
      cases hu
    · obtain rfl := Except.error.inj (he.symm.trans hd)
      exact ⟨e', he', hfault.bare_eq⟩

/-- A function that keeps the class of every token changes neither whether a list is read nor what it is
read as, but for the names of letters: the value is that of the statement before, under the values of the
new names. A list that is refused is refused for the image of the same stretch of tokens. Spellings of an
operator may also be exchanged in any places. -/
theorem reading_depends_on_classes {f : Token → Token} (hf : KeepsClasses f) (ts : List Token) :
    ((∃ s, ofTokens (ts.map f) = .ok s) ↔ ∃ s, ofTokens ts = .ok s) ∧
      (∀ s s', ofTokens ts = .ok s → ofTokens (ts.map f) = .ok s' →
        s'.formula = s.formula.rename (newLetter f) ∧
          ∀ a, s'.value a =
            (s.value (a.comap (newLetter f))).mapError fun e => ⟨newLetter f e.letter⟩) ∧
      (∀ e, ofTokens ts = .error e → ∃ span, span <:+: ts ∧ e.expression = text span ∧
        ofTokens span = .error e ∧
        ofTokens (ts.map f) = .error (e.respelled f (text (span.map f)))) ∧
      ∀ us, List.Forall₂ Synonymous ts us →
        (∀ s, ofTokens ts = .ok s → ∃ s', ofTokens us = .ok s' ∧ s'.formula = s.formula ∧
          ∀ a, s'.value a = s.value a) ∧
        ∀ e, ofTokens ts = .error e → ∃ e', ofTokens us = .error e' ∧ e'.bare = e.bare := by
  have halike := alike_ofTokens (hf.parallel ts)
  rw [List.map_id] at halike
  rcases halike.elim with ⟨s, s', hs, hs', hformula⟩ | ⟨e, e', span, he, he', hpart, hfault, hread⟩
  · refine ⟨?_, fun u u' hu hu' => ?_, fun e he => ?_, fun us => alike_of_synonymous⟩
    · exact ⟨fun _ => ⟨s, hs⟩, fun _ => ⟨s', hs'⟩⟩
    · obtain rfl := Except.ok.inj (hs.symm.trans hu)
      obtain rfl := Except.ok.inj (hs'.symm.trans hu')
      exact ⟨hformula, value_of_rename hformula⟩
    · rw [hs] at he
      cases he
  · rw [List.map_id] at hread
    refine ⟨?_, fun u u' hu hu' => ?_, fun d hd => ?_, fun us => alike_of_synonymous⟩
    · simp [he, he']
    · rw [he] at hu
      cases hu
    · obtain rfl := Except.error.inj (he.symm.trans hd)
      exact ⟨span, hpart, hfault.expression_eq, hread, hfault.eq_respelled ▸ he'⟩

theorem reading_depends_on_classes_plain :
    KeepsClasses plain ∧
      ofTokens ["A", "=>", "(", "not", "B", ")"] = .ok
        (.binary "A => ( not B )" (.ofList [⟨0⟩, ⟨1⟩]) .implies (.ofLetter ⟨0⟩)
          (.negation "not B" (.singleton ⟨1⟩) (.ofLetter ⟨1⟩))) ∧
      (∃ s, ofTokens ["C", "impl", "(", "not", "C", ")"] = .ok s) ∧
      (∃ s, ofTokens ["A", "impl", "(", "not", "B", ")"] = .ok s ∧
        s.formula = .binary .implies (.letter ⟨0⟩) (.negation (.letter ⟨1⟩))) ∧
      ofTokens ["A", "=>", "(", "B", "xor", ")"] = .error (.invalidToken "xor" "B xor") ∧
      ∃ span, span <:+: ["A", "=>", "(", "B", "xor", ")"] ∧
        ofTokens ["C", "impl", "(", "C", "", ")"] =
          .error (.invalidToken "" (text (span.map plain))) := by
  have hread : ofTokens ["A", "=>", "(", "not", "B", ")"] = .ok
      (.binary "A => ( not B )" (.ofList [⟨0⟩, ⟨1⟩]) .implies (.ofLetter ⟨0⟩)
        (.negation "not B" (.singleton ⟨1⟩) (.ofLetter ⟨1⟩))) := by decide +kernel
  have hfault : ofTokens ["A", "=>", "(", "B", "xor", ")"] =
      .error (.invalidToken "xor" "B xor") := by decide +kernel
  have hsame : List.Forall₂ Synonymous ["A", "=>", "(", "not", "B", ")"]
      ["A", "impl", "(", "not", "B", ")"] :=
    .cons (Or.inl rfl) (.cons (Or.inr ⟨.implies, by decide, by decide⟩)
      (List.forall₂_same.2 fun t _ => Or.inl rfl))
  have hok := reading_depends_on_classes keepsClasses_plain ["A", "=>", "(", "not", "B", ")"]
  obtain ⟨s, hs, hformula, -⟩ := (hok.2.2.2 _ hsame).1 _ hread
  obtain ⟨span, hspan, -, -, hplain⟩ := (reading_depends_on_classes keepsClasses_plain
    ["A", "=>", "(", "B", "xor", ")"]).2.2.1 _ hfault
  exact ⟨keepsClasses_plain, hread, hok.1.2 ⟨_, hread⟩, ⟨s, hs, hformula⟩, hfault, span, hspan, hplain⟩

end Statement

end Propositional

import Propositional.Proofs.LetterSet.Built
import Propositional.Valuation

/-!
# Valuations that are partial maps

A valuation is two words, and equality compares all bits of both, while a value is looked up at the
place of one letter. Two valuations with the same values could still differ, in a stray bit or in a
letter that is true without being bound. No operation leaves such a bit behind (`Regular`): setting a
letter to false takes its bit out of the word of the true letters.

`Written a ws` says that some run of operations makes the valuation `a` and writes the pairs `ws`, the
latest write first. The valuation is then the partial map in which the latest write to a letter counts,
and which run it was cannot be told from it (`written_refines`).
-/

namespace Propositional.Valuation

/-- No bit is set that does not belong to a letter, and only letters with a value are true. -/
structure Regular (a : Valuation) : Prop where
  bound : a.bound.InAlphabet
  subset : ∀ i, a.trues.bits.getLsbD i = true → a.bound.bits.getLsbD i = true

/-! ## Operations keep both words in step -/

theorem Regular.trues {a : Valuation} (h : a.Regular) : a.trues.InAlphabet := by
  intro i hi
  have hbound := h.bound i hi
  rw [Bool.eq_false_iff] at hbound ⊢
  exact mt (h.subset i) hbound

theorem regular_empty : Regular ∅ where
  bound := LetterSet.inAlphabet_empty
  subset _ h := h

theorem Regular.set {a : Valuation} (h : a.Regular) (v : Letter) (b : Bool) :
    (a.set v b).Regular where
  bound := h.bound.insert v
  subset i hi := by
    simp only [Valuation.set, LetterSet.insert, BitVec.getLsbD_or, Bool.or_eq_true]
    cases b with
    | true =>
      simp only [Valuation.set, LetterSet.insert, if_true, BitVec.getLsbD_or, Bool.or_eq_true] at hi
      exact hi.imp_left (h.subset i)
    | false =>
      simp only [Valuation.set, LetterSet.erase, Bool.false_eq_true, if_false, BitVec.getLsbD_and,
        Bool.and_eq_true] at hi
      exact Or.inl (h.subset i hi.1)

theorem Regular.mem_trues_iff {a : Valuation} (h : a.Regular) {v : Letter} :
    v ∈ a.trues ↔ a.get? v = some true := by
  by_cases hv : v ∈ a.bound
  · simp [get?, hv, LetterSet.contains_iff]
  · have htrue : v ∉ a.trues := fun hmem => hv (h.subset _ hmem)
    simp [get?, hv, htrue]

/-- Valuations are equal when they have the same values. -/
theorem Regular.ext {a b : Valuation} (ha : a.Regular) (hb : b.Regular)
    (h : ∀ v, a.get? v = b.get? v) : a = b := by
  have hbound : a.bound = b.bound := by
    refine ha.bound.ext hb.bound fun v => ?_
    have hnone : v ∉ a.domain ↔ v ∉ b.domain := by
      rw [← get?_eq_none_iff, ← get?_eq_none_iff, h]
    exact Decidable.not_iff_not.1 hnone
  have htrues : a.trues = b.trues :=
    ha.trues.ext hb.trues fun v => by rw [ha.mem_trues_iff, hb.mem_trues_iff, h]
  cases a
  cases b
  cases hbound
  cases htrues
  rfl

/-! ## Writing one pair after the other -/

/-- The valuation made by writing the pairs from the last one of the list to the first. -/
def ofWrites (ws : List (Letter × Bool)) : Valuation := ws.foldr (fun p a => a.set p.1 p.2) ∅

/-- The writes that make a row, the latest first: the letters are written from the last one on. -/
def rowWrites (vs : List Letter) (r : Nat) : List (Letter × Bool) :=
  vs.mapIdx fun i v => (v, r.testBit (vs.length - 1 - i))

@[simp] theorem ofWrites_nil : ofWrites [] = ∅ := rfl

@[simp] theorem ofWrites_cons (p : Letter × Bool) (ws : List (Letter × Bool)) :
    ofWrites (p :: ws) = (ofWrites ws).set p.1 p.2 := rfl

theorem ofPairs_eq_ofWrites (ps : List (Letter × Bool)) : ofPairs ps = ofWrites ps.reverse := by
  rw [ofPairs, ofWrites, List.foldr_reverse]

theorem rowWrites_cons (v : Letter) (vs : List Letter) (r : Nat) :
    rowWrites (v :: vs) r = (v, r.testBit vs.length) :: rowWrites vs r := by
  have hplace : ∀ i, (v :: vs).length - 1 - (i + 1) = vs.length - 1 - i := fun i => by
    rw [List.length_cons]
    omega
  rw [rowWrites, List.mapIdx_cons]
  simp only [hplace, rowWrites]
  rfl

theorem ofRow_eq_ofWrites (vs : List Letter) (r : Nat) : ofRow vs r = ofWrites (rowWrites vs r) := by
  induction vs with
  | nil => rfl
  | cons v vs ih => rw [ofRow, ih, rowWrites_cons, ofWrites_cons]

theorem regular_ofWrites (ws : List (Letter × Bool)) : (ofWrites ws).Regular := by
  induction ws with
  | nil => exact regular_empty
  | cons p ws ih => exact ih.set p.1 p.2

/-- The latest write counts. -/
theorem get?_ofWrites (ws : List (Letter × Bool)) (v : Letter) :
    (ofWrites ws).get? v = ws.lookup v := by
  induction ws with
  | nil => exact get?_empty v
  | cons p ws ih =>
    rw [ofWrites_cons, get?_set, ih, List.lookup_cons]
    by_cases hv : v = p.1
    · simp [hv]
    · rw [if_neg hv, beq_eq_false_iff_ne.2 hv]

theorem mem_domain_ofWrites {ws : List (Letter × Bool)} {v : Letter} :
    v ∈ (ofWrites ws).domain ↔ v ∈ ws.map Prod.fst := by
  induction ws with
  | nil => simp
  | cons p ws ih => simp [ih, or_comm]

/-! ## Runs of operations -/

/-- The valuation comes about by operations that write the pairs of the list, the latest first. A row
and a list of pairs make a new valuation, in which no earlier write is left. -/
inductive Written : Valuation → List (Letter × Bool) → Prop
  | empty : Written ∅ []
  | set {a : Valuation} {ws : List (Letter × Bool)} (h : Written a ws) (v : Letter) (b : Bool) :
      Written (a.set v b) ((v, b) :: ws)
  | ofRow (vs : List Letter) (r : Nat) : Written (ofRow vs r) (rowWrites vs r)
  | ofPairs (ps : List (Letter × Bool)) : Written (ofPairs ps) ps.reverse

theorem Written.eq_ofWrites {a : Valuation} {ws : List (Letter × Bool)} (h : Written a ws) :
    a = ofWrites ws := by
  induction h with
  | empty => rfl
  | set h v b ih => rw [ih, ofWrites_cons]
  | ofRow vs r => exact ofRow_eq_ofWrites vs r
  | ofPairs ps => exact ofPairs_eq_ofWrites ps

theorem Written.regular {a : Valuation} {ws : List (Letter × Bool)} (h : Written a ws) :
    a.Regular :=
  h.eq_ofWrites ▸ regular_ofWrites ws

/-- The valuation is the partial map of the latest writes. -/
structure Represents (a : Valuation) (ws : List (Letter × Bool)) : Prop where
  no_stray_bit : ∀ i, 26 ≤ i → a.bound.bits.getLsbD i = false ∧ a.trues.bits.getLsbD i = false
  trues_subset : ∀ i, a.trues.bits.getLsbD i = true → a.bound.bits.getLsbD i = true
  get?_eq_none_iff : ∀ v, a.get? v = none ↔ ∀ p ∈ ws, v ≠ p.1
  /-- The value of a letter is that of the latest write to it. -/
  get?_eq_some_iff : ∀ v b, a.get? v = some b ↔
    ∃ later earlier, ws = later ++ (v, b) :: earlier ∧ ∀ p ∈ later, v ≠ p.1
  get?_set_self : ∀ v b, (a.set v b).get? v = some b
  get?_set_of_ne : ∀ v b w, w ≠ v → (a.set v b).get? w = a.get? w
  /-- The letters with a value are those that were written. -/
  domain_eq : a.domain = .ofList (ws.map Prod.fst)
  mem_domain_iff : ∀ v, v ∈ a.domain ↔ a.get? v ≠ none

theorem Written.represents {a : Valuation} {ws : List (Letter × Bool)} (h : Written a ws) :
    a.Represents ws where
  no_stray_bit i hi := ⟨h.regular.bound i hi, h.regular.trues i hi⟩
  trues_subset := h.regular.subset
  get?_eq_none_iff v := by
    rw [h.eq_ofWrites, get?_ofWrites, List.lookup_eq_none_iff]
    simp only [bne_iff_ne]
  get?_eq_some_iff v b := by
    rw [h.eq_ofWrites, get?_ofWrites, List.lookup_eq_some_iff]
    simp only [bne_iff_ne]
  get?_set_self v b := by rw [get?_set, if_pos rfl]
  get?_set_of_ne v b w hw := by rw [get?_set, if_neg hw]
  domain_eq := by
    refine h.regular.bound.ext (LetterSet.inAlphabet_ofList _) fun v => ?_
    rw [LetterSet.mem_ofList, ← mem_domain_ofWrites, ← h.eq_ofWrites]
    exact Iff.rfl
  mem_domain_iff v := by rw [ne_eq, Valuation.get?_eq_none_iff, Classical.not_not]

/-- A valuation that comes about by operations is the partial map in which the latest write to a letter
counts. Two such valuations are equal exactly when they have the same values, whatever was written on
the way. -/
theorem written_refines {a : Valuation} {ws : List (Letter × Bool)} (h : Written a ws) :
    a.Represents ws ∧ ∀ b us, Written b us → (a = b ↔ ∀ v, a.get? v = b.get? v) := by
  refine ⟨h.represents, fun b us hb => ⟨?_, h.regular.ext hb.regular⟩⟩
  rintro rfl v
  rfl

/-- In a row over `A`, `C` and `A` again the first `A` counts; `C` is true there and set to false
afterwards. The same values written in another order make the same valuation. -/
theorem written_refines_row :
    let a := (ofRow [⟨0⟩, ⟨2⟩, ⟨0⟩] 6).set ⟨2⟩ false
    let b := ofPairs [(⟨2⟩, false), (⟨0⟩, false), (⟨0⟩, true)]
    Written a [(⟨2⟩, false), (⟨0⟩, true), (⟨2⟩, true), (⟨0⟩, false)] ∧
      a.get? ⟨0⟩ = some true ∧ a.get? ⟨1⟩ = none ∧ a.domain = .ofList [⟨0⟩, ⟨2⟩] ∧ a = b := by
  intro a b
  have ha : Written a [(⟨2⟩, false), (⟨0⟩, true), (⟨2⟩, true), (⟨0⟩, false)] :=
    .set (.ofRow [⟨0⟩, ⟨2⟩, ⟨0⟩] 6) ⟨2⟩ false
  have hb : Written b [(⟨0⟩, true), (⟨0⟩, false), (⟨2⟩, false)] := .ofPairs _
  obtain ⟨hrep, hequal⟩ := written_refines ha
  refine ⟨ha, ?_, ?_, ?_, ?_⟩
  · exact (hrep.get?_eq_some_iff _ _).2 ⟨[(⟨2⟩, false)], [(⟨2⟩, true), (⟨0⟩, false)], rfl, by simp⟩
  · exact (hrep.get?_eq_none_iff _).2 (by simp)
  · rw [hrep.domain_eq]
    decide
  · refine (hequal b _ hb).2 fun v => ?_
    rw [ha.eq_ofWrites, hb.eq_ofWrites, get?_ofWrites, get?_ofWrites]
    simp only [List.lookup_cons]
    grind

end Propositional.Valuation

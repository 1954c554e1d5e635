import Propositional.Proofs.LetterSet
import Propositional.Proofs.Statement.Parsed

/-!
# Words that are sets

A word has 32 bits and there are 26 letters. The size of a set counts all bits and equality compares
all of them, while its members are looked up among the lowest 26 only, so that both are right for a
word without stray bits (`InAlphabet`) and for no other. Every operation keeps to the alphabet.

`Built s vs` says that some run of operations makes the set `s` and puts in the letters `vs`; the set that a
statement keeps, once it was read, may be had as well. The set is then the finite set of these letters,
whatever way it is looked at (`built_refines`).
-/

namespace Propositional.LetterSet

/-- No bit is set that does not belong to a letter. -/
def InAlphabet (s : LetterSet) : Prop := ∀ i, 26 ≤ i → s.bits.getLsbD i = false

/-! ## Operations keep to the alphabet -/

theorem inAlphabet_empty : InAlphabet ∅ := fun _ _ => BitVec.getLsbD_zero

theorem inAlphabet_singleton (v : Letter) : (singleton v).InAlphabet := by
  intro i hi
  have hv : i ≠ v.index.val := by omega
  rw [singleton, getLsbD_bit, decide_eq_false hv]

theorem InAlphabet.union {s t : LetterSet} (hs : s.InAlphabet) (ht : t.InAlphabet) :
    (s.union t).InAlphabet := by
  intro i hi
  rw [LetterSet.union, BitVec.getLsbD_or, hs i hi, ht i hi, Bool.or_false]

theorem InAlphabet.insert {s : LetterSet} (h : s.InAlphabet) (v : Letter) :
    (s.insert v).InAlphabet :=
  -- putting a letter in is the union with the set of this letter
  h.union (inAlphabet_singleton v)

theorem InAlphabet.foldl_insert {s : LetterSet} (h : s.InAlphabet) (vs : List Letter) :
    (vs.foldl LetterSet.insert s).InAlphabet := by
  induction vs generalizing s with
  | nil => exact h
  | cons v vs ih => exact ih (h.insert v)

theorem inAlphabet_ofList (vs : List Letter) : (ofList vs).InAlphabet :=
  inAlphabet_empty.foldl_insert vs

/-! ## What sets in the alphabet have in common -/

/-- Sets are equal when they have the same members. -/
theorem InAlphabet.ext {s t : LetterSet} (hs : s.InAlphabet) (ht : t.InAlphabet)
    (h : ∀ v, v ∈ s ↔ v ∈ t) : s = t := by
  have hbits : s.bits = t.bits := by
    apply BitVec.eq_of_getLsbD_eq
    intro i _
    by_cases hi : i < 26
    · exact Bool.eq_iff_iff.2 (h ⟨⟨i, hi⟩⟩)
    · rw [hs i (by omega), ht i (by omega)]
  cases s
  cases t
  cases hbits
  rfl

theorem cpopNatRec_eq_countP {w : Nat} (x : BitVec w) (k : Nat) :
    x.cpopNatRec k 0 = (List.range k).countP x.getLsbD := by
  induction k with
  | zero => rfl
  | succ k ih =>
    rw [BitVec.cpopNatRec_succ, BitVec.cpopNatRec_add, ih, List.range_succ, List.countP_append]
    cases hk : x.getLsbD k <;> simp [hk]

theorem length_toList (s : LetterSet) : s.toList.length = (List.range 26).countP s.bits.getLsbD := by
  have hrange : List.range 26 = Letter.all.map fun v => v.index.val := by decide
  rw [toList, ← List.countP_eq_length_filter, hrange, List.countP_map]
  rfl

/-- There are as many bits as members. -/
theorem InAlphabet.size_eq {s : LetterSet} (h : s.InAlphabet) : s.size = s.toList.length := by
  have hstray : ((List.range 6).map (26 + ·)).countP s.bits.getLsbD = 0 := by
    rw [List.countP_eq_zero]
    intro i hi
    obtain ⟨j, -, rfl⟩ := List.mem_map.1 hi
    rw [h _ (Nat.le_add_right 26 j)]
    exact Bool.false_ne_true
  have hsplit : List.range 32 = List.range 26 ++ (List.range 6).map (26 + ·) := by
    rw [← List.range_add]
  rw [size, BitVec.toNat_cpop, cpopNatRec_eq_countP, hsplit, List.countP_append, hstray,
    length_toList, Nat.add_zero]

theorem InAlphabet.isEmpty_iff {s : LetterSet} (h : s.InAlphabet) :
    s.isEmpty = true ↔ s.toList = [] := by
  have hempty : s.isEmpty = true ↔ s = ∅ := by
    cases s
    exact beq_iff_eq.trans ⟨congrArg mk, congrArg bits⟩
  rw [hempty, List.eq_nil_iff_forall_not_mem]
  simp only [mem_toList]
  constructor
  · rintro rfl
    exact not_mem_empty
  · intro hnone
    exact h.ext inAlphabet_empty fun v => iff_of_false (hnone v) (not_mem_empty v)

theorem InAlphabet.ofList_toList {s : LetterSet} (h : s.InAlphabet) : ofList s.toList = s :=
  (inAlphabet_ofList _).ext h fun v => by rw [mem_ofList, mem_toList]

/-! ## Runs of operations -/

/-- The set comes about by operations that put in the letters of the list, in any order and with
repetitions. -/
inductive Built : LetterSet → List Letter → Prop
  | empty : Built ∅ []
  | singleton (v : Letter) : Built (singleton v) [v]
  | insert {s : LetterSet} {vs : List Letter} (h : Built s vs) (v : Letter) :
      Built (s.insertNew v).2 (v :: vs)
  | union {s t : LetterSet} {us vs : List Letter} (hs : Built s us) (ht : Built t vs) :
      Built (s.union t) (us ++ vs)
  | ofList (vs : List Letter) : Built (ofList vs) vs
  | letters {s : Statement} (h : s.Parsed) : Built s.letters s.formula.leaves

theorem Built.inAlphabet {s : LetterSet} {vs : List Letter} (h : Built s vs) : s.InAlphabet := by
  induction h with
  | empty => exact inAlphabet_empty
  | singleton v => exact inAlphabet_singleton v
  | insert h v ih => exact ih.insert v
  | union hs ht ihs iht => exact ihs.union iht
  | ofList vs => exact inAlphabet_ofList vs
  | letters h =>
    rw [h.exact.letters_eq]
    exact inAlphabet_ofList _

theorem Built.mem_iff {s : LetterSet} {vs : List Letter} (h : Built s vs) {v : Letter} :
    v ∈ s ↔ v ∈ vs := by
  induction h with
  | empty => simp
  | singleton w => simp
  | insert h w ih => rw [insertNew, mem_insert, ih, List.mem_cons, or_comm]
  | union hs ht ihs iht => rw [mem_union, ihs, iht, List.mem_append]
  | ofList vs => exact mem_ofList
  | letters h => exact h.exact.mem_letters

/-- The word is the set of the letters of the list, whatever way it is looked at. -/
structure Represents (s : LetterSet) (vs : List Letter) : Prop where
  no_stray_bit : ∀ i, 26 ≤ i → s.bits.getLsbD i = false
  contains_iff : ∀ v, s.contains v = true ↔ v ∈ vs
  /-- Putting in a letter tells whether it is new. -/
  isNew_iff : ∀ v, (s.insertNew v).1 = true ↔ v ∉ vs
  mem_insertNew : ∀ v, v ∈ (s.insertNew v).2
  mem_insertNew_of_ne : ∀ v w, w ≠ v → (w ∈ (s.insertNew v).2 ↔ w ∈ s)
  mem_toList_iff : ∀ v, v ∈ s.toList ↔ v ∈ vs
  ascending : s.toList.Pairwise fun v w => v.index < w.index
  descending_eq : s.descending = s.toList.reverse
  size_eq : s.size = s.toList.length
  isEmpty_iff : s.isEmpty = true ↔ s.toList = []
  ofList_toList : LetterSet.ofList s.toList = s

theorem Built.represents {s : LetterSet} {vs : List Letter} (h : Built s vs) : s.Represents vs where
  no_stray_bit := h.inAlphabet
  contains_iff _ := h.mem_iff
  isNew_iff v := by
    rw [insertNew, Bool.not_eq_true', ← Bool.not_eq_true, LetterSet.contains_iff, h.mem_iff]
  mem_insertNew _ := mem_insert.2 (Or.inr rfl)
  mem_insertNew_of_ne v w hw := by rw [insertNew, mem_insert, or_iff_left hw]
  mem_toList_iff v := by rw [mem_toList, h.mem_iff]
  ascending := s.pairwise_toList
  descending_eq := s.descending_eq
  size_eq := h.inAlphabet.size_eq
  isEmpty_iff := h.inAlphabet.isEmpty_iff
  ofList_toList := h.inAlphabet.ofList_toList

/-- A set that comes about by operations is the set of the letters put in. The union of two such sets
is that of all letters put in to either, and the two are equal exactly when they have the same
members. -/
theorem built_refines {s : LetterSet} {vs : List Letter} (h : Built s vs) :
    s.Represents vs ∧ ∀ t us, Built t us →
      (∀ v, v ∈ s.union t ↔ v ∈ vs ∨ v ∈ us) ∧ (s = t ↔ ∀ v, v ∈ s ↔ v ∈ t) := by
  refine ⟨h.represents, fun t us ht => ⟨fun v => ?_, ?_⟩⟩
  · rw [mem_union, h.mem_iff, ht.mem_iff]
  · constructor
    · rintro rfl v
      exact Iff.rfl
    · exact h.inAlphabet.ext ht.inAlphabet

/-- The letters of `not C or A` with `Z` put in, and a list with repetitions. -/
theorem built_refines_or :
    let s : Statement := .binary "not C or A" (.ofList [⟨0⟩, ⟨2⟩]) .or
      (.negation "not C" (.singleton ⟨2⟩) (.ofLetter ⟨2⟩)) (.ofLetter ⟨0⟩)
    let t := (s.letters.insertNew ⟨25⟩).2
    let u := LetterSet.ofList [⟨25⟩, ⟨0⟩, ⟨2⟩, ⟨0⟩, ⟨25⟩]
    s.Parsed ∧ Built t [⟨25⟩, ⟨2⟩, ⟨0⟩] ∧ t.toList = [⟨0⟩, ⟨2⟩, ⟨25⟩] ∧ t.size = 3 ∧
      (t.insertNew ⟨2⟩).1 = false ∧ t = u := by
  intro s t u
  have hs : s.Parsed := Or.inr ⟨"not C or A", by decide +kernel⟩
  have ht : Built t [⟨25⟩, ⟨2⟩, ⟨0⟩] := .insert (.letters hs) ⟨25⟩
  have hlist : t.toList = [⟨0⟩, ⟨2⟩, ⟨25⟩] := by decide
  obtain ⟨hrep, hother⟩ := built_refines ht
  refine ⟨hs, ht, hlist, by rw [hrep.size_eq, hlist]; rfl, ?_, ?_⟩
  · rw [Bool.eq_false_iff, ne_eq, hrep.isNew_iff]
    decide
  · refine (hother u _ (.ofList _)).2.2 fun v => ?_
    rw [ht.mem_iff, mem_ofList]
    grind

end Propositional.LetterSet

import Propositional.Letter

/-!
# Sets of letters

A set of letters is one machine word: bit `i` is set when the letter with index `i` is in the set.
Members are listed in alphabetical order, which is the order of the columns of a truth table.
Membership is the view through which every operation is described.
-/

namespace Propositional

/-- A set of letters, kept as a word of 32 bits of which the lowest 26 are used. -/
structure LetterSet where
  bits : BitVec 32
deriving DecidableEq, Repr

namespace LetterSet

/-- The word in which only the bit of `v` is set. -/
def bit (v : Letter) : BitVec 32 := BitVec.twoPow 32 v.index.val

/-- The set without members. -/
def empty : LetterSet := ⟨0⟩

instance : EmptyCollection LetterSet := ⟨empty⟩

/-- The bit of `v` is set. -/
def contains (s : LetterSet) (v : Letter) : Bool := s.bits.getLsbD v.index.val

instance : Membership Letter LetterSet := ⟨fun s v => s.contains v = true⟩

instance (v : Letter) (s : LetterSet) : Decidable (v ∈ s) :=
  inferInstanceAs (Decidable (s.contains v = true))

/-- The set with `v` put in. -/
def insert (s : LetterSet) (v : Letter) : LetterSet := ⟨s.bits ||| bit v⟩

/-- The set with `v` put in, and whether `v` is new to it. -/
def insertNew (s : LetterSet) (v : Letter) : Bool × LetterSet := (!s.contains v, s.insert v)

/-- The set with `v` taken out. -/
def erase (s : LetterSet) (v : Letter) : LetterSet := ⟨s.bits &&& ~~~bit v⟩

/-- The set of the one letter `v`. -/
def singleton (v : Letter) : LetterSet := ⟨bit v⟩

/-- The letters of either set. -/
def union (s t : LetterSet) : LetterSet := ⟨s.bits ||| t.bits⟩

/-- The letters of a list, which may repeat. -/
def ofList (vs : List Letter) : LetterSet := vs.foldl insert ∅

/-- The number of bits set. -/
def size (s : LetterSet) : Nat := s.bits.cpop.toNat

/-- No bit is set. -/
def isEmpty (s : LetterSet) : Bool := s.bits == 0

/-- The members in alphabetical order. -/
def toList (s : LetterSet) : List Letter := Letter.all.filter s.contains

/-- The members from the last letter of the alphabet to the first. -/
def descending (s : LetterSet) : List Letter := Letter.all.reverse.filter s.contains

/-- The members between braces, with a comma and a space between two of them. -/
def display (s : LetterSet) : String :=
  "\x7b" ++ ", ".intercalate (s.toList.map Letter.name) ++ "\x7d"

/-- The members' names in order, with nothing between them. -/
def names (s : LetterSet) : String := String.join (s.toList.map Letter.name)

/-! ## Membership -/

theorem mem_iff {v : Letter} {s : LetterSet} : v ∈ s ↔ s.bits.getLsbD v.index.val = true := Iff.rfl

theorem contains_iff {v : Letter} {s : LetterSet} : s.contains v = true ↔ v ∈ s := Iff.rfl

/-- The bit of a letter is set at the letter's place and nowhere else. -/
theorem getLsbD_bit (v : Letter) (i : Nat) : (bit v).getLsbD i = decide (i = v.index.val) := by
  have hv : v.index.val < 32 := Nat.lt_trans v.index.isLt (by decide)
  rw [bit, BitVec.getLsbD_twoPow]
  by_cases h : i = v.index.val
  · simp [h, hv]
  · simp [h, Ne.symm h]

theorem index_inj {v w : Letter} : v.index.val = w.index.val ↔ v = w := by
  cases v
  cases w
  simp [Fin.ext_iff]

@[simp] theorem not_mem_empty (v : Letter) : v ∉ (∅ : LetterSet) := by
  simp [mem_iff, EmptyCollection.emptyCollection, empty]

@[simp] theorem mem_singleton {v w : Letter} : v ∈ singleton w ↔ v = w := by
  simp [mem_iff, singleton, getLsbD_bit, index_inj]

@[simp] theorem mem_insert {v w : Letter} {s : LetterSet} : v ∈ s.insert w ↔ v ∈ s ∨ v = w := by
  simp [mem_iff, insert, getLsbD_bit, index_inj]

@[simp] theorem mem_erase {v w : Letter} {s : LetterSet} : v ∈ s.erase w ↔ v ∈ s ∧ v ≠ w := by
  have hv : v.index.val < 32 := Nat.lt_trans v.index.isLt (by decide)
  rw [mem_iff, mem_iff, erase, BitVec.getLsbD_and, BitVec.getLsbD_not, getLsbD_bit]
  simp only [hv, index_inj, decide_true, Bool.true_and, Bool.and_eq_true, Bool.not_eq_true',
    decide_eq_false_iff_not, ne_eq]

@[simp] theorem mem_union {v : Letter} {s t : LetterSet} : v ∈ s.union t ↔ v ∈ s ∨ v ∈ t := by
  simp [mem_iff, union]

@[simp] theorem mem_toList {v : Letter} {s : LetterSet} : v ∈ s.toList ↔ v ∈ s := by
  simp [toList, contains_iff]

/-- Collecting starts from nothing and puts the letters in one by one. -/
theorem mem_foldl_insert {v : Letter} (vs : List Letter) (s : LetterSet) :
    v ∈ vs.foldl insert s ↔ v ∈ s ∨ v ∈ vs := by
  induction vs generalizing s with
  | nil => simp
  | cons w ws ih => simp [ih, or_assoc]

@[simp] theorem mem_ofList {v : Letter} {vs : List Letter} : v ∈ ofList vs ↔ v ∈ vs := by
  simp [ofList, mem_foldl_insert]

theorem union_assoc (s t u : LetterSet) : (s.union t).union u = s.union (t.union u) := by
  simp only [union, BitVec.or_assoc]

theorem union_empty (s : LetterSet) : s.union ∅ = s := by
  cases s
  simp [union, EmptyCollection.emptyCollection, empty]

/-- To put letters in one by one is the union with the set of them. -/
theorem foldl_insert_eq (s : LetterSet) (vs : List Letter) : vs.foldl insert s = s.union (ofList vs) := by
  induction vs generalizing s with
  | nil => exact (union_empty s).symm
  | cons v vs ih =>
    have hinsert : s.insert v = s.union ((∅ : LetterSet).insert v) := by
      simp [insert, union, EmptyCollection.emptyCollection, empty]
    rw [ofList, List.foldl_cons, List.foldl_cons, ih, ih (insert ∅ v), hinsert, union_assoc]

theorem ofList_append (us vs : List Letter) : ofList (us ++ vs) = (ofList us).union (ofList vs) := by
  rw [ofList, List.foldl_append, foldl_insert_eq]
  rfl

theorem ofList_singleton (v : Letter) : ofList [v] = singleton v := by
  simp [ofList, insert, singleton, EmptyCollection.emptyCollection, empty]

/-- The reversed listing is the reverse of the listing. -/
theorem descending_eq (s : LetterSet) : s.descending = s.toList.reverse := by
  simp [descending, toList, List.filter_reverse]

end LetterSet

end Propositional

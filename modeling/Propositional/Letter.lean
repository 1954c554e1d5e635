import Propositional.Text.QuotedChar

/-!
# Letters

The propositional letters are the 26 capitals `A` to `Z`, in alphabetical order. A token stands for
a letter when it is that one character and nothing else.
-/

namespace Propositional

/-- A propositional letter, by its place in the alphabet (`A` is 0). -/
structure Letter where
  index : Fin 26
deriving DecidableEq, Repr

/-- A character that is none of the capitals `A` to `Z` was given where a letter has to stand. -/
structure NotALetter where
  found : Char
deriving DecidableEq, Repr

/-- The sentence shown for a character that names no letter. -/
def NotALetter.message (e : NotALetter) : String :=
  "Variable names must be in A..=Z, got " ++ Text.quoteChar e.found

namespace Letter

/-- All letters, in order. -/
def all : List Letter := (List.finRange 26).map Letter.mk

/-- The capital that names the letter. -/
def toChar (v : Letter) : Char := Char.ofNat (v.index.val + 65)

/-- The name as a text of one character. -/
def name (v : Letter) : String := v.toChar.toString

/-- The letter that a character names. -/
def ofChar? (c : Char) : Option Letter :=
  if h : 65 ≤ c.toNat ∧ c.toNat ≤ 90 then some ⟨⟨c.toNat - 65, by omega⟩⟩ else none

/-- The letter that a whole text names: it has to be one capital. -/
def ofName? (s : String) : Option Letter :=
  match s.toList with
  | [c] => ofChar? c
  | _ => none

/-- The letter that a character names, or the complaint that it names none. -/
def read (c : Char) : Except NotALetter Letter :=
  match ofChar? c with
  | some v => .ok v
  | none => .error ⟨c⟩

/-- The letters of a text, in order; the first character that is no letter is refused. -/
def readAll (s : String) : Except NotALetter (List Letter) := s.toList.mapM read

/-! ## Names and letters -/

theorem toNat_toChar (v : Letter) : v.toChar.toNat = v.index.val + 65 := by
  have h : v.index.val + 65 < 0xd800 := by omega
  rw [toChar, Char.ofNat, dif_pos (Or.inl h)]
  rfl

@[simp] theorem ofChar?_toChar (v : Letter) : ofChar? v.toChar = some v := by
  have h := toNat_toChar v
  have hv : v.index.val < 26 := v.index.isLt
  simp only [ofChar?, h]
  rw [dif_pos (by omega)]
  simp

/-- A character names a letter exactly when it is that letter's capital. -/
theorem ofChar?_eq_some_iff {c : Char} {v : Letter} : ofChar? c = some v ↔ c = v.toChar := by
  constructor
  · intro h
    simp only [ofChar?] at h
    split at h
    · rename_i hc
      simp only [Option.some.injEq] at h
      subst h
      apply Char.toNat_inj.1
      rw [toNat_toChar]
      simp only
      omega
    · simp at h
  · rintro rfl
    exact ofChar?_toChar v

@[simp] theorem toList_name (v : Letter) : v.name.toList = [v.toChar] := by
  simp [name]

/-- A text names a letter exactly when it is that letter's name. -/
theorem ofName?_eq_some_iff {s : String} {v : Letter} : ofName? s = some v ↔ s = v.name := by
  rw [← String.toList_inj, toList_name, ofName?]
  split
  · rename_i c h
    simp [h, ofChar?_eq_some_iff]
  · rename_i h
    simp only [reduceCtorEq, false_iff]
    intro hs
    exact h _ hs

@[simp] theorem ofName?_name (v : Letter) : ofName? v.name = some v := ofName?_eq_some_iff.2 rfl

@[simp] theorem mem_all (v : Letter) : v ∈ all := by
  simp only [all, List.mem_map]
  exact ⟨v.index, List.mem_finRange _, rfl⟩

end Letter

end Propositional

/-!
# Blank characters

`isBlank` is the Unicode property White_Space, and `trim` takes the blanks off both ends of a text.
The zero width characters U+200B, U+2060 and U+FEFF do not have the property, so they stay.
-/

namespace Propositional.Text

/-- The 25 characters with the property White_Space, in order of their code points. -/
def blanks : List Char :=
  ['\u0009', '\u000a', '\u000b', '\u000c', '\u000d', ' ', '\u0085', '\u00a0', '\u1680',
   '\u2000', '\u2001', '\u2002', '\u2003', '\u2004', '\u2005', '\u2006', '\u2007', '\u2008',
   '\u2009', '\u200a', '\u2028', '\u2029', '\u202f', '\u205f', '\u3000']

/-- The character has the property White_Space. -/
def isBlank (c : Char) : Bool := blanks.contains c

/-- A list of characters without the blanks at its end. -/
def dropBlanksEnd (cs : List Char) : List Char := (cs.reverse.dropWhile isBlank).reverse

/-- A text without the blanks at its two ends; blanks between other characters stay. -/
def trim (s : String) : String := String.ofList (dropBlanksEnd (s.toList.dropWhile isBlank))

/-! ## Small lemmas -/

theorem isBlank_iff {c : Char} : isBlank c = true ↔ c ∈ blanks := by
  simp [isBlank]

/-- A list that ends with a visible character has no blanks to lose at its end. -/
theorem dropBlanksEnd_concat {cs : List Char} {c : Char} (h : isBlank c = false) :
    dropBlanksEnd (cs ++ [c]) = cs ++ [c] := by
  simp [dropBlanksEnd, h]

/-- Nothing is lost but blanks. -/
theorem exists_append_dropBlanksEnd (cs : List Char) :
    ∃ bs, cs = dropBlanksEnd cs ++ bs ∧ ∀ b ∈ bs, isBlank b = true := by
  refine ⟨(cs.reverse.takeWhile isBlank).reverse, ?_, fun b hb => ?_⟩
  · rw [dropBlanksEnd, ← List.reverse_append, List.takeWhile_append_dropWhile, List.reverse_reverse]
  · exact List.all_eq_true.1 List.all_takeWhile b (List.mem_reverse.1 hb)

end Propositional.Text

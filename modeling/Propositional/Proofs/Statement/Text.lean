import Propositional.Proofs.Statement.Reader
import Propositional.Proofs.Token.Lexer

/-!
# Reading a text

A text that is a letter is read at once, without looking at tokens. That is a short cut: the general
way gives the same statement (`readText_eq`). A text that starts and ends with visible characters has
nothing to trim, so that a written list of clean tokens is read as that list (`readText_of_spaced`).
-/

namespace Propositional

open Token

namespace Text

theorem trim_eq_self {s : String} (hfirst : ∃ c cs, s.toList = c :: cs ∧ isBlank c = false)
    (hlast : ∃ cs c, s.toList = cs ++ [c] ∧ isBlank c = false) : trim s = s := by
  obtain ⟨c, cs, hc, hvisible⟩ := hfirst
  obtain ⟨ds, d, hd, hvisible'⟩ := hlast
  have hdrop : s.toList.dropWhile isBlank = s.toList := by
    rw [hc, List.dropWhile_cons, hvisible]
    rfl
  rw [trim, hdrop, hd, dropBlanksEnd_concat hvisible', ← hd, String.ofList_toList]

theorem isBlank_of_dropWhile_eq_cons {cs ds : List Char} {c : Char}
    (h : cs.dropWhile isBlank = c :: ds) : isBlank c = false := by
  have hhead := List.head?_dropWhile_not isBlank cs
  rw [h] at hhead
  simpa using hhead

/-- What is trimmed is empty or has a visible character at each end, so that nothing more is lost. -/
theorem trim_trim (s : String) : trim (trim s) = trim s := by
  have hlist : (trim s).toList = dropBlanksEnd (s.toList.dropWhile isBlank) := String.toList_ofList
  obtain ⟨bs, hbs, -⟩ := exists_append_dropBlanksEnd (s.toList.dropWhile isBlank)
  rw [← hlist] at hbs
  rcases List.eq_nil_or_concat (trim s).toList with hnil | ⟨ds, d, hconcat⟩
  · rw [trim, hnil, ← String.toList_inj, hnil]
    rfl
  · rw [List.concat_eq_append] at hconcat
    refine trim_eq_self ?_ ⟨ds, d, hconcat, ?_⟩
    · obtain ⟨c, cs, hcons⟩ := List.exists_cons_of_ne_nil (l := (trim s).toList) (by simp [hconcat])
      rw [hcons, List.cons_append] at hbs
      exact ⟨c, cs, hcons, isBlank_of_dropWhile_eq_cons hbs⟩
    · rw [hlist, dropBlanksEnd, List.reverse_eq_iff, List.reverse_concat] at hconcat
      exact isBlank_of_dropWhile_eq_cons hconcat

/-- Where all blanks are spaces, trimming takes away nothing that cutting would keep. -/
theorem lex_trim {s : String} (h : ∀ c ∈ s.toList, isBlank c = true → c = ' ') :
    lex (trim s) = lex s := by
  have hspaces : ∀ bs, (∀ b ∈ bs, b ∈ s.toList) → (∀ b ∈ bs, isBlank b = true) →
      bs = List.replicate bs.length ' ' :=
    fun bs hmem hblank => List.eq_replicate_of_mem fun b hb => h b (hmem b hb) (hblank b hb)
  have hdrop : ∀ c ∈ s.toList.dropWhile isBlank, c ∈ s.toList :=
    fun c hc => (List.dropWhile_suffix isBlank).subset hc
  obtain ⟨bs, hback, hbs⟩ := exists_append_dropBlanksEnd (s.toList.dropWhile isBlank)
  have hfront : ofChars s.toList = ofChars (s.toList.dropWhile isBlank) := by
    conv => lhs; rw [← List.takeWhile_append_dropWhile (p := isBlank) (l := s.toList)]
    rw [hspaces (s.toList.takeWhile isBlank) (fun b hb => (List.takeWhile_prefix isBlank).subset hb)
      (List.all_eq_true.1 List.all_takeWhile), ofChars_replicate_space]
  have hend : ofChars (s.toList.dropWhile isBlank) =
      ofChars (dropBlanksEnd (s.toList.dropWhile isBlank)) := by
    conv => lhs; rw [hback]
    rw [hspaces bs (fun b hb => hdrop b (hback ▸ List.mem_append_right _ hb)) hbs,
      ofChars_append_replicate_space]
  rw [lex, lex, trim, String.toList_ofList, hfront, hend]

end Text

namespace Statement

theorem lex_name (v : Letter) : lex v.name = [v.name] :=
  ofChars_spaced (.single v.name) (by simp [clean_of_kind])

theorem ofPaired_name (v : Letter) : ofPaired v.name [v.name] = .done (ofLetter v) := by
  have hbalanced : balanced [v.name] = true := by
    rw [balanced_cons_of_step (step_name v), balanced_nil]
  have hops : Occurrence.operators (strip [v.name]) = [] := by
    rw [strip_singleton, Occurrence.operators_name]
  have hletter : ofOperatorless v.name [v.name] = .ok (ofLetter v) :=
    ofOperatorless_eq_ok_iff.2 ⟨v, rfl, rfl⟩
  rw [ofPaired, if_pos hbalanced, ofSpan_absent _ hops, strip_singleton, hletter]
  rfl

/-- The short cut for letters changes nothing. -/
theorem readText_eq (expression : String) :
    readText expression = (ofPaired (Text.trim expression) (lex (Text.trim expression))).mapError
      (Malformed.blaming (Text.trim expression)) := by
  simp only [readText]
  split
  · rename_i v hv
    rw [Letter.ofName?_eq_some_iff.1 hv, lex_name, ofPaired_name]
    rfl
  · rfl

theorem readText_of_spaced {ts : List Token} {expression : String}
    (h : Spaced ts expression.toList) (hts : ∀ t ∈ ts, kind t ≠ .other) :
    readText expression = (ofPaired expression ts).mapError (Malformed.blaming expression) := by
  have hvisible : ∀ t ∈ ts, Visible t := fun t ht => visible_of_kind (hts t ht)
  have htrim : Text.trim expression = expression :=
    Text.trim_eq_self (h.exists_cons hvisible) (h.exists_concat hvisible)
  have hlex : lex expression = ts := ofChars_spaced h fun t ht => clean_of_kind (hts t ht)
  rw [readText_eq, htrim, hlex]

end Statement

end Propositional

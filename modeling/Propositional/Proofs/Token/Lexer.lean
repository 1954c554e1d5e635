import Propositional.Text.Blank
import Propositional.Token.Lexer

/-!
# Writing tokens and cutting them apart

`Spaced ts cs` says that the characters `cs` write the tokens one after the other with spaces between
them, at least one wherever no parenthesis stands beside the gap. Cutting gives the tokens back when
each of them is `Clean`: a parenthesis, or a word without spaces and parentheses (`ofChars_spaced`).

Tokens that mean something, which are those of every kind but `other`, are clean and hold no blanks.
-/

namespace Propositional.Token

/-- A character that can stand inside a word. -/
def InWord (c : Char) : Prop := c ≠ ' ' ∧ c ≠ '(' ∧ c ≠ ')'

/-- A token that cutting can give: a parenthesis, or a word that is not empty. -/
def Clean (t : Token) : Prop := isParen t = true ∨ (t.toList ≠ [] ∧ ∀ c ∈ t.toList, InWord c)

/-- A token with something to see at both ends. -/
def Visible (t : Token) : Prop := t.toList ≠ [] ∧ ∀ c ∈ t.toList, Text.isBlank c = false

instance (c : Char) : Decidable (InWord c) :=
  inferInstanceAs (Decidable (c ≠ ' ' ∧ c ≠ '(' ∧ c ≠ ')'))

instance (t : Token) : Decidable (Clean t) :=
  have := List.decidableBAll InWord t.toList
  inferInstanceAs (Decidable (isParen t = true ∨ (t.toList ≠ [] ∧ ∀ c ∈ t.toList, InWord c)))

instance (t : Token) : Decidable (Visible t) :=
  have := List.decidableBAll (fun c => Text.isBlank c = false) t.toList
  inferInstanceAs (Decidable (t.toList ≠ [] ∧ ∀ c ∈ t.toList, Text.isBlank c = false))

/-- The characters write the tokens with spaces between them. Two words need at least one space. -/
inductive Spaced : List Token → List Char → Prop
  | single (t : Token) : Spaced [t] t.toList
  | cons {t u : Token} {ts : List Token} {cs : List Char} (n : Nat)
      (gap : 0 < n ∨ isParen t = true ∨ isParen u = true) (h : Spaced (u :: ts) cs) :
      Spaced (t :: u :: ts) (t.toList ++ List.replicate n ' ' ++ cs)

/-! ## Cutting -/

theorem cut_append {w : List Char} (h : ∀ c ∈ w, InWord c) (cs : List Char) :
    cut (w ++ cs) = (w ++ (cut cs).1, (cut cs).2) := by
  induction w with
  | nil => rfl
  | cons c w ih =>
    obtain ⟨hspace, hopen, hclose⟩ := h c (by simp)
    rw [List.cons_append, cut, ih fun d hd => h d (List.mem_cons_of_mem c hd)]
    simp only [hspace, hopen, hclose, if_false, List.cons_append]

/-- The word in front of a space, a parenthesis or the end is a token. -/
theorem ofChars_word {w : List Char} (hw : w ≠ []) (h : ∀ c ∈ w, InWord c) {cs : List Char}
    (hcs : (cut cs).1 = []) : ofChars (w ++ cs) = String.ofList w :: ofChars cs := by
  obtain ⟨c, w, rfl⟩ := List.exists_cons_of_ne_nil hw
  rw [ofChars, cut_append h, hcs, List.append_nil, flush_cons, ofChars, hcs, flush_nil]

theorem ofChars_replicate_space (n : Nat) (cs : List Char) :
    ofChars (List.replicate n ' ' ++ cs) = ofChars cs := by
  induction n with
  | zero => rfl
  | succ n ih => rw [List.replicate_succ, List.cons_append, ofChars_space, ih]

/-- Spaces at the end are no part of a word. -/
theorem cut_append_replicate_space (cs : List Char) (n : Nat) :
    cut (cs ++ List.replicate n ' ') = cut cs := by
  induction cs with
  | nil =>
    rw [List.nil_append]
    induction n with
    | zero => rfl
    | succ n ih => simp [List.replicate_succ, cut, ih]
  | cons c cs ih => rw [List.cons_append, cut, ih, cut]

theorem ofChars_append_replicate_space (cs : List Char) (n : Nat) :
    ofChars (cs ++ List.replicate n ' ') = ofChars cs := by
  rw [ofChars, cut_append_replicate_space, ofChars]

theorem ofChars_paren {t : Token} (h : isParen t = true) (cs : List Char) :
    ofChars (t.toList ++ cs) = t :: ofChars cs := by
  rcases isParen_iff.1 h with rfl | rfl
  · exact ofChars_opening cs
  · exact ofChars_closing cs

/-- A clean token in front of the rest is cut off, if no word goes on behind it. -/
theorem ofChars_clean {t : Token} (h : Clean t) {cs : List Char}
    (hcut : isParen t = false → (cut cs).1 = []) : ofChars (t.toList ++ cs) = t :: ofChars cs := by
  cases ht : isParen t with
  | true => exact ofChars_paren ht cs
  | false =>
    rcases h with hparen | ⟨hne, hword⟩
    · rw [ht] at hparen
      cases hparen
    · rw [ofChars_word hne hword (hcut ht), String.ofList_toList]

/-- No word goes across a gap: a space comes first in it, or a parenthesis behind it. -/
theorem cut_gap {u : Token} {ts : List Token} {cs : List Char} (n : Nat)
    (gap : 0 < n ∨ isParen u = true) (h : Spaced (u :: ts) cs) :
    (cut (List.replicate n ' ' ++ cs)).1 = [] := by
  cases n with
  | succ n => rfl
  | zero =>
    have hu : isParen u = true := by
      rcases gap with gap | gap
      · omega
      · exact gap
    obtain ⟨ds, rfl⟩ : ∃ ds, cs = u.toList ++ ds := by
      cases h with
      | single => exact ⟨[], by simp⟩
      | cons n gap h => exact ⟨_, List.append_assoc _ _ _⟩
    rcases isParen_iff.1 hu with rfl | rfl <;> rfl

/-- Cutting undoes writing, however many spaces there are. -/
theorem ofChars_spaced {ts : List Token} {cs : List Char} (h : Spaced ts cs)
    (hclean : ∀ t ∈ ts, Clean t) : ofChars cs = ts := by
  induction h with
  | single t =>
    rcases hclean t (by simp) with ht | ⟨hne, hword⟩
    · simpa using ofChars_paren ht []
    · simpa using ofChars_word hne hword (show (cut []).1 = [] from rfl)
  | @cons t u ts cs n gap h ih =>
    have hrest := ih fun v hv => hclean v (List.mem_cons_of_mem t hv)
    rw [List.append_assoc]
    by_cases ht : isParen t = true
    · rw [ofChars_paren ht, ofChars_replicate_space, hrest]
    · rcases hclean t (by simp) with ht' | ⟨hne, hword⟩
      · exact absurd ht' ht
      · have hgap : 0 < n ∨ isParen u = true := by
          rcases gap with gap | gap | gap
          · exact Or.inl gap
          · exact absurd gap ht
          · exact Or.inr gap
        rw [ofChars_word hne hword (cut_gap n hgap h), ofChars_replicate_space, hrest,
          String.ofList_toList]

/-- Single spaces are enough. -/
theorem spaced_text {ts : List Token} (h : ts ≠ []) : Spaced ts (text ts).toList := by
  induction ts with
  | nil => exact absurd rfl h
  | cons t ts ih =>
    cases ts with
    | nil =>
      rw [text, String.intercalate_singleton]
      exact .single t
    | cons u ts =>
      have hrest := ih (List.cons_ne_nil u ts)
      rw [text, String.intercalate_cons_cons, String.toList_append, String.toList_append]
      exact .cons 1 (Or.inl Nat.zero_lt_one) hrest

theorem lex_text {ts : List Token} (h : ∀ t ∈ ts, Clean t) : lex (text ts) = ts := by
  cases ts with
  | nil => rfl
  | cons t ts => exact ofChars_spaced (spaced_text (List.cons_ne_nil t ts)) h

/-! ## Ends of a written text -/

theorem Visible.exists_cons {t : Token} (h : Visible t) :
    ∃ c cs, t.toList = c :: cs ∧ Text.isBlank c = false := by
  obtain ⟨c, cs, hcs⟩ := List.exists_cons_of_ne_nil h.1
  exact ⟨c, cs, hcs, h.2 c (by simp [hcs])⟩

theorem Visible.exists_concat {t : Token} (h : Visible t) :
    ∃ cs c, t.toList = cs ++ [c] ∧ Text.isBlank c = false := by
  refine ⟨_, _, (List.dropLast_concat_getLast h.1).symm, ?_⟩
  exact h.2 _ (List.getLast_mem h.1)

theorem Spaced.exists_cons {ts : List Token} {cs : List Char} (h : Spaced ts cs)
    (hts : ∀ t ∈ ts, Visible t) : ∃ c ds, cs = c :: ds ∧ Text.isBlank c = false := by
  cases h with
  | single t => exact (hts t (by simp)).exists_cons
  | @cons t u ts cs n gap h =>
    obtain ⟨c, ds, hds, hc⟩ := (hts t (by simp)).exists_cons
    exact ⟨c, _, by rw [hds, List.append_assoc, List.cons_append], hc⟩

theorem Spaced.exists_concat {ts : List Token} {cs : List Char} (h : Spaced ts cs)
    (hts : ∀ t ∈ ts, Visible t) : ∃ ds c, cs = ds ++ [c] ∧ Text.isBlank c = false := by
  induction h with
  | single t => exact (hts t (by simp)).exists_concat
  | @cons t u ts cs n gap h ih =>
    obtain ⟨ds, c, rfl, hc⟩ := ih fun v hv => hts v (List.mem_cons_of_mem t hv)
    exact ⟨_, c, (List.append_assoc _ ds [c]).symm, hc⟩

/-! ## Tokens that mean something -/

/-- The tokens that mean something are the parentheses, the letters and the spellings. -/
theorem of_kind_ne_other {P : Token → Prop} {t : Token} (h : kind t ≠ .other) (hopen : P "(")
    (hclose : P ")") (hletter : ∀ v : Letter, P v.name)
    (hword : ∀ entry ∈ Operator.spellingTable, P entry.1) : P t := by
  cases hk : kind t with
  | opening => exact kind_eq_opening_iff.1 hk ▸ hopen
  | closing => exact kind_eq_closing_iff.1 hk ▸ hclose
  | letter v => exact Letter.ofName?_eq_some_iff.1 (kind_eq_letter_iff.1 hk) ▸ hletter v
  | operator op =>
    have hmem := Operator.ofSpelling?_eq_some_iff.1 (kind_eq_operator_iff.1 hk)
    obtain ⟨entry, hentry, rfl⟩ := List.mem_map.1 hmem
    exact hword entry (List.mem_filter.1 hentry).1
  | other => exact absurd hk h

theorem toNat_bounds_of_mem_name {v : Letter} {c : Char} (h : c ∈ v.name.toList) :
    65 ≤ c.toNat ∧ c.toNat ≤ 90 := by
  rw [Letter.toList_name, List.mem_singleton] at h
  have := v.index.isLt
  rw [h, Letter.toNat_toChar]
  omega

theorem clean_of_kind {t : Token} (h : kind t ≠ .other) : Clean t := by
  refine of_kind_ne_other h (by decide) (by decide) (fun v => Or.inr ⟨by simp, fun c hc => ?_⟩)
    (by decide)
  have hbounds := toNat_bounds_of_mem_name hc
  refine ⟨?_, ?_, ?_⟩ <;> rintro rfl <;> revert hbounds <;> decide

theorem visible_of_kind {t : Token} (h : kind t ≠ .other) : Visible t := by
  refine of_kind_ne_other h (by decide) (by decide) (fun v => ⟨by simp, fun c hc => ?_⟩) (by decide)
  have hblanks : Text.blanks.all (fun b => decide (b.toNat < 65 ∨ 90 < b.toNat)) = true := by decide
  rw [Bool.eq_false_iff, ne_eq, Text.isBlank_iff]
  intro hmem
  have houtside := of_decide_eq_true (List.all_eq_true.1 hblanks c hmem)
  have hbounds := toNat_bounds_of_mem_name hc
  omega

end Propositional.Token

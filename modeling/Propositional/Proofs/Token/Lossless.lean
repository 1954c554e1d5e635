import Propositional.Proofs.Token.Lexer

/-!
# Cutting loses nothing but spaces

Cutting goes through a text from its end and keeps the word that the rest begins with. What it does with
one more character depends on whether that is a space, a parenthesis or part of a word
(`cut_induction`). Joined without spaces the tokens are the text without its spaces
(`flatMap_toList_ofChars`), a space cuts a text in two that are cut apart on their own
(`ofChars_append_space`), and each token can be found again in the text, with what is cut from the text
before it and behind it (`exists_front_ofChars`). Two words never touch (`exists_words_ofChars`).
-/

namespace Propositional.Token

/-! ## One character at a time -/

theorem cut_word {c : Char} (h : InWord c) (cs : List Char) :
    cut (c :: cs) = (c :: (cut cs).1, (cut cs).2) :=
  cut_append (w := [c]) (by simpa using h) cs

theorem inWord_or (c : Char) : c = ' ' ∨ c = '(' ∨ c = ')' ∨ InWord c := by
  unfold InWord
  by_cases hspace : c = ' '
  · exact Or.inl hspace
  by_cases hopen : c = '('
  · exact Or.inr (Or.inl hopen)
  by_cases hclose : c = ')'
  · exact Or.inr (Or.inr (Or.inl hclose))
  exact Or.inr (Or.inr (Or.inr ⟨hspace, hopen, hclose⟩))

/-- Cutting makes a difference between spaces, parentheses and characters of words only. -/
theorem cut_induction {P : List Char → Prop} (nil : P [])
    (space : ∀ cs, P cs → P (' ' :: cs)) (opening : ∀ cs, P cs → P ('(' :: cs))
    (closing : ∀ cs, P cs → P (')' :: cs))
    (word : ∀ c cs, InWord c → P cs → P (c :: cs)) (cs : List Char) : P cs := by
  induction cs with
  | nil => exact nil
  | cons c cs ih =>
    rcases inWord_or c with rfl | rfl | rfl | hc
    · exact space cs ih
    · exact opening cs ih
    · exact closing cs ih
    · exact word c cs hc ih

/-- The rest of a text begins with no word when it begins with no character of a word. -/
theorem cut_fst_eq_nil_iff {cs : List Char} :
    (cut cs).1 = [] ↔ ∀ c ds, cs = c :: ds → ¬ InWord c := by
  constructor
  · rintro h c ds rfl hc
    rw [cut_word hc] at h
    cases h
  · intro h
    cases cs with
    | nil => rfl
    | cons c cs =>
      rcases inWord_or c with rfl | rfl | rfl | hc
      · rfl
      · rfl
      · rfl
      · exact absurd hc (h c cs rfl)

/-! ## Tokens that cutting gives -/

theorem clean_flush {w : List Char} {ts : List Token} (hw : ∀ c ∈ w, InWord c)
    (hts : ∀ t ∈ ts, Clean t) : ∀ t ∈ flush w ts, Clean t := by
  cases w with
  | nil => exact hts
  | cons c w =>
    have hword : Clean (String.ofList (c :: w)) := by
      refine Or.inr ?_
      rw [String.toList_ofList]
      exact ⟨List.cons_ne_nil c w, hw⟩
    intro t ht
    rcases List.mem_cons.1 ht with rfl | ht
    · exact hword
    · exact hts t ht

theorem clean_cut (cs : List Char) :
    (∀ c ∈ (cut cs).1, InWord c) ∧ ∀ t ∈ (cut cs).2, Clean t := by
  have hnone : ∀ c ∈ ([] : List Char), InWord c := by simp
  have hparen : ∀ {t : Token} {cs : List Char}, isParen t = true →
      (∀ u ∈ ofChars cs, Clean u) → ∀ u ∈ t :: ofChars cs, Clean u := by
    intro t cs ht hcs u hu
    rcases List.mem_cons.1 hu with rfl | hu
    · exact Or.inl ht
    · exact hcs u hu
  induction cs using cut_induction with
  | nil => exact ⟨hnone, by simp [cut]⟩
  | space cs ih => exact ⟨hnone, clean_flush ih.1 ih.2⟩
  | opening cs ih => exact ⟨hnone, hparen rfl (clean_flush ih.1 ih.2)⟩
  | closing cs ih => exact ⟨hnone, hparen rfl (clean_flush ih.1 ih.2)⟩
  | word c cs hc ih =>
    rw [cut_word hc]
    refine ⟨fun d hd => ?_, ih.2⟩
    rcases List.mem_cons.1 hd with rfl | hd
    · exact hc
    · exact ih.1 d hd

theorem clean_of_mem_ofChars {cs : List Char} : ∀ t ∈ ofChars cs, Clean t :=
  clean_flush (clean_cut cs).1 (clean_cut cs).2

theorem flatMap_toList_flush (w : List Char) (ts : List Token) :
    (flush w ts).flatMap String.toList = w ++ ts.flatMap String.toList := by
  cases w with
  | nil => rfl
  | cons c w => rw [flush_cons, List.flatMap_cons, String.toList_ofList]

/-- The characters of the tokens are those of the text, in the same order, without the spaces. -/
theorem flatMap_toList_ofChars (cs : List Char) :
    (ofChars cs).flatMap String.toList = cs.filter (· ≠ ' ') := by
  induction cs using cut_induction with
  | nil => rfl
  | space cs ih => rw [ofChars_space, ih, List.filter_cons_of_neg (by simp)]
  | opening cs ih =>
    rw [ofChars_opening, List.flatMap_cons, ih, List.filter_cons_of_pos (by simp)]
    rfl
  | closing cs ih =>
    rw [ofChars_closing, List.flatMap_cons, ih, List.filter_cons_of_pos (by simp)]
    rfl
  | word c cs hc ih =>
    have hne : c ≠ ' ' := hc.1
    rw [ofChars, flatMap_toList_flush] at ih ⊢
    rw [cut_word hc, List.cons_append, ih, List.filter_cons_of_pos (by simpa using hne)]

/-! ## Texts next to each other -/

theorem flush_append (w : List Char) (us ts : List Token) :
    flush w (us ++ ts) = flush w us ++ ts := by
  cases w <;> rfl

theorem cut_append_space (cs ds : List Char) :
    cut (cs ++ ' ' :: ds) = ((cut cs).1, (cut cs).2 ++ ofChars ds) := by
  have hflush : ∀ {cs : List Char}, cut (cs ++ ' ' :: ds) = ((cut cs).1, (cut cs).2 ++ ofChars ds) →
      ofChars (cs ++ ' ' :: ds) = ofChars cs ++ ofChars ds := by
    intro cs h
    rw [ofChars, h, flush_append]
    rfl
  induction cs using cut_induction with
  | nil => rfl
  | space cs ih => exact congrArg (Prod.mk []) (hflush ih)
  | opening cs ih => exact congrArg (fun ts => ([], "(" :: ts)) (hflush ih)
  | closing cs ih => exact congrArg (fun ts => ([], ")" :: ts)) (hflush ih)
  | word c cs hc ih => rw [List.cons_append, cut_word hc, cut_word hc, ih]

/-- A space belongs to no token, so that what stands on its two sides is cut apart on its own. -/
theorem ofChars_append_space (cs ds : List Char) :
    ofChars (cs ++ ' ' :: ds) = ofChars cs ++ ofChars ds := by
  rw [ofChars, cut_append_space, flush_append]
  rfl

/-! ## The place of a token -/

/-- The word that a text begins with ends where the rest is cut apart on its own. -/
theorem exists_rest_cut (cs : List Char) :
    ∃ rest, cs = (cut cs).1 ++ rest ∧ (cut rest).1 = [] ∧ ofChars rest = (cut cs).2 := by
  induction cs using cut_induction with
  | nil => exact ⟨[], rfl, rfl, rfl⟩
  | space cs ih => exact ⟨' ' :: cs, rfl, rfl, rfl⟩
  | opening cs ih => exact ⟨'(' :: cs, rfl, rfl, rfl⟩
  | closing cs ih => exact ⟨')' :: cs, rfl, rfl, rfl⟩
  | word c cs hc ih =>
    obtain ⟨rest, hcs, hrest⟩ := ih
    rw [cut_word hc]
    exact ⟨rest, congrArg (c :: ·) hcs, hrest⟩

/-- The first token stands behind spaces, and no word goes on behind it. -/
theorem exists_front_ofChars {cs : List Char} {t : Token} {ts : List Token}
    (h : ofChars cs = t :: ts) :
    ∃ n rest, cs = List.replicate n ' ' ++ t.toList ++ rest ∧ ofChars rest = ts ∧
      (isParen t = false → (cut rest).1 = []) := by
  induction cs using cut_induction with
  | nil => cases h
  | space cs ih =>
    obtain ⟨n, rest, rfl, hrest⟩ := ih h
    exact ⟨n + 1, rest, by simp [List.replicate_succ], hrest⟩
  | opening cs ih =>
    cases h
    exact ⟨0, cs, rfl, rfl, by simp [isParen]⟩
  | closing cs ih =>
    cases h
    exact ⟨0, cs, rfl, rfl, by simp [isParen]⟩
  | word c cs hc ih =>
    obtain ⟨rest, hcs, hcut, hrest⟩ := exists_rest_cut (c :: cs)
    rw [ofChars, cut_word hc, flush_cons] at h
    rw [cut_word hc] at hcs hrest
    cases h
    exact ⟨0, rest, by rw [String.toList_ofList]; exact hcs, hrest, fun _ => hcut⟩

theorem exists_cons_of_word {t : Token} (h : Clean t) (ht : isParen t = false) :
    ∃ c cs, t.toList = c :: cs ∧ InWord c := by
  rcases h with hparen | ⟨hne, hword⟩
  · rw [ht] at hparen
    cases hparen
  · obtain ⟨c, cs, hcs⟩ := List.exists_cons_of_ne_nil hne
    exact ⟨c, cs, hcs, hword c (by rw [hcs]; exact List.mem_cons_self)⟩

/-- Two words that follow one another are found again in the text with spaces between them, and the
tokens before and behind them are those of the text before and behind. -/
theorem exists_words_ofChars {cs : List Char} {us vs : List Token} {t u : Token}
    (h : ofChars cs = us ++ t :: u :: vs) (ht : isParen t = false) (hu : isParen u = false) :
    ∃ front back n, cs = front ++ t.toList ++ List.replicate (n + 1) ' ' ++ u.toList ++ back ∧
      ofChars front = us ∧ ofChars back = vs := by
  have hclean : ∀ t ∈ ofChars cs, Clean t := clean_of_mem_ofChars
  rw [h] at hclean
  induction us generalizing cs with
  | nil =>
    obtain ⟨m, rest, rfl, hrest, hcut⟩ := exists_front_ofChars h
    obtain ⟨n, back, rfl, hback, -⟩ := exists_front_ofChars hrest
    cases n with
    | zero =>
      -- without a space the second word would go on with the first
      obtain ⟨c, ds, hds, hc⟩ := exists_cons_of_word (hclean u (by simp)) hu
      refine absurd hc (cut_fst_eq_nil_iff.1 (hcut ht) c (ds ++ back) ?_)
      rw [hds]
      rfl
    | succ n =>
      refine ⟨List.replicate m ' ', back, n, by simp only [List.append_assoc], ?_, hback⟩
      simpa using ofChars_replicate_space m []
  | cons a us ih =>
    obtain ⟨m, rest, rfl, hrest, hcut⟩ := exists_front_ofChars h
    obtain ⟨front, back, n, rfl, hfront, hback⟩ :=
      ih hrest fun v hv => hclean v (List.mem_cons_of_mem a hv)
    refine ⟨List.replicate m ' ' ++ a.toList ++ front, back, n, by simp only [List.append_assoc],
      ?_, hback⟩
    have hstop : isParen a = false → (cut front).1 = [] := by
      intro ha
      rw [cut_fst_eq_nil_iff]
      rintro c ds rfl
      exact cut_fst_eq_nil_iff.1 (hcut ha) c _ rfl
    rw [List.append_assoc, ofChars_replicate_space, ofChars_clean (hclean a (by simp)) hstop, hfront]

/-- Cutting a text gives clean tokens, which hold all characters of the text but its spaces, in the
same order, and where two of them are words, spaces stand between these in the text. Cutting undoes
joining with single spaces, and what stands on the two sides of a space is cut apart on its own. -/
theorem lex_keeps_all_but_spaces (s : String) :
    (∀ t ∈ lex s, Clean t) ∧
      String.join (lex s) = String.ofList (s.toList.filter (· ≠ ' ')) ∧
      (∀ us t u vs, lex s = us ++ t :: u :: vs → isParen t = false → isParen u = false →
        ∃ front back n, s = front ++ t ++ String.ofList (List.replicate (n + 1) ' ') ++ u ++ back ∧
          lex front = us ∧ lex back = vs) ∧
      lex (text (lex s)) = lex s ∧
      (∀ ts, (∀ t ∈ ts, Clean t) → lex (text ts) = ts) ∧
      ∀ other, lex (s ++ " " ++ other) = lex s ++ lex other := by
  have hclean : ∀ t ∈ lex s, Clean t := clean_of_mem_ofChars
  refine ⟨hclean, ?_, fun us t u vs h ht hu => ?_, lex_text hclean, fun ts => lex_text, fun other => ?_⟩
  · rw [← String.toList_inj, String.toList_join, String.toList_ofList]
    exact flatMap_toList_ofChars s.toList
  · obtain ⟨front, back, n, hs, hfront, hback⟩ := exists_words_ofChars h ht hu
    refine ⟨String.ofList front, String.ofList back, n, ?_, ?_, ?_⟩
    · rw [← String.toList_inj, hs]
      simp only [String.toList_append, String.toList_ofList]
    · rw [lex, String.toList_ofList, hfront]
    · rw [lex, String.toList_ofList, hback]
  · rw [lex, String.toList_append, String.toList_append, List.append_assoc]
    exact ofChars_append_space s.toList other.toList

/-- Words may hold any characters but spaces and parentheses, also a no-break space. -/
theorem lex_keeps_all_but_spaces_unicode :
    let s := " (¬É)xor   a\u00a0b ("
    lex s = ["(", "¬É", ")", "xor", "a\u00a0b", "("] ∧ String.join (lex s) = "(¬É)xora\u00a0b(" ∧
      (∃ front back n, s = front ++ "xor" ++ String.ofList (List.replicate (n + 1) ' ') ++ "a\u00a0b" ++
        back ∧ lex front = ["(", "¬É", ")"] ∧ lex back = ["("]) ∧
      lex (text ["é", "(", "=>"]) = ["é", "(", "=>"] := by
  intro s
  have hlex : lex s = ["(", "¬É", ")", "xor", "a\u00a0b", "("] := by decide +kernel
  obtain ⟨-, hjoin, hwords, -, hjoined, -⟩ := lex_keeps_all_but_spaces s
  refine ⟨hlex, ?_, hwords ["(", "¬É", ")"] "xor" "a\u00a0b" ["("] hlex rfl rfl,
    hjoined _ (by decide)⟩
  rw [hjoin]
  decide +kernel

end Propositional.Token

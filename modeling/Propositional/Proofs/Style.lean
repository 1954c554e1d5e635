import Propositional.Proofs.Token.Balance
import Propositional.Proofs.Token.Lexer
import Propositional.Statement.Header

/-!
# Tokens in a heading

A heading leaves out some of the spaces between its tokens, but no two tokens run together for it: its
tokens can be cut apart again, also after each of its characters was expanded in some way
(`ofChars_tokensFrom`). Otherwise it holds the characters of its tokens only (`mem_tokensFrom`).
-/

namespace Propositional

open Token

theorem Operator.ne_identity_of_spells {op : Operator} {t : Token} (h : operator? t = some op) :
    op ≠ .identity := by
  rintro rfl
  exact Operator.ofSpelling?_ne_identity t h

namespace Style

theorem token_operator (style : Style) {t : Token} {op : Operator} (h : operator? t = some op) :
    style.token t = style.symbol op := by
  rw [token, h]

theorem token_name (style : Style) (v : Letter) : style.token v.name = v.name := by
  rw [token, operator?_name]

/-- A heading holds the characters of its tokens and spaces. -/
theorem mem_tokensFrom {style : Style} {c : Char} {ts : List Token} {hugged : Bool}
    (h : c ∈ (style.tokensFrom hugged ts).toList) :
    c = ' ' ∨ ∃ t ∈ ts, c ∈ (style.token t).toList := by
  induction ts generalizing hugged with
  | nil => cases h
  | cons t ts ih =>
    rw [tokensFrom, String.toList_append, String.toList_append, List.mem_append,
      List.mem_append] at h
    rcases h with (hgap | ht) | hrest
    · split at hgap
      · cases hgap
      · exact Or.inl (List.mem_singleton.1 hgap)
    · exact Or.inr ⟨t, List.mem_cons_self, ht⟩
    · refine (ih hrest).imp_right ?_
      rintro ⟨u, hu, hc⟩
      exact ⟨u, List.mem_cons_of_mem t hu, hc⟩

theorem not_mem_tokens {style : Style} {c : Char} {ts : List Token} (hspace : c ≠ ' ')
    (hts : ∀ t ∈ ts, c ∉ (style.token t).toList) : c ∉ (style.tokens ts).toList := by
  intro h
  rcases mem_tokensFrom h with heq | ⟨t, ht, hc⟩
  · exact hspace heq
  · exact hts t ht hc

/-- A token that means something has no blanks in a heading either. -/
theorem visible_token {style : Style} {t : Token} (h : kind t ≠ .other) :
    Visible (style.token t) := by
  cases hop : operator? t with
  | none =>
    rw [token, hop]
    exact visible_of_kind h
  | some op =>
    rw [token_operator style hop]
    have hne := Operator.ne_identity_of_spells hop
    cases style <;> cases op <;> first | exact absurd rfl hne | decide

variable {style : Style} {f : Char → List Char}

/-- Unless it is told to hug, a heading goes on with a space or a parenthesis. -/
theorem cut_tokensFrom (hspace : f ' ' = [' ']) (hclosing : f ')' = [')']) (ts : List Token) :
    (cut ((style.tokensFrom false ts).toList.flatMap f)).1 = [] := by
  cases ts with
  | nil => rfl
  | cons t ts =>
    simp only [tokensFrom, String.toList_append, List.flatMap_append, List.append_assoc]
    by_cases ht : t = ")"
    · have htoken : (style.token ")").toList = [')'] := by
        cases style <;> decide
      subst ht
      simp only [htoken, List.flatMap_singleton, hclosing]
      rfl
    · have hgap : (if (false || t == ")") = true then "" else " ") = " " := by simp [ht]
      have hchars : " ".toList = [' '] := rfl
      rw [hgap, hchars, List.flatMap_singleton, hspace]
      rfl

/-- Cutting the expanded characters of a heading gives one token for each that was written. -/
theorem ofChars_tokensFrom {out : Token → Token} {ts : List Token} (hspace : f ' ' = [' '])
    (hclosing : f ')' = [')'])
    (hstep : ∀ t ∈ ts, ∀ cs, (style.hugs t = false → (cut cs).1 = []) →
      ofChars ((style.token t).toList.flatMap f ++ cs) = out t :: ofChars cs) (hugged : Bool) :
    ofChars ((style.tokensFrom hugged ts).toList.flatMap f) = ts.map out := by
  induction ts generalizing hugged with
  | nil => rfl
  | cons t ts ih =>
    have hrest := ih (fun u hu => hstep u (List.mem_cons_of_mem t hu)) (style.hugs t)
    have hcut : style.hugs t = false →
        (cut ((style.tokensFrom (style.hugs t) ts).toList.flatMap f)).1 = [] := by
      intro hhugs
      rw [hhugs]
      exact cut_tokensFrom hspace hclosing ts
    have ht := hstep t List.mem_cons_self _ hcut
    rw [hrest] at ht
    simp only [tokensFrom, String.toList_append, List.flatMap_append, List.append_assoc,
      List.map_cons]
    split
    · exact ht
    · have hchars : " ".toList = [' '] := rfl
      rw [hchars, List.flatMap_singleton, hspace, List.singleton_append, ofChars_space]
      exact ht

end Style

end Propositional

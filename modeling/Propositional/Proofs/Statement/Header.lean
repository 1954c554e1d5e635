import Propositional.Proofs.Statement.Agreement
import Propositional.Proofs.Statement.Kinds
import Propositional.Proofs.Style
import Propositional.Statement.Value

/-!
# What headings keep

Cutting a LaTeX heading gives the tokens of the literal, with commands for operators
(`lex_latex_tokens`). Writing out the mathematical signs of the other style as words gives a text that
means the same as the literal (`ofText_spellOut`). So a heading stands for one formula only
(`header_faithful`).
-/

namespace Propositional

open Token

/-! ## Signs -/

/-- The operators that have a sign. -/
def Operator.connectives : List Operator := [.not, .and, .or, .implies, .equivalent]

/-- The operator with the given mathematical sign. -/
def Operator.ofGlyph? (c : Char) : Option Operator :=
  connectives.find? fun op => op.glyph.toList = [c]

/-- The operator with the given LaTeX command. -/
def Operator.ofLatex? (t : Token) : Option Operator := connectives.find? fun op => op.latex = t

/-- A mathematical sign as the name of its operator between two spaces; other characters stay. -/
def Text.spelled (c : Char) : List Char :=
  match Operator.ofGlyph? c with
  | some op => ' ' :: (op.name.toList ++ [' '])
  | none => [c]

/-- The text with every mathematical sign written out. -/
def Text.spellOut (s : String) : String := String.ofList (s.toList.flatMap Text.spelled)

/-- The token with the usual spelling of its operator. -/
def Token.canonical (t : Token) : Token := (operator? t).elim t Operator.name

namespace Operator

theorem exists_glyph {op : Operator} (h : op ≠ identity) :
    ∃ c, op.glyph.toList = [c] ∧ ofGlyph? c = some op := by
  cases op with
  | identity => exact absurd rfl h
  | not => exact ⟨'¬', by decide, by decide⟩
  | and => exact ⟨'∧', by decide, by decide⟩
  | or => exact ⟨'∨', by decide, by decide⟩
  | implies => exact ⟨'⇒', by decide, by decide⟩
  | equivalent => exact ⟨'⇔', by decide, by decide⟩

theorem ne_identity_of_ofGlyph? {c : Char} {op : Operator} (h : ofGlyph? c = some op) :
    op ≠ identity := by
  have hmem := List.mem_of_find?_eq_some h
  rintro rfl
  revert hmem
  decide

/-- The name of an operator is one of its spellings. -/
theorem kind_name_ne_other {op : Operator} (h : op ≠ identity) : kind op.name ≠ .other := by
  rw [kind_eq_operator_iff.2 (ofSpelling?_name h)]
  exact nofun

/-- No sign is a letter of the Latin alphabet. -/
theorem ofGlyph?_toChar (v : Letter) : ofGlyph? v.toChar = none := by
  have hsigns : connectives.all (fun op => op.glyph.toList.all (90 < ·.toNat)) = true := by decide
  have hv := v.index.isLt
  rw [ofGlyph?, List.find?_eq_none]
  intro op hop hglyph
  have hbig := List.all_eq_true.1 (List.all_eq_true.1 hsigns op hop) v.toChar
    (by rw [of_decide_eq_true hglyph]; exact List.mem_singleton_self _)
  have := of_decide_eq_true hbig
  rw [Letter.toNat_toChar] at this
  omega

theorem ofLatex?_latex {op : Operator} (h : op ≠ identity) : ofLatex? op.latex = some op := by
  cases op with
  | identity => exact absurd rfl h
  | _ => decide

theorem ofLatex?_name (v : Letter) : ofLatex? v.name = none := by
  have hcommands : connectives.all (fun op => op.latex.toList.length ≠ 1) = true := by decide
  rw [ofLatex?, List.find?_eq_none]
  intro op hop hlatex
  have hlong := of_decide_eq_true (List.all_eq_true.1 hcommands op hop)
  rw [of_decide_eq_true hlatex, Letter.toList_name] at hlong
  exact hlong rfl

end Operator

/-! ## LaTeX headings -/

namespace Style

theorem clean_latex_token {t : Token} (h : kind t ≠ .other) : Clean (latex.token t) := by
  cases hop : operator? t with
  | none =>
    rw [token, hop]
    exact clean_of_kind h
  | some op =>
    rw [token_operator latex hop]
    have hne := Operator.ne_identity_of_spells hop
    revert hne
    cases op <;> decide

theorem hugs_of_operator?_eq_none {style : Style} {t : Token} (hparen : isParen t = false)
    (hop : operator? t = none) : style.hugs t = false := by
  have hopen : t ≠ "(" := by
    rintro rfl
    cases hparen
  simp [hugs, hopen, hop]

/-- A command ends in a letter, so that only an opening parenthesis hugs what follows it. -/
theorem hugs_latex {t : Token} (h : isParen (latex.token t) = false) : latex.hugs t = false := by
  cases hop : operator? t with
  | none =>
    rw [token, hop] at h
    exact hugs_of_operator?_eq_none h hop
  | some op =>
    have hopen : t ≠ "(" := by
      rintro rfl
      cases hop
    rw [hugs, token_operator latex hop, hop]
    simp only [beq_eq_false_iff_ne.2 hopen, Bool.false_or]
    cases op <;> decide

theorem lex_latex_tokens {ts : List Token} (h : ∀ t ∈ ts, kind t ≠ .other) :
    lex (latex.tokens ts) = ts.map latex.token := by
  -- here the characters stay as they are
  have hcut : ofChars ((latex.tokensFrom true ts).toList.flatMap fun c => [c]) =
      ts.map latex.token := by
    refine ofChars_tokensFrom rfl rfl (fun t ht cs hcs => ?_) true
    rw [List.flatMap_singleton']
    exact ofChars_clean (clean_latex_token (h t ht)) fun hparen => hcs (hugs_latex hparen)
  rwa [List.flatMap_singleton'] at hcut

/-- The kind of the token that stands as the given one in a LaTeX heading. -/
def kindOfLatex (t : Token) : Kind :=
  match Operator.ofLatex? t with
  | some op => .operator op
  | none => kind t

theorem kindOfLatex_token {t : Token} (h : kind t ≠ .other) :
    kindOfLatex (latex.token t) = kind t := by
  cases hk : kind t with
  | opening =>
    obtain rfl := kind_eq_opening_iff.1 hk
    decide
  | closing =>
    obtain rfl := kind_eq_closing_iff.1 hk
    decide
  | letter v =>
    obtain rfl := eq_name_of_kind_eq hk
    rw [token_name, kindOfLatex, Operator.ofLatex?_name]
    exact hk
  | operator op =>
    have hop := kind_eq_operator_iff.1 hk
    rw [token_operator latex hop, kindOfLatex, symbol,
      Operator.ofLatex?_latex (Operator.ne_identity_of_spells hop)]
  | other => exact absurd hk h

/-- Lists with the same LaTeX heading have the same kinds of tokens. -/
theorem map_kind_eq_of_latex {us ts : List Token} (hus : ∀ t ∈ us, kind t ≠ .other)
    (hts : ∀ t ∈ ts, kind t ≠ .other) (h : latex.tokens us = latex.tokens ts) :
    us.map kind = ts.map kind := by
  have hkinds : ∀ {ws : List Token}, (∀ t ∈ ws, kind t ≠ .other) →
      (lex (latex.tokens ws)).map kindOfLatex = ws.map kind := by
    intro ws hws
    rw [lex_latex_tokens hws, List.map_map]
    exact List.map_congr_left fun t ht => kindOfLatex_token (hws t ht)
  rw [← hkinds hus, h, hkinds hts]

/-! ## Headings with signs -/

/-- Where a token is no operator there is nothing to write out. -/
theorem flatMap_spelled {t : Token} (h : kind t ≠ .other) (hop : operator? t = none) :
    t.toList.flatMap Text.spelled = t.toList := by
  cases hk : kind t with
  | opening =>
    obtain rfl := kind_eq_opening_iff.1 hk
    decide
  | closing =>
    obtain rfl := kind_eq_closing_iff.1 hk
    decide
  | letter v =>
    obtain rfl := eq_name_of_kind_eq hk
    rw [Letter.toList_name, List.flatMap_singleton, Text.spelled, Operator.ofGlyph?_toChar]
  | operator op =>
    rw [kind_eq_operator_iff.1 hk] at hop
    cases hop
  | other => exact absurd hk h

theorem spelled_glyph {op : Operator} (h : op ≠ .identity) :
    op.glyph.toList.flatMap Text.spelled = ' ' :: (op.name.toList ++ [' ']) := by
  obtain ⟨c, hglyph, hc⟩ := Operator.exists_glyph h
  rw [hglyph, List.flatMap_singleton, Text.spelled, hc]

theorem kind_canonical (t : Token) : kind (canonical t) = kind t := by
  rw [canonical]
  cases hop : operator? t with
  | none => rfl
  | some op =>
    rw [kind_eq_operator_iff.2 hop, Option.elim_some, kind_eq_operator_iff]
    exact Operator.ofSpelling?_name (Operator.ne_identity_of_spells hop)

theorem lex_spellOut_tokens {ts : List Token} (h : ∀ t ∈ ts, kind t ≠ .other) :
    lex (Text.spellOut (human.tokens ts)) = ts.map canonical := by
  rw [lex, Text.spellOut, String.toList_ofList]
  refine ofChars_tokensFrom (by decide) (by decide) (fun t ht cs hcs => ?_) true
  have hkind := h t ht
  cases hop : operator? t with
  | none =>
    rw [token, hop, canonical, hop, flatMap_spelled hkind hop]
    exact ofChars_clean (clean_of_kind hkind) fun hparen => hcs (hugs_of_operator?_eq_none hparen hop)
  | some op =>
    have hne := Operator.ne_identity_of_spells hop
    have hname : Clean op.name := clean_of_kind (Operator.kind_name_ne_other hne)
    rw [token_operator human hop, canonical, hop, symbol, spelled_glyph hne, List.cons_append,
      ofChars_space, List.append_assoc, ofChars_clean hname fun _ => rfl]
    rfl

/-- All blanks of a heading are spaces, also when its signs are written out. -/
theorem eq_space_of_mem_spellOut {ts : List Token} (h : ∀ t ∈ ts, kind t ≠ .other) {c : Char}
    (hc : c ∈ (Text.spellOut (human.tokens ts)).toList) (hblank : Text.isBlank c = true) :
    c = ' ' := by
  rw [Text.spellOut, String.toList_ofList, List.mem_flatMap] at hc
  obtain ⟨d, hd, hc⟩ := hc
  rw [Text.spelled] at hc
  split at hc
  · rename_i op hop
    -- a name has no blanks, so that this is one of the two spaces beside it
    have hname : Visible op.name :=
      visible_of_kind (Operator.kind_name_ne_other (Operator.ne_identity_of_ofGlyph? hop))
    simp only [List.mem_cons, List.mem_append, List.not_mem_nil, or_false] at hc
    rcases hc with hc | hc | hc
    · exact hc
    · rw [hname.2 c hc] at hblank
      cases hblank
    · exact hc
  · obtain rfl := List.mem_singleton.1 hc
    rcases mem_tokensFrom hd with hspace | ⟨t, ht, hct⟩
    · exact hspace
    · rw [(visible_token (h t ht)).2 c hct] at hblank
      cases hblank

end Style

namespace Statement

theorem formula_withLiteral (text : String) (s : Statement) :
    (s.withLiteral text).formula = s.formula := by
  cases s <;> rfl

/-- Written out, the heading of a phrase is read as a statement of its formula. -/
theorem ofText_spellOut {ts : List Token} {f : Formula} (h : Derives .conditional ts f) :
    ∃ r, ofText (Text.spellOut (Style.human.tokens ts)) = .ok r ∧ r.formula = f := by
  have hcanonical : (ts.map canonical).map kind = ts.map kind := by
    rw [List.map_map]
    exact List.map_congr_left fun t _ => Style.kind_canonical t
  obtain ⟨s, hs, rfl⟩ := (h.of_map_kind_eq hcanonical).ofPaired_eq_ok (text (ts.map canonical))
  have hlex : lex (Text.trim (Text.spellOut (Style.human.tokens ts))) = ts.map canonical := by
    rw [Text.lex_trim fun c => Style.eq_space_of_mem_spellOut h.kind_ne_other,
      Style.lex_spellOut_tokens h.kind_ne_other]
  exact ⟨_, ofText_of_ofTokens_ok (hlex ▸ hs), formula_withLiteral _ s⟩

/-- The value of a statement is settled by its formula, also where a letter has no value. -/
theorem value_congr_formula {s u : Statement} (h : s.formula = u.formula) (a : Valuation) :
    s.value a = u.value a := by
  induction s generalizing u with
  | letter text vs v =>
    cases u with
    | letter text' vs' w =>
      obtain rfl := Formula.letter.inj h
      rfl
    | _ => cases h
  | negation text vs s ih =>
    cases u with
    | negation text' vs' u => rw [value, value, ih (Formula.negation.inj h)]
    | _ => cases h
  | binary text vs op l r ihl ihr =>
    cases u with
    | binary text' vs' op' l' r' =>
      obtain ⟨rfl, hl, hr⟩ := Formula.binary.inj h
      rw [value, value, ihl hl, ihr hr]
    | _ => cases h

theorem Parsed.formula_eq_of_header {s u : Statement} (hs : s.Parsed) (hu : u.Parsed) {style : Style}
    (h : s.header style = u.header style) : s.formula = u.formula := by
  cases style with
  | human =>
    obtain ⟨r, hr, hrs⟩ := ofText_spellOut hs.derives
    obtain ⟨q, hq, hqu⟩ := ofText_spellOut hu.derives
    have hheader : Style.human.tokens (lex s.literal) = Style.human.tokens (lex u.literal) := h
    rw [hheader, hq] at hr
    rw [← hrs, ← hqu, Except.ok.inj hr]
  | latex =>
    have hkinds := Style.map_kind_eq_of_latex hu.derives.kind_ne_other hs.derives.kind_ne_other h.symm
    exact (hs.derives.of_map_kind_eq hkinds).formula_unique hu.derives

/-- A heading tells what its statement says, for each node of a statement that was read. Cutting a
LaTeX heading gives the tokens of the literal with commands for operators; writing out the signs of the
other style gives a text that is read as a statement of the same formula; and in either style nodes
with the same heading have the same formula, and hence the same value under every valuation. -/
theorem header_faithful {s u m n : Statement} (hs : s.Parsed) (hu : u.Parsed) (hm : m ∈ s.nodes)
    (hn : n ∈ u.nodes) :
    lex (m.header .latex) = (lex m.literal).map (fun t => (operator? t).elim t Operator.latex) ∧
      (∃ r, ofText (Text.spellOut (m.header .human)) = .ok r ∧ r.formula = m.formula) ∧
      ∀ style, m.header style = n.header style →
        m.formula = n.formula ∧ ∀ a : Valuation, m.value a = n.value a := by
  have hmRead := hs.node hm
  have hnRead := hu.node hn
  refine ⟨?_, ofText_spellOut hmRead.derives, fun style hheader => ?_⟩
  · rw [header, Style.lex_latex_tokens hmRead.derives.kind_ne_other]
    refine List.map_congr_left fun t _ => ?_
    cases hop : operator? t <;> rw [Style.token, hop] <;> rfl
  · have hformula := hmRead.formula_eq_of_header hnRead hheader
    exact ⟨hformula, value_congr_formula hformula⟩

/-- The same statement from a text and from tokens that spell `=>` in another way. -/
theorem header_faithful_implies :
    let operand : Statement := .negation "not ( B or C )" (.ofList [⟨1⟩, ⟨2⟩])
      (.binary "B or C" (.ofList [⟨1⟩, ⟨2⟩]) .or (.ofLetter ⟨1⟩) (.ofLetter ⟨2⟩))
    let s : Statement :=
      .binary "A impl not(B  or C)" (.ofList [⟨0⟩, ⟨1⟩, ⟨2⟩]) .implies (.ofLetter ⟨0⟩) operand
    let u : Statement :=
      .binary "A => not ( B or C )" (.ofList [⟨0⟩, ⟨1⟩, ⟨2⟩]) .implies (.ofLetter ⟨0⟩) operand
    s.Parsed ∧ u.Parsed ∧ s.header .human = "A ⇒ ¬(B ∨ C)" ∧ u.header .human = "A ⇒ ¬(B ∨ C)" ∧
      lex (s.header .latex) = ["A", "\\Rightarrow", "\\lnot", "(", "B", "\\lor", "C", ")"] ∧
      (∃ r, ofText "A  =>   not (B  or  C)" = .ok r ∧ r.formula = s.formula) ∧
      ∀ a : Valuation, s.value a = u.value a := by
  intro operand s u
  have hs : s.Parsed := Or.inr ⟨"A impl not(B  or C)", by decide +kernel⟩
  have hu : u.Parsed := Or.inl ⟨["A", "=>", "not", "(", "B", "or", "C", ")"], by decide +kernel⟩
  have hheader : s.header .human = "A ⇒ ¬(B ∨ C)" := by decide +kernel
  have hheader' : u.header .human = "A ⇒ ¬(B ∨ C)" := by decide +kernel
  have hspelled : Text.spellOut "A ⇒ ¬(B ∨ C)" = "A  =>   not (B  or  C)" := by decide +kernel
  have hlex : lex s.literal = ["A", "impl", "not", "(", "B", "or", "C", ")"] := by decide +kernel
  obtain ⟨hlatex, hread, hequal⟩ := header_faithful hs hu s.self_mem_nodes u.self_mem_nodes
  rw [hlex] at hlatex
  rw [hheader, hspelled] at hread
  exact ⟨hs, hu, hheader, hheader', hlatex, hread, (hequal .human (hheader.trans hheader'.symm)).2⟩

end Statement

end Propositional

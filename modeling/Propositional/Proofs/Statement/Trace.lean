import Mathlib.Data.List.Forall2
import Propositional.Proofs.Statement.Fault
import Propositional.Proofs.Statement.Nodes

/-!
# The notes made while reading

A split is noted when the reader has found the root of a span and before it looks at the sides. A list
that is accepted has one note for each node with operands, in the order of the nodes
(`forall₂_isSplit`). In a list that is refused the reader goes from side to side (`Into`) until it has
`Reached` a span with a fault. Each step of the way has the split at the root and those of the left
operand, if the way goes on to the right of it; the span has a split of its own if it lacks an operand or has
one too many (`exists_reached`).
-/

namespace Propositional

open Token Occurrence Root

namespace Reading

variable {α : Type}

/-- The notes made of the splits, in order. -/
def notes (r : Reading α) : List String := r.splits.map Split.message

@[simp] theorem notes_mapError (f : Malformed → Malformed) (r : Reading α) :
    (r.mapError f).notes = r.notes := rfl

theorem result_mapError_eq_error_iff {f : Malformed → Malformed} {r : Reading α} {e : Malformed} :
    (r.mapError f).result = .error e ↔ ∃ e', r.result = .error e' ∧ e = f e' := by
  rw [result_mapError]
  cases r.result <;> simp [Except.mapError, eq_comm]

end Reading

namespace Statement

/-! ## Nodes and splits -/

/-- The nodes that have operands, in the order of the nodes. -/
def branches (s : Statement) : List Statement := s.nodes.filter fun n => n.operands ≠ []

@[simp] theorem branches_letter (l : String) (ws : LetterSet) (v : Letter) :
    (letter l ws v).branches = [] := by
  simp [branches, nodes, operands]

@[simp] theorem branches_negation (l : String) (ws : LetterSet) (a : Statement) :
    (negation l ws a).branches = negation l ws a :: a.branches := by
  simp [branches, nodes, operands]

@[simp] theorem branches_binary (l : String) (ws : LetterSet) (op : Operator) (a b : Statement) :
    (binary l ws op a b).branches = binary l ws op a b :: (a.branches ++ b.branches) := by
  simp [branches, nodes, operands]

/-- The split is that of the node: it has the node's literal and operator, and the place of the root
among the tokens of the literal. -/
structure IsSplit (n : Statement) (p : Split) : Prop where
  literal_eq : p.literal = n.literal
  op_eq : p.op = n.operator
  exists_isRoot : ∃ us t vs, strip (lex n.literal) = us ++ t :: vs ∧ us.length = p.place ∧
    IsRoot n.operator us t vs

/-- The note is that of the node, with the place of the root among the tokens of the literal. -/
def IsNote (n : Statement) (note : String) : Prop :=
  ∃ us t vs, strip (lex n.literal) = us ++ t :: vs ∧ IsRoot n.operator us t vs ∧
    note = Split.message ⟨n.literal, n.operator, us.length⟩

theorem IsSplit.isNote {n : Statement} {p : Split} (h : IsSplit n p) : IsNote n p.message := by
  obtain ⟨us, t, vs, hts, hplace, hroot⟩ := h.exists_isRoot
  refine ⟨us, t, vs, hts, hroot, ?_⟩
  rw [hplace, ← h.literal_eq, ← h.op_eq]

theorem forall₂_isNote {ns : List Statement} {ps : List Split} (h : List.Forall₂ IsSplit ns ps) :
    List.Forall₂ IsNote ns (ps.map Split.message) :=
  List.forall₂_map_right_iff.2 (h.imp fun _ _ => IsSplit.isNote)

/-! ## Success -/

section

variable {l : String} {ts us vs : List Token} {t : Token}

theorem splits_ofSpan_letter {v : Letter} (h : strip ts = [v.name]) : (ofSpan l ts).splits = [] := by
  have hops : operators (strip ts) = [] := by rw [h, operators_name]
  rw [ofSpan_absent l hops, Reading.splits_ofExcept]

theorem ofSpan_eq_negation (hts : strip ts = us ++ t :: vs) (hroot : IsRoot .not us t vs)
    (hus : strip us = []) (hvs : strip vs ≠ []) :
    ofSpan l ts = .noting ⟨l, .not, us.length⟩
      ((ofSpan (text (strip vs)) vs).map fun a => .negation l a.letters a) := by
  rw [← ofSpan_strip, hts, ofSpan_isRoot l hroot, if_neg hvs, if_pos rfl, if_pos hus]

theorem ofSpan_eq_binary {op : Operator} (hts : strip ts = us ++ t :: vs) (hroot : IsRoot op us t vs)
    (hop : op ≠ .not) (hus : strip us ≠ []) (hvs : strip vs ≠ []) :
    ofSpan l ts = .noting ⟨l, op, us.length⟩ ((ofSpan (text (strip us)) us).bind fun a =>
      (ofSpan (text (strip vs)) vs).map fun b => .binary l (a.letters.union b.letters) op a b) := by
  rw [← ofSpan_strip, hts, ofSpan_isRoot l hroot, if_neg hvs, if_neg hop, if_neg hus]

end

/-- What is left of accepted tokens is cut again as it was written. -/
theorem lex_text_strip {l : String} {ts : List Token} {s : Statement}
    (h : (ofSpan l ts).result = .ok s) : lex (text (strip ts)) = strip ts := by
  have hkind := (derives_of_ofSpan h .conditional fun o _ => o.rank_le).kind_ne_other
  exact lex_text fun t ht => clean_of_kind (hkind t ((strip_isInfix ts).subset ht))

/-- Reading makes a split for each node that has operands, in the order of the nodes. -/
theorem forall₂_isSplit {l : String} {ts : List Token} {s : Statement}
    (h : (ofSpan l ts).result = .ok s) (hl : strip (lex l) = strip ts) :
    List.Forall₂ IsSplit s.branches (ofSpan l ts).splits := by
  induction hn : ts.length using Nat.strongRecOn generalizing l ts s with
  | ind n ih =>
    rcases ofSpan_ok_cases h with ⟨v, hts, rfl⟩ | ⟨us, t, vs, a, hts, hroot, hus, ha, rfl⟩ |
      ⟨op, us, t, vs, a, b, hts, hroot, hop, ha, hb, rfl⟩
    · rw [branches_letter, splits_ofSpan_letter hts]
      exact .nil
    · obtain ⟨-, hright⟩ := length_sides_lt hts
      rw [branches_negation, ofSpan_eq_negation hts hroot hus (strip_ne_nil_of_ok ha),
        Reading.splits_noting, Reading.splits_map]
      refine .cons ⟨rfl, rfl, us, t, vs, hl.trans hts, rfl, hroot⟩ ?_
      exact ih vs.length (hn ▸ hright) ha (by rw [lex_text_strip ha, strip_strip]) rfl
    · obtain ⟨hleft, hright⟩ := length_sides_lt hts
      rw [branches_binary, ofSpan_eq_binary hts hroot hop (strip_ne_nil_of_ok ha)
        (strip_ne_nil_of_ok hb), Reading.splits_noting, Reading.splits_bind_of_ok ha, Reading.splits_map]
      refine .cons ⟨rfl, rfl, us, t, vs, hl.trans hts, rfl, hroot⟩ (List.rel_append ?_ ?_)
      · exact ih us.length (hn ▸ hleft) ha (by rw [lex_text_strip ha, strip_strip]) rfl
      · exact ih vs.length (hn ▸ hright) hb (by rw [lex_text_strip hb, strip_strip]) rfl

/-! ## Failure -/

/-- Reading a list that is to get the literal `l`, the reader goes on with a side of its root, which is to
get the literal `m`; the splits made before are the one at the root and those of the left operand, if that
is finished. -/
inductive Into (l : String) (ts : List Token) : List Split → String → List Token → Prop
  | operand {us vs : List Token} {t : Token} (hts : strip ts = us ++ t :: vs)
      (hroot : IsRoot .not us t vs) (hus : strip us = []) (hvs : strip vs ≠ []) :
      Into l ts [⟨l, .not, us.length⟩] (text (strip vs)) vs
  | left {op : Operator} {us vs : List Token} {t : Token} (hts : strip ts = us ++ t :: vs)
      (hroot : IsRoot op us t vs) (hop : op ≠ .not) (hus : strip us ≠ []) (hvs : strip vs ≠ []) :
      Into l ts [⟨l, op, us.length⟩] (text (strip us)) us
  | right {op : Operator} {us vs : List Token} {t : Token} {a : Statement} {finished : List Split}
      (hts : strip ts = us ++ t :: vs) (hroot : IsRoot op us t vs) (hop : op ≠ .not)
      (hvs : strip vs ≠ []) (ha : ofTokens (strip us) = .ok a)
      (hfinished : List.Forall₂ IsSplit a.branches finished) :
      Into l ts (⟨l, op, us.length⟩ :: finished) (text (strip vs)) vs

/-- Reading a list that is to get the literal `l`, the reader comes to a part of it, `span`, which is to get
the literal `m`, with the splits made on the way. -/
inductive Reached : String → List Token → List Split → String → List Token → Prop
  | here (l : String) (ts : List Token) : Reached l ts [] l ts
  | into {l l' m : String} {ts us span : List Token} {first before : List Split}
      (hinto : Into l ts first l' us) (h : Reached l' us before m span) :
      Reached l ts (first ++ before) m span

theorem Into.part {l m : String} {ts span : List Token} {first : List Split}
    (h : Into l ts first m span) (hbalanced : balanced ts = true) :
    balanced span = true ∧ span.length < ts.length := by
  cases h with
  | operand hts hroot => exact ⟨(hroot.sides hts hbalanced).2.2, (length_sides_lt hts).2⟩
  | left hts hroot => exact ⟨(hroot.sides hts hbalanced).1.2, (length_sides_lt hts).1⟩
  | right hts hroot => exact ⟨(hroot.sides hts hbalanced).2.2, (length_sides_lt hts).2⟩

end Statement

/-- The operator that lacks an operand or has one too many. -/
def Malformed.operator? : Malformed → Option Operator
  | missingOperand op _ => some op
  | unexpectedOperand op _ => some op
  | _ => none

theorem Malformed.AppliesTo.operator?_eq_none {e : Malformed} {span : List Token}
    (h : e.AppliesTo span) (hops : operators span = []) : e.operator? = none := by
  have hroot : ∀ {op us t vs}, span = us ++ t :: vs → ¬ IsRoot op us t vs := by
    rintro op us t vs rfl hroot
    rw [hroot.operators_eq] at hops
    simp at hops
  cases e with
  | missingOperand op x =>
    obtain ⟨us, t, vs, hspan, h, -⟩ := h
    exact absurd h (hroot hspan)
  | unexpectedOperand op x =>
    obtain ⟨-, us, t, vs, hspan, h, -⟩ := h
    exact absurd h (hroot hspan)
  | _ => rfl

/-- The splits made of a span with a fault: one at its root if the fault is that of an operand. -/
inductive Malformed.OwnSplits (e : Malformed) (l : String) (span : List Token) : List Split → Prop
  | none (h : e.operator? = none) : OwnSplits e l span []
  | root {op : Operator} {us vs : List Token} {t : Token} (h : e.operator? = some op)
      (hspan : span = us ++ t :: vs) (hroot : IsRoot op us t vs) :
      OwnSplits e l span [⟨l, op, us.length⟩]

/-- The fault is found in the span itself, which is to get the literal `l`. -/
structure Malformed.FoundIn (e : Malformed) (l : String) (span : List Token) (own : List Split) :
    Prop where
  expression_eq : e.expression = text span
  appliesTo : e.AppliesTo span
  read : Statement.ofTokens span = .error e
  own : e.OwnSplits l span own

namespace Statement

/-- The fault of a list with a root is found at the root or in a side that the reader goes into. -/
theorem ofSpan_error_of_isRoot {l : String} {op : Operator} {ts us vs : List Token} {t : Token}
    {e : Malformed} (hts : strip ts = us ++ t :: vs) (hroot : IsRoot op us t vs)
    (h : (ofSpan l ts).result = .error e) (hbalanced : balanced ts = true) :
    e.FoundIn l (strip ts) (ofSpan l ts).splits ∨
      ∃ first m part, Into l ts first m part ∧ (ofSpan m part).result = .error e ∧
        (ofSpan l ts).splits = first ++ (ofSpan m part).splits := by
  have hread : ofTokens (strip ts) = .error e := by
    rw [ofTokens_strip hbalanced, ofSpan_error_congr h]
  have heq := ofSpan_isRoot l hroot
  rw [← hts, ofSpan_strip] at heq
  by_cases hvs : strip vs = []
  · rw [if_pos hvs] at heq
    rw [heq] at h ⊢
    cases h
    exact Or.inl ⟨rfl, ⟨us, t, vs, hts, hroot, Or.inl hvs⟩, hread, .root rfl hts hroot⟩
  by_cases hop : op = .not <;> by_cases hus : strip us = []
  · subst hop
    rw [ofSpan_eq_negation hts hroot hus hvs] at h ⊢
    exact Or.inr ⟨_, _, vs, .operand hts hroot hus hvs, Reading.result_map_eq_error_iff.1 h, rfl⟩
  · rw [if_neg hvs, if_pos hop, if_neg hus] at heq
    rw [heq] at h ⊢
    cases h
    exact Or.inl ⟨rfl, ⟨hop, us, t, vs, hts, hop ▸ hroot, hus, hvs⟩, hread, .root rfl hts hroot⟩
  · rw [if_neg hvs, if_neg hop, if_pos hus] at heq
    rw [heq] at h ⊢
    cases h
    exact Or.inl ⟨rfl, ⟨us, t, vs, hts, hroot, Or.inr ⟨hroot.isBinary hop, hus⟩⟩, hread,
      .root rfl hts hroot⟩
  · rw [ofSpan_eq_binary hts hroot hop hus hvs] at h ⊢
    rcases Reading.result_bind_eq_error_iff.1 h with ha | ⟨a, ha, hb⟩
    · refine Or.inr ⟨_, _, us, .left hts hroot hop hus hvs, ha, ?_⟩
      rw [Reading.splits_noting, Reading.splits_bind_of_error ha, List.singleton_append]
    · have hfinished := forall₂_isSplit ha (by rw [lex_text_strip ha, strip_strip])
      have hleft : ofTokens (strip us) = .ok a := by
        rw [ofTokens_strip (hroot.sides hts hbalanced).1.2, ha]
      refine Or.inr ⟨_, _, vs, .right hts hroot hop hvs hleft hfinished,
        Reading.result_map_eq_error_iff.1 hb, ?_⟩
      rw [Reading.splits_noting, Reading.splits_bind_of_ok ha, Reading.splits_map, List.cons_append]

/-- The fault of a list is found in the list itself or in a side that the reader goes into. -/
theorem ofSpan_error_step {l : String} {ts : List Token} {e : Malformed}
    (h : (ofSpan l ts).result = .error e) (hbalanced : balanced ts = true) :
    e.FoundIn l (strip ts) (ofSpan l ts).splits ∨
      ∃ first m part, Into l ts first m part ∧ (ofSpan m part).result = .error e ∧
        (ofSpan l ts).splits = first ++ (ofSpan m part).splits := by
  have hread : ofTokens (strip ts) = .error e := by
    rw [ofTokens_strip hbalanced, ofSpan_error_congr h]
  rcases root_cases (strip ts) with hops | hcount | ⟨op, us, t, vs, hts, hroot⟩
  · rw [ofSpan_absent l hops] at h ⊢
    obtain ⟨htext, happlies⟩ := ofOperatorless_error hops h
    exact Or.inl ⟨htext, happlies, hread, .none (happlies.operator?_eq_none hops)⟩
  · rw [ofSpan_ambiguous l hcount] at h ⊢
    cases h
    exact Or.inl ⟨rfl, hcount, hread, .none rfl⟩
  · exact ofSpan_error_of_isRoot hts hroot h hbalanced

/-- Where the reader fails it has reached a span with the fault, and has made the splits up to there and
those of the span itself. -/
theorem exists_reached {l : String} {ts : List Token} {e : Malformed}
    (h : (ofSpan l ts).result = .error e) (hbalanced : balanced ts = true) :
    ∃ before m span own, Reached l ts before m span ∧ e.FoundIn m (strip span) own ∧
      (ofSpan l ts).splits = before ++ own := by
  induction hn : ts.length using Nat.strongRecOn generalizing l ts with
  | ind n ih =>
    rcases ofSpan_error_step h hbalanced with hfound | ⟨first, m, part, hinto, hpart, hsplits⟩
    · exact ⟨[], l, ts, _, .here l ts, hfound, rfl⟩
    · obtain ⟨hpartBalanced, hlt⟩ := hinto.part hbalanced
      obtain ⟨before, m, span, own, hreached, hfound, heq⟩ :=
        ih part.length (hn ▸ hlt) hpart hpartBalanced rfl
      refine ⟨first ++ before, m, span, own, .into hinto hreached, hfound, ?_⟩
      rw [hsplits, heq, List.append_assoc]

/-- The notes made of a list that is to get the literal `l` and is refused: none if a parenthesis has no
partner, and else those up to the span with the fault and its own. -/
inductive Refused (l : String) (ts : List Token) : Malformed → List String → Prop
  | unbalanced (h : balanced ts = false) : Refused l ts (.unbalanced l) []
  | fault {e : Malformed} {before own : List Split} {m : String} {span : List Token}
      (h : balanced ts = true) (hne : ∀ x, e ≠ .unbalanced x) (hreached : Reached l ts before m span)
      (hfound : e.FoundIn m (strip span) own) :
      Refused l ts e ((before ++ own).map Split.message)

theorem refused_of_ofPaired {l : String} {ts : List Token} {e : Malformed}
    (h : (ofPaired l ts).result = .error e) : Refused l ts e (ofPaired l ts).notes := by
  by_cases hbalanced : balanced ts = true
  · rw [ofPaired, if_pos hbalanced] at h ⊢
    obtain ⟨before, m, span, own, hreached, hfound, hsplits⟩ := exists_reached h hbalanced
    rw [Reading.notes, hsplits]
    refine .fault hbalanced ?_ hreached hfound
    rintro x rfl
    exact ofSpan_ne_unbalanced hbalanced h
  · rw [ofPaired, if_neg hbalanced] at h ⊢
    cases h
    exact .unbalanced (Bool.not_eq_true _ ▸ hbalanced)

theorem forall₂_isNote_of_ofPaired {l : String} {ts : List Token} {s : Statement}
    (h : (ofPaired l ts).result = .ok s) (hl : lex l = ts) :
    List.Forall₂ IsNote s.branches (ofPaired l ts).notes := by
  obtain ⟨hbalanced, hs⟩ := ofSpan_of_ofPaired h
  rw [ofPaired, if_pos hbalanced]
  exact forall₂_isNote (forall₂_isSplit hs (by rw [hl]))

/-- What is noted while a list of tokens is read: for each node of the statement that has operands, in
order, its literal, its operator and the place of the operator; or, if the list is refused, the notes up
to the fault, the last one being of the span at fault if an operand is missing or unexpected there. The
same is noted while a text is read, of its tokens; a missing precedence is then laid to the whole text. -/
theorem notes_follow_nodes :
    (∀ ts s, ofTokens ts = .ok s → List.Forall₂ IsNote s.branches (readTokens ts).notes) ∧
    (∀ ts e, ofTokens ts = .error e → Refused (text ts) ts e (readTokens ts).notes) ∧
    (∀ x s, ofText x = .ok s → List.Forall₂ IsNote s.branches (readText x).notes) ∧
    ∀ x e, ofText x = .error e → ∃ e', e = e'.blaming (Text.trim x) ∧
      Refused (Text.trim x) (lex (Text.trim x)) e' (readText x).notes := by
  refine ⟨fun ts s h => ?_, fun ts e h => ?_, fun x s h => ?_, fun x e h => ?_⟩
  · refine forall₂_isNote_of_ofPaired h ?_
    rw [← literal_of_ofTokens h, lex_literal_of_ofTokens h]
  · rw [ofTokens, readTokens] at h
    rw [readTokens]
    exact refused_of_ofPaired h
  · rw [readText_eq, Reading.notes_mapError]
    exact forall₂_isNote_of_ofPaired (ofPaired_of_ofText h) rfl
  · rw [ofText, readText_eq] at h
    rw [readText_eq, Reading.notes_mapError]
    obtain ⟨e', he', rfl⟩ := Reading.result_mapError_eq_error_iff.1 h
    exact ⟨e', rfl, refused_of_ofPaired he'⟩

/-- Three notes for the three nodes with operands, and two for a list in which the second operand of the
operand to the right is missing. -/
theorem notes_follow_nodes_implies :
    let s : Statement := .binary "(A and not B) => C" (.ofList [⟨0⟩, ⟨1⟩, ⟨2⟩]) .implies
      (.binary "A and not B" (.ofList [⟨0⟩, ⟨1⟩]) .and (.ofLetter ⟨0⟩)
        (.negation "not B" (.singleton ⟨1⟩) (.ofLetter ⟨1⟩)))
      (.ofLetter ⟨2⟩)
    let ts := ["A", "or", "(", "B", "and", ")"]
    ofText "(A and not B) => C" = .ok s ∧
      List.Forall₂ IsNote s.branches ["parse: split '(A and not B) => C' at '=>' (token 6)",
        "parse: split 'A and not B' at 'and' (token 1)", "parse: split 'not B' at 'not' (token 0)"] ∧
      ofTokens ts = .error (.missingOperand .and "B and") ∧
      Refused "A or ( B and )" ts (.missingOperand .and "B and")
        ["parse: split 'A or ( B and )' at 'or' (token 1)", "parse: split 'B and' at 'and' (token 1)"] := by
  intro s ts
  have hread : ofText "(A and not B) => C" = .ok s := by decide +kernel
  have hnotes : (readText "(A and not B) => C").notes =
      ["parse: split '(A and not B) => C' at '=>' (token 6)",
        "parse: split 'A and not B' at 'and' (token 1)",
        "parse: split 'not B' at 'not' (token 0)"] := by decide +kernel
  have hfault : ofTokens ts = .error (.missingOperand .and "B and") := by decide +kernel
  have hbefore : (readTokens ts).notes = ["parse: split 'A or ( B and )' at 'or' (token 1)",
      "parse: split 'B and' at 'and' (token 1)"] := by decide +kernel
  exact ⟨hread, hnotes ▸ notes_follow_nodes.2.2.1 _ s hread, hfault,
    hbefore ▸ notes_follow_nodes.2.1 ts _ hfault⟩

end Statement

end Propositional

import Propositional.Token.Nesting

/-!
# Redundant outer parentheses

`strip` takes away the parentheses that enclose a whole list of tokens, as often as there are any:
`( ( A and B ) )` becomes `A and B`, and `( A ) and ( B )` stays as it is, because its first
parenthesis closes before the end.

A span carries the records of its parentheses along with its tokens. The outer pair of a span is
redundant when its level does not come back between the two: the records are taken once, for the
whole list, and narrowed together with the tokens. Nothing asks for the list to be balanced.
-/

namespace Propositional.Token

/-- A stretch of a list of tokens, with the records of the parentheses in it. -/
structure Span where
  tokens : List Token
  records : List Int
deriving DecidableEq, Repr

/-- What the two ends of a span tell. -/
inductive Ends
  /-- The span is not enclosed by one pair of parentheses. -/
  | bare
  /-- A pair of parentheses encloses the span; this is what stands between the two. -/
  | enclosing (inner : Span)
  /-- Tokens and records do not belong together: a pair of parentheses has not two records. -/
  | unrecorded
deriving DecidableEq, Repr

/-- The first token is an opening parenthesis and the last one, which is another token, a closing
one. -/
def bracketed (ts : List Token) : Bool :=
  2 ≤ ts.length && ts.head? == some "(" && ts.getLast? == some ")"

/-- A list is bracketed when its two ends are a `(` and a `)` with a list between them. -/
theorem bracketed_iff {ts : List Token} :
    bracketed ts = true ↔ ∃ inner, ts = "(" :: inner ++ [")"] := by
  constructor
  · intro h
    simp only [bracketed, Bool.and_eq_true, decide_eq_true_eq, beq_iff_eq] at h
    obtain ⟨⟨hlen, hfirst⟩, hlast⟩ := h
    match ts, hlen, hfirst, hlast with
    | a :: b :: rest, _, hfirst, hlast =>
      obtain rfl : a = "(" := by simpa using hfirst
      rw [List.getLast?_cons_cons, List.getLast?_eq_some_iff] at hlast
      obtain ⟨inner, hinner⟩ := hlast
      exact ⟨inner, by rw [hinner, List.cons_append]⟩
  · rintro ⟨inner, rfl⟩
    rw [bracketed, List.cons_append, List.head?_cons, ← List.cons_append, List.getLast?_concat]
    simp

namespace Span

/-- The span of a whole list, which starts at level 0. -/
def ofList (ts : List Token) : Span := ⟨ts, Token.records 0 ts⟩

/-- Compares the record of the first parenthesis with those between the two ends. -/
def ends (s : Span) : Ends :=
  if bracketed s.tokens then
    match s.records with
    | outer :: next :: rest =>
      let inner := (next :: rest).dropLast
      if inner.contains outer then .bare else .enclosing ⟨s.tokens.tail.dropLast, inner⟩
    | _ => .unrecorded
  else .bare

theorem length_of_ends_eq_enclosing {s inner : Span} (h : s.ends = .enclosing inner) :
    inner.tokens.length + 2 = s.tokens.length := by
  unfold ends at h
  split at h
  · rename_i hb
    simp only [bracketed, Bool.and_eq_true, decide_eq_true_eq] at hb
    split at h
    · simp only at h
      split at h
      · simp at h
      · simp only [Ends.enclosing.injEq] at h
        subst h
        simp only [List.length_dropLast, List.length_tail]
        omega
    · simp at h
  · simp at h

/-! ## Tokens and records stay together -/

/-- The records are those of the tokens, taken from some level on. -/
def Recorded (s : Span) : Prop := ∃ level, s.records = Token.records level s.tokens

@[simp] theorem recorded_ofList (ts : List Token) : (ofList ts).Recorded := ⟨0, rfl⟩

/-- The records of a bracketed list are those between the two ends, and one at each end. -/
theorem records_bracketed (level : Int) (inner : List Token) :
    Token.records level ("(" :: inner ++ [")"]) =
      level :: Token.records (level + 1) inner ++ [level + rise inner] := by
  have hopen : step "(" = 1 := by decide
  have hlast : level + 1 + rise inner - 1 = level + rise inner := by omega
  rw [List.cons_append, records_cons, records_append, hopen, records_cons]
  simp only [kind_opening, kind_closing, records_nil, List.append_nil, List.nil_append,
    List.cons_append, hlast]

/-- The ends of a bracketed span: the pair encloses the span unless its level comes back inside. -/
theorem ends_of_recorded {s : Span} {level : Int} {inner : List Token}
    (htokens : s.tokens = "(" :: inner ++ [")"])
    (hrecords : s.records = Token.records level s.tokens) :
    s.ends = if level ∈ Token.records (level + 1) inner then .bare
      else .enclosing ⟨inner, Token.records (level + 1) inner⟩ := by
  have hb : bracketed s.tokens = true := bracketed_iff.2 ⟨inner, htokens⟩
  have hr : s.records = level :: (Token.records (level + 1) inner ++ [level + rise inner]) := by
    rw [hrecords, htokens, records_bracketed, List.cons_append]
  have hin : s.tokens.tail.dropLast = inner := by
    rw [htokens, List.cons_append, List.tail_cons, List.dropLast_concat]
  unfold ends
  rw [if_pos hb, hin, hr]
  cases hq : Token.records (level + 1) inner with
  | nil => simp
  | cons next rest =>
    simp only [List.cons_append]
    rw [← List.cons_append, List.dropLast_concat]
    simp

/-- Narrowing keeps tokens and records together. -/
theorem Recorded.inner {s inner : Span} (hs : s.Recorded) (h : s.ends = .enclosing inner) :
    inner.Recorded := by
  obtain ⟨level, hrecords⟩ := hs
  by_cases hb : bracketed s.tokens = true
  · obtain ⟨ts, htokens⟩ := bracketed_iff.1 hb
    rw [ends_of_recorded htokens hrecords] at h
    split at h
    · cases h
    · cases h
      exact ⟨level + 1, rfl⟩
  · simp [ends, hb] at h

/-- A span whose records are its own has a record for each end of a pair. -/
theorem Recorded.ends_ne_unrecorded {s : Span} (hs : s.Recorded) : s.ends ≠ .unrecorded := by
  obtain ⟨level, hrecords⟩ := hs
  by_cases hb : bracketed s.tokens = true
  · obtain ⟨ts, htokens⟩ := bracketed_iff.1 hb
    rw [ends_of_recorded htokens hrecords]
    split <;> simp
  · simp [ends, hb]

/-! ## Taking pairs away -/

/-- The span without the pairs of parentheses that enclose it. -/
def strip (s : Span) : Span :=
  match _h : s.ends with
  | .enclosing inner => inner.strip
  | .bare => s
  | .unrecorded => s
termination_by s.tokens.length
decreasing_by
  have := length_of_ends_eq_enclosing _h
  omega

theorem length_strip_le (s : Span) : s.strip.tokens.length ≤ s.tokens.length := by
  fun_induction strip s with
  | case1 s inner h ih =>
    have := length_of_ends_eq_enclosing h
    omega
  | case2 => exact Nat.le_refl _
  | case3 => exact Nat.le_refl _

end Span

/-- The tokens without the pairs of parentheses that enclose all of them. -/
def strip (ts : List Token) : List Token := (Span.ofList ts).strip.tokens

theorem length_strip_le (ts : List Token) : (strip ts).length ≤ ts.length :=
  Span.length_strip_le (Span.ofList ts)

@[simp] theorem strip_nil : strip [] = [] := by
  have := length_strip_le []
  exact List.eq_nil_of_length_eq_zero (Nat.le_zero.1 this)

end Propositional.Token

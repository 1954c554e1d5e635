import Propositional.Proofs.Token.Balance

/-!
# What is left when redundant parentheses are taken away

Stripping works on records that were taken once for the whole list. The result depends on the tokens
alone (`Span.strip_tokens_congr`), and is described here without records: the parentheses around a
covered list go, one pair after the other (`strip_enclosed`), and every other list stays as it is
(`strip_eq_self`). `strip_induction` is the induction that follows from the two.

Of the pairs that can be taken from both ends of a balanced list so that a balanced list is left, all
go (`strip_takes_outer_pairs`).
-/

namespace Propositional.Token

namespace Span

/-- What the ends of a span tell, said of its tokens alone. -/
theorem Recorded.ends_cases {s : Span} (hs : s.Recorded) :
    (∃ inner, s.ends = .enclosing inner ∧ inner.Recorded ∧ s.tokens = enclosed inner.tokens ∧
      Covered inner.tokens) ∨
    (s.ends = .bare ∧ ∀ ts, s.tokens = enclosed ts → ¬ Covered ts) := by
  obtain ⟨level, hlevel⟩ := id hs
  by_cases hb : bracketed s.tokens = true
  · obtain ⟨ts, hts⟩ := bracketed_iff.1 hb
    have hends := ends_of_recorded hts hlevel
    by_cases hcov : Covered ts
    · rw [if_neg (not_mem_records_succ_iff.2 hcov)] at hends
      exact Or.inl ⟨_, hends, hs.inner hends, hts, hcov⟩
    · rw [if_pos (Classical.not_not.1 (mt not_mem_records_succ_iff.1 hcov))] at hends
      refine Or.inr ⟨hends, fun us hus => ?_⟩
      rw [hts] at hus
      rwa [← enclosed_inj.1 hus]
  · refine Or.inr ⟨by simp [ends, hb], fun ts hts => ?_⟩
    exact absurd (bracketed_iff.2 ⟨ts, hts⟩) hb

theorem strip_of_enclosing {s inner : Span} (h : s.ends = .enclosing inner) :
    s.strip = inner.strip := by
  rw [strip]
  split
  · rename_i inner' h'
    rw [h, Ends.enclosing.injEq] at h'
    rw [h']
  all_goals
    rename_i h'
    rw [h] at h'
    cases h'

theorem strip_of_bare {s : Span} (h : s.ends = .bare) : s.strip = s := by
  rw [strip]
  split
  · rename_i inner h'
    rw [h] at h'
    cases h'
  all_goals rfl

/-- Two spans with the same tokens lose the same parentheses, whatever level their records were
taken from. -/
theorem strip_tokens_congr {s s' : Span} (hs : s.Recorded) (hs' : s'.Recorded)
    (h : s.tokens = s'.tokens) : s.strip.tokens = s'.strip.tokens := by
  fun_induction strip s generalizing s' with
  | case1 s inner hends ih =>
    -- a pair goes from `s`, so the same pair goes from `s'`, which has the same tokens
    rcases hs.ends_cases with ⟨_, hends', _, htokens, hcov⟩ | ⟨hbare, _⟩
    · cases hends.symm.trans hends'
      rcases hs'.ends_cases with ⟨inner', hinner', hrec', htokens', _⟩ | ⟨_, hnot⟩
      · rw [h, htokens', enclosed_inj] at htokens
        rw [strip_of_enclosing hinner']
        exact ih (hs.inner hends) hrec' htokens.symm
      · exact absurd hcov (hnot _ (h ▸ htokens))
    · rw [hends] at hbare
      cases hbare
  | case2 s hends =>
    -- no pair goes from `s`, so none can go from `s'`
    rcases hs'.ends_cases with ⟨inner', _, _, htokens', hcov'⟩ | ⟨hbare', _⟩
    · rcases hs.ends_cases with ⟨_, hends', _⟩ | ⟨_, hnot⟩
      · rw [hends] at hends'
        cases hends'
      · exact absurd hcov' (hnot _ (h ▸ htokens'))
    · rw [strip_of_bare hbare', h]
  | case3 s hends => exact absurd hends hs.ends_ne_unrecorded

end Span

/-! ## One pair at a time -/

theorem strip_enclosed {ts : List Token} (h : Covered ts) : strip (enclosed ts) = strip ts := by
  have hs := Span.recorded_ofList (enclosed ts)
  rcases hs.ends_cases with ⟨inner, hends, hrec, htokens, _⟩ | ⟨_, hnot⟩
  · rw [strip, Span.strip_of_enclosing hends]
    exact Span.strip_tokens_congr hrec (Span.recorded_ofList ts) (enclosed_inj.1 htokens).symm
  · exact absurd h (hnot ts rfl)

theorem strip_eq_self {ts : List Token} (h : ∀ us, ts = enclosed us → ¬ Covered us) :
    strip ts = ts := by
  rcases (Span.recorded_ofList ts).ends_cases with ⟨inner, _, _, htokens, hcov⟩ | ⟨hbare, _⟩
  · exact absurd hcov (h _ htokens)
  · rw [strip, Span.strip_of_bare hbare]
    rfl

@[simp] theorem strip_singleton (t : Token) : strip [t] = [t] := by
  refine strip_eq_self fun us hus _ => ?_
  have := congrArg List.length hus
  rw [length_enclosed, List.length_singleton] at this
  omega

/-- What stands on the two sides of a token is shorter than the list, also if the list is stripped before. -/
theorem length_sides_lt {ts us vs : List Token} {t : Token} (h : strip ts = us ++ t :: vs) :
    us.length < ts.length ∧ vs.length < ts.length := by
  have hlength := length_strip_le ts
  rw [h, List.length_append, List.length_cons] at hlength
  omega

/-- Stripping follows the pairs that enclose a list: either there is none and the list stays, or the
pair goes and what stands between the two is stripped. -/
theorem strip_induction {P : List Token → List Token → Prop}
    (bare : ∀ ts, (∀ us, ts = enclosed us → ¬ Covered us) → P ts ts)
    (enclosing : ∀ ts, Covered ts → P ts (strip ts) → P (enclosed ts) (strip ts))
    (ts : List Token) : P ts (strip ts) := by
  induction hn : ts.length using Nat.strongRecOn generalizing ts with
  | ind n ih =>
    by_cases h : ∃ us, ts = enclosed us ∧ Covered us
    · obtain ⟨us, rfl, hus⟩ := h
      rw [strip_enclosed hus]
      rw [length_enclosed] at hn
      exact enclosing us hus (ih us.length (by omega) us rfl)
    · have hbare : ∀ us, ts = enclosed us → ¬ Covered us := fun us hts hus => h ⟨us, hts, hus⟩
      rw [strip_eq_self hbare]
      exact bare ts hbare

/-- What is left has no redundant parentheses. -/
@[simp] theorem strip_strip (ts : List Token) : strip (strip ts) = strip ts :=
  strip_induction (P := fun _ us => strip us = us) (fun _ h => strip_eq_self h)
    (fun _ _ ih => ih) ts

@[simp] theorem balanced_strip (ts : List Token) : balanced (strip ts) = balanced ts :=
  strip_induction (P := fun ts us => balanced us = balanced ts) (fun _ _ => rfl)
    (fun _ h ih => ih.trans (balanced_enclosed h).symm) ts

/-! ## The pairs that go -/

/-- The list between `k` opening and `k` closing parentheses. -/
def wrapped (k : Nat) (ts : List Token) : List Token :=
  List.replicate k "(" ++ ts ++ List.replicate k ")"

theorem wrapped_succ (k : Nat) (ts : List Token) : wrapped (k + 1) ts = enclosed (wrapped k ts) := by
  have hclose : List.replicate (k + 1) ")" = List.replicate k ")" ++ [")"] := List.replicate_succ'
  rw [wrapped, hclose, List.replicate_succ, enclosed, wrapped]
  simp only [List.cons_append, List.append_assoc]

theorem length_wrapped (k : Nat) (ts : List Token) : (wrapped k ts).length = ts.length + 2 * k := by
  simp only [wrapped, List.length_append, List.length_replicate]
  omega

theorem balanced_wrapped (k : Nat) {ts : List Token} (h : balanced ts = true) :
    balanced (wrapped k ts) = true := by
  induction k with
  | zero => simpa [wrapped] using h
  | succ k ih => rw [wrapped_succ, balanced_enclosed (balanced_iff.1 ih).2, ih]

/-- All pairs around a balanced list go. -/
theorem strip_wrapped (k : Nat) {ts : List Token} (h : balanced ts = true) :
    strip (wrapped k ts) = strip ts := by
  induction k with
  | zero => simp [wrapped]
  | succ k ih => rw [wrapped_succ, strip_enclosed (balanced_iff.1 (balanced_wrapped k h)).2, ih]

/-- Nothing goes but pairs at the two ends. -/
theorem exists_eq_wrapped_strip (ts : List Token) : ∃ k, ts = wrapped k (strip ts) := by
  refine strip_induction (P := fun ts us => ∃ k, ts = wrapped k us) (fun ts _ => ⟨0, ?_⟩)
    (fun ts _ ih => ?_) ts
  · simp [wrapped]
  · obtain ⟨k, hk⟩ := ih
    exact ⟨k + 1, by rw [wrapped_succ, ← hk]⟩

/-- A balanced list has no more pairs around it than those that go: these pairs go, and what is left of
the list then is no longer than the list. -/
theorem le_of_eq_wrapped {ts us : List Token} {j k : Nat} (hk : ts = wrapped k (strip ts))
    (hj : ts = wrapped j us) (h : balanced us = true) : j ≤ k := by
  have hstrip : strip ts = strip us := by rw [hj, strip_wrapped j h]
  have hle : (strip us).length ≤ us.length := length_strip_le us
  have hlength := congrArg List.length (hk.symm.trans hj)
  rw [length_wrapped, length_wrapped, hstrip] at hlength
  omega

/-- A list whose first parenthesis closes before the end loses nothing: between the two ends the list
falls below the level there. -/
theorem strip_enclosed_append {us vs : List Token} (h : balanced us = true) (hvs : vs ≠ []) :
    strip (enclosed us ++ vs) = enclosed us ++ vs := by
  refine strip_eq_self fun ws hws hcov => ?_
  obtain ⟨vs, v, rfl⟩ := List.eq_nil_or_concat vs |>.resolve_left hvs
  have hends : us ++ [")"] ++ vs ++ [v] = ws ++ [")"] := by
    simpa [enclosed] using hws
  have hprefix : us ++ [")"] <+: ws := ⟨vs, (List.append_inj' hends rfl).1⟩
  have hnonneg := hcov _ hprefix
  rw [rise_append, (balanced_iff.1 h).1, rise_cons, step_closing, rise_nil] at hnonneg
  omega

/-- Stripping takes the same number of parentheses from both ends and nothing else. What is left has no
redundant parentheses and is balanced exactly when the list is. No larger number of pairs can go so that
a balanced list is left, and none goes when the first parenthesis closes before the end. -/
theorem strip_takes_outer_pairs (ts : List Token) :
    ∃ k, ts = wrapped k (strip ts) ∧ strip (strip ts) = strip ts ∧
      balanced (strip ts) = balanced ts ∧
      (∀ j us, ts = wrapped j us → balanced us = true → j ≤ k) ∧
      ∀ us vs, ts = enclosed us ++ vs → balanced us = true → vs ≠ [] → k = 0 ∧ strip ts = ts := by
  obtain ⟨k, hk⟩ := exists_eq_wrapped_strip ts
  refine ⟨k, hk, strip_strip ts, balanced_strip ts, fun j us => le_of_eq_wrapped hk, ?_⟩
  rintro us vs rfl hus hvs
  have hstrip := strip_enclosed_append hus hvs
  have hlength := congrArg List.length hk
  rw [length_wrapped, hstrip] at hlength
  exact ⟨by omega, hstrip⟩

/-- Two groups side by side, in two pairs of parentheses: the two pairs go and the groups stay. -/
theorem strip_takes_outer_pairs_groups :
    let us := ["(", "A", ")", "and", "(", "B", ")"]
    let ts := ["(", "("] ++ us ++ [")", ")"]
    strip us = us ∧ strip ts = us ∧ ∀ j ws, ts = wrapped j ws → balanced ws = true → j ≤ 2 := by
  intro us ts
  obtain ⟨_, -, -, -, -, hgroups⟩ := strip_takes_outer_pairs us
  have hus : strip us = us := (hgroups ["A"] ["and", "(", "B", ")"] rfl rfl (by decide)).2
  have hts : strip ts = us := (strip_wrapped 2 (by decide : balanced us = true)).trans hus
  obtain ⟨k, hk, -, -, hmax, -⟩ := strip_takes_outer_pairs ts
  have hlength := congrArg List.length hk
  rw [length_wrapped, hts] at hlength
  have htwo : k = 2 := by
    simp only [ts, us, List.length_append, List.length_cons, List.length_nil] at hlength
    omega
  exact ⟨hus, hts, htwo ▸ hmax⟩

end Propositional.Token

import Propositional.Proofs.Token.Strip

/-!
# Stripping by places

A span is a stretch of a list of tokens with a stretch of the list of its records. Both can be given by
places in the two lists, which stay as they are: a `Window` has two places among the tokens and two among
the records, and when a pair of parentheses goes, all four move inwards by one (`Window.narrowed`). Only
the tokens tell whether a pair may go, so that the places among the records have to keep step with them.

Each turn looks into both lists and takes differences of places, and every such look and difference is
checked here: where one of them is out of range, `Window.turn` has no outcome. `Window.Shows` is the
invariant: the list is cut in three, and the records are cut in the same way. One turn from such a window
has an outcome, which is what the ends of the span tell (`Shows.turn_cases`), so that the windows go
through the spans that stripping goes through.
-/

namespace Propositional.Token

variable {α : Type}

/-! ## Checked looks into a list -/

/-- The difference of two places, unless it is below zero. -/
def difference? (m n : Nat) : Option Nat := if n ≤ m then some (m - n) else none

/-- The elements of a list from a place on and before another, unless the two are in the wrong order or
the list ends before the second. -/
def slice? (xs : List α) (i j : Nat) : Option (List α) :=
  if i ≤ j ∧ j ≤ xs.length then some (xs.extract i j) else none

theorem difference?_eq_some {m n : Nat} (h : n ≤ m) : difference? m n = some (m - n) := if_pos h

theorem extract_append (us xs vs : List α) :
    (us ++ xs ++ vs).extract us.length (us.length + xs.length) = xs := by
  simp [List.extract]

theorem slice?_append (us xs vs : List α) :
    slice? (us ++ xs ++ vs) us.length (us.length + xs.length) = some xs := by
  rw [slice?, extract_append, if_pos]
  simp only [List.length_append]
  omega

/-- A list of two elements or more has two ends. -/
theorem exists_ends {xs : List α} (h : 2 ≤ xs.length) : ∃ a ys b, xs = a :: ys ++ [b] := by
  match xs, h with
  | a :: zs, h =>
    rcases List.eq_nil_or_concat zs with rfl | ⟨ys, b, rfl⟩
    · simp at h
    · exact ⟨a, ys, b, by simp⟩

/-! ## Windows -/

/-- The tokens from `lo` on and before `hi`, with the records from `first` on and before `last`. -/
structure Window where
  lo : Nat
  hi : Nat
  first : Nat
  last : Nat
deriving DecidableEq, Repr

/-- What one turn comes to. -/
inductive Turn
  /-- No pair of parentheses encloses what the window shows. -/
  | stop
  /-- A pair goes; the next turn begins with this window. -/
  | again (w : Window)
deriving DecidableEq, Repr

namespace Window

/-- The window of a whole list. -/
def whole (ts : List Token) : Window := ⟨0, ts.length, 0, (Token.records 0 ts).length⟩

/-- All four places moved inwards by one. -/
def narrowed (w : Window) : Window := ⟨w.lo + 1, w.hi - 1, w.first + 1, w.last - 1⟩

/-- The tokens and the records in the window. -/
def span (ts : List Token) (w : Window) : Span :=
  ⟨ts.extract w.lo w.hi, (Token.records 0 ts).extract w.first w.last⟩

/-- The record of the first end is looked for between the two ends; if it is not there, the pair goes. -/
def compareRecords (rs : List Int) (w : Window) : Option Turn := do
  let outer ← rs[w.first]?
  let beforeLast ← difference? w.last 1
  let between ← slice? rs (w.first + 1) beforeLast
  if between.contains outer then some .stop
  else do
    let beforeHi ← difference? w.hi 1
    some (.again ⟨w.lo + 1, beforeHi, w.first + 1, beforeLast⟩)

/-- One turn over a list of tokens and the list of its records: the two ends are looked at, as long as there
are two, and the records only if the ends are a pair of parentheses. -/
def turn (ts : List Token) (rs : List Int) (w : Window) : Option Turn := do
  let width ← difference? w.hi w.lo
  if width < 2 then some .stop
  else do
    let front ← ts[w.lo]?
    if front ≠ "(" then some .stop
    else do
      let beforeHi ← difference? w.hi 1
      let back ← ts[beforeHi]?
      if back ≠ ")" then some .stop
      else w.compareRecords rs

/-- The windows at the beginning of the turns, from the window of the whole list on. -/
inductive Reached (ts : List Token) : Window → Prop
  | whole : Reached ts (whole ts)
  | again {w w' : Window} (h : Reached ts w)
      (hturn : w.turn ts (Token.records 0 ts) = some (.again w')) : Reached ts w'

/-- The places of a window and all that a turn looks at are in range. -/
structure InRange (ts : List Token) (w : Window) : Prop where
  lo_le_hi : w.lo ≤ w.hi
  hi_le : w.hi ≤ ts.length
  first_le_last : w.first ≤ w.last
  last_le : w.last ≤ (Token.records 0 ts).length
  /-- Two tokens or more: both ends are in the list. -/
  ends : 2 ≤ w.hi - w.lo → w.lo < ts.length ∧ 1 ≤ w.hi ∧ w.hi - 1 < ts.length
  /-- A pair at the two ends: there is a record for each end, and a stretch of records between them. -/
  pair : 2 ≤ w.hi - w.lo → ts[w.lo]? = some "(" → ts[w.hi - 1]? = some ")" →
    w.first < (Token.records 0 ts).length ∧ 1 ≤ w.last ∧ w.first + 1 ≤ w.last - 1 ∧
      w.last - 1 ≤ (Token.records 0 ts).length

/-- The window shows `xs`, which stands between `us` and `vs`, and the records of `xs`, which stand behind
those of `us`. -/
structure Shows (ts : List Token) (w : Window) (us xs vs : List Token) : Prop where
  tokens_eq : ts = us ++ xs ++ vs
  lo_eq : w.lo = us.length
  hi_eq : w.hi = us.length + xs.length
  first_eq : w.first = (Token.records 0 us).length
  last_eq : w.last = w.first + (Token.records (rise us) xs).length

theorem shows_whole (ts : List Token) : Shows ts (whole ts) [] ts [] where
  tokens_eq := by simp
  lo_eq := rfl
  hi_eq := by simp [whole]
  first_eq := rfl
  last_eq := by simp [whole]

namespace Shows

variable {ts us xs vs : List Token} {w : Window}

theorem records_eq (h : Shows ts w us xs vs) :
    Token.records 0 ts = Token.records 0 us ++ Token.records (rise us) xs ++
      Token.records (rise (us ++ xs)) vs := by
  rw [h.tokens_eq, records_append, records_append, Int.zero_add, Int.zero_add]

/-- The span in the window is the part shown, with its own records. -/
theorem span_eq (h : Shows ts w us xs vs) : w.span ts = ⟨xs, Token.records (rise us) xs⟩ := by
  rw [span, h.records_eq, h.last_eq, h.first_eq, extract_append, h.lo_eq, h.hi_eq, h.tokens_eq,
    extract_append]

/-- When a pair of parentheses goes, the places among the records keep step with those among the tokens:
each of the two parentheses has one record. -/
theorem narrowed {inner : List Token} (h : Shows ts w us (enclosed inner) vs) :
    Shows ts w.narrowed (us ++ ["("]) inner (")" :: vs) where
  tokens_eq := by
    rw [h.tokens_eq, enclosed]
    simp
  lo_eq := by simp [Window.narrowed, h.lo_eq]
  hi_eq := by
    have := h.hi_eq
    simp only [length_enclosed] at this
    simp only [Window.narrowed, List.length_append, List.length_singleton]
    omega
  first_eq := by
    simp [Window.narrowed, h.first_eq, records_append, records]
  last_eq := by
    have := h.last_eq
    rw [enclosed, Span.records_bracketed] at this
    simp only [List.length_append, List.length_cons, List.length_nil] at this
    simp only [Window.narrowed, rise_append, rise_cons, step_opening, rise_nil, Int.add_zero]
    omega

theorem difference?_lo (h : Shows ts w us xs vs) : difference? w.hi w.lo = some xs.length := by
  rw [h.lo_eq, h.hi_eq, difference?_eq_some (Nat.le_add_right _ _), Nat.add_sub_cancel_left]

/-- The two ends of what is shown are where the window says. -/
theorem getElem?_ends {a b : Token} {ys : List Token} (h : Shows ts w us (a :: ys ++ [b]) vs) :
    ts[w.lo]? = some a ∧ ts[w.hi - 1]? = some b := by
  have hhi : w.hi - 1 = (us ++ a :: ys).length := by
    have := h.hi_eq
    simp only [List.length_append, List.length_singleton] at this ⊢
    omega
  rw [h.tokens_eq, h.lo_eq, hhi]
  simp

theorem turn_of_ends {a b : Token} {ys : List Token} (h : Shows ts w us (a :: ys ++ [b]) vs)
    (rs : List Int) :
    w.turn ts rs = if a = "(" ∧ b = ")" then w.compareRecords rs else some .stop := by
  have hlong : ¬ (a :: ys ++ [b]).length < 2 := by simp
  have hhi : 1 ≤ w.hi := by
    have := h.hi_eq
    simp only [List.length_append, List.length_singleton] at this
    omega
  obtain ⟨hfront, hback⟩ := h.getElem?_ends
  unfold turn
  simp only [h.difference?_lo, difference?_eq_some hhi, hfront, hback, Option.bind_eq_bind,
    Option.bind_some, if_neg hlong]
  by_cases ha : a = "(" <;> by_cases hb : b = ")" <;> simp [ha, hb]

/-- A span without a pair of parentheses at its two ends is left before anything is asked of the records. -/
theorem turn_of_not_bracketed (h : Shows ts w us xs vs) (hxs : bracketed xs = false) (rs : List Int) :
    w.turn ts rs = some .stop := by
  by_cases hshort : xs.length < 2
  · unfold turn
    simp only [h.difference?_lo, Option.bind_eq_bind, Option.bind_some, if_pos hshort]
  · obtain ⟨a, ys, b, rfl⟩ := exists_ends (Nat.not_lt.1 hshort)
    rw [h.turn_of_ends, if_neg]
    rintro ⟨rfl, rfl⟩
    rw [bracketed_iff.2 ⟨ys, rfl⟩] at hxs
    cases hxs

/-- Between the two ends of a pair the places among the records show the records of what is in between. -/
theorem compareRecords_eq {inner : List Token} (h : Shows ts w us (enclosed inner) vs) :
    w.compareRecords (Token.records 0 ts) = some
      (if rise us ∈ Token.records (rise us + 1) inner then .stop else .again w.narrowed) := by
  -- the records of the two parentheses stand around those of what is in between
  have hrecords : Token.records 0 ts = (Token.records 0 us ++ [rise us]) ++
      Token.records (rise us + 1) inner ++
        ((rise us + rise inner) :: Token.records (rise us + rise inner) vs) := by
    rw [h.records_eq, enclosed, Span.records_bracketed, ← enclosed, rise_append, rise_enclosed]
    simp
  have hfirst : w.first + 1 = (Token.records 0 us ++ [rise us]).length := by simp [h.first_eq]
  have hlast : w.last = w.first + 1 + (Token.records (rise us + 1) inner).length + 1 := by
    rw [h.last_eq, enclosed, Span.records_bracketed]
    simp only [List.length_append, List.length_cons, List.length_nil]
    omega
  have hhi : 1 ≤ w.hi := by
    have := h.hi_eq
    rw [length_enclosed] at this
    omega
  have houter : (Token.records 0 ts)[w.first]? = some (rise us) := by
    rw [hrecords, h.first_eq]
    simp
  have hbetween : slice? (Token.records 0 ts) (w.first + 1) (w.last - 1) =
      some (Token.records (rise us + 1) inner) := by
    rw [hlast, Nat.add_sub_cancel, hfirst, hrecords, slice?_append]
  unfold compareRecords
  simp only [houter, hbetween, difference?_eq_some hhi, difference?_eq_some (by omega : 1 ≤ w.last),
    Option.bind_eq_bind, Option.bind_some, List.contains_iff_mem]
  split <;> rfl

/-- One turn has an outcome, and this is what the ends of the span in the window tell. -/
theorem turn_cases (h : Shows ts w us xs vs) :
    ((w.span ts).ends = .bare ∧ w.turn ts (Token.records 0 ts) = some .stop) ∨
    ∃ inner, xs = enclosed inner ∧ (w.span ts).ends = .enclosing (w.narrowed.span ts) ∧
      w.turn ts (Token.records 0 ts) = some (.again w.narrowed) := by
  rw [h.span_eq]
  by_cases hxs : bracketed xs = true
  · obtain ⟨inner, rfl⟩ := bracketed_iff.1 hxs
    have hends := Span.ends_of_recorded (s := ⟨_, Token.records (rise us) ("(" :: inner ++ [")"])⟩) rfl rfl
    rw [h.turn_of_ends, if_pos ⟨rfl, rfl⟩, Shows.compareRecords_eq h, hends]
    by_cases hback : rise us ∈ Token.records (rise us + 1) inner
    · exact Or.inl ⟨if_pos hback, by rw [if_pos hback]⟩
    · refine Or.inr ⟨inner, rfl, ?_, by rw [if_neg hback]⟩
      rw [if_neg hback, (Shows.narrowed h).span_eq]
      simp
  · rw [Bool.not_eq_true] at hxs
    exact Or.inl ⟨by simp [Span.ends, hxs], h.turn_of_not_bracketed hxs _⟩

theorem inRange (h : Shows ts w us xs vs) : InRange ts w := by
  have htokens := congrArg List.length h.tokens_eq
  have hrecords := congrArg List.length h.records_eq
  have hlo := h.lo_eq
  have hhi := h.hi_eq
  have hfirst := h.first_eq
  have hlast := h.last_eq
  simp only [List.length_append] at htokens hrecords
  refine ⟨by omega, by omega, by omega, by omega, fun hlong => by omega, fun hlong hfront hback => ?_⟩
  -- the tokens say that what is shown is a pair, and a pair has two records at least
  obtain ⟨a, ys, b, rfl⟩ := exists_ends (by omega : 2 ≤ xs.length)
  obtain ⟨ha, hb⟩ := h.getElem?_ends
  obtain rfl : a = "(" := Option.some.inj (ha.symm.trans hfront)
  obtain rfl : b = ")" := Option.some.inj (hb.symm.trans hback)
  rw [Span.records_bracketed] at hlast hrecords
  simp only [List.length_append, List.length_cons, List.length_nil] at hlast hrecords
  omega

end Shows

/-! ## From the whole list to what is left of it -/

variable {ts : List Token} {w : Window}

/-- The windows go through the spans that stripping goes through. -/
theorem Reached.exists_shows (h : Reached ts w) :
    ∃ us xs vs, Shows ts w us xs vs ∧ (w.span ts).strip = (Span.ofList ts).strip := by
  induction h with
  | whole => exact ⟨[], ts, [], shows_whole ts, by rw [(shows_whole ts).span_eq]; rfl⟩
  | again h hturn ih =>
    obtain ⟨us, xs, vs, hshows, hstrip⟩ := ih
    rcases hshows.turn_cases with ⟨-, hstop⟩ | ⟨inner, rfl, hends, hagain⟩
    · rw [hstop] at hturn
      cases hturn
    · rw [hagain] at hturn
      cases hturn
      exact ⟨_, inner, _, hshows.narrowed, by rw [← hstrip, Span.strip_of_enclosing hends]⟩

/-- Every window is narrowed for as long as a pair goes, and that comes to an end. -/
theorem Reached.exists_stop (h : Reached ts w) :
    ∃ w', Reached ts w' ∧ w'.turn ts (Token.records 0 ts) = some .stop ∧
      w'.span ts = (Span.ofList ts).strip := by
  induction hn : w.hi - w.lo using Nat.strongRecOn generalizing w with
  | ind n ih =>
    obtain ⟨us, xs, vs, hshows, hstrip⟩ := h.exists_shows
    rcases hshows.turn_cases with ⟨hbare, hstop⟩ | ⟨inner, rfl, -, hagain⟩
    · exact ⟨w, h, hstop, by rw [← hstrip, Span.strip_of_bare hbare]⟩
    · have hlo := hshows.lo_eq
      have hhi := hshows.hi_eq
      rw [length_enclosed] at hhi
      refine ih (w.narrowed.hi - w.narrowed.lo) ?_ (h.again hagain) rfl
      simp only [narrowed]
      omega

/-- Whatever the list, at the beginning of every turn the window cuts the records where it cuts the tokens,
and all places are in range. So the turn has an outcome: it does to the places what the ends of the span in
the window ask for, and what is left to strip is what stripping leaves of the whole list. The turns come to
an end, at a window that shows the stripped list. -/
theorem turns_in_range (ts : List Token) :
    (∀ w, Reached ts w →
      (∃ us xs vs, Shows ts w us xs vs ∧ w.span ts = ⟨xs, Token.records (rise us) xs⟩) ∧ InRange ts w ∧
      ((w.span ts).ends = .bare ∧ w.turn ts (Token.records 0 ts) = some .stop ∨
        (w.span ts).ends = .enclosing (w.narrowed.span ts) ∧
          w.turn ts (Token.records 0 ts) = some (.again w.narrowed)) ∧
      (w.span ts).strip = (Span.ofList ts).strip) ∧
    ∃ w, Reached ts w ∧ w.turn ts (Token.records 0 ts) = some .stop ∧ w.lo ≤ w.hi ∧
      ts.extract w.lo w.hi = Token.strip ts := by
  constructor
  · intro w h
    obtain ⟨us, xs, vs, hshows, hstrip⟩ := h.exists_shows
    refine ⟨⟨us, xs, vs, hshows, hshows.span_eq⟩, hshows.inRange, ?_, hstrip⟩
    exact hshows.turn_cases.imp_right fun ⟨_, _, hends, hturn⟩ => ⟨hends, hturn⟩
  · obtain ⟨w, h, hstop, hspan⟩ := (Reached.whole : Reached ts (whole ts)).exists_stop
    obtain ⟨us, xs, vs, hshows, -⟩ := h.exists_shows
    exact ⟨w, h, hstop, hshows.inRange.lo_le_hi, congrArg Span.tokens hspan⟩

/-- A list that opens more parentheses than it closes: one pair goes, and the places among the records stay
those of the parentheses. -/
theorem turns_in_range_unbalanced :
    let ts := ["(", "(", "A", ")"]
    let w : Window := ⟨1, 3, 1, 2⟩
    Reached ts w ∧ (∃ us xs vs, Shows ts w us xs vs ∧ w.span ts = ⟨xs, Token.records (rise us) xs⟩) ∧
      InRange ts w ∧ (w.span ts).ends = .bare ∧ w.turn ts (Token.records 0 ts) = some .stop ∧
      (w.span ts).strip = (Span.ofList ts).strip := by
  intro ts w
  have hfirst : (whole ts).turn ts (Token.records 0 ts) = some (.again w) := by decide
  have hreached : Reached ts w := .again .whole hfirst
  obtain ⟨hshows, hrange, hturn, hstrip⟩ := (turns_in_range ts).1 w hreached
  have hbare : (w.span ts).ends = .bare := by decide
  rcases hturn with ⟨-, hstop⟩ | ⟨hends, -⟩
  · exact ⟨hreached, hshows, hrange, hbare, hstop, hstrip⟩
  · rw [hbare] at hends
    cases hends

end Window

end Propositional.Token
